import ContentGrammar.Category

/-!
# Going through categories

Each way in which the expansion of categories goes on, as an equation: past a category that has been
seen (`expandFrom_seen`), to an error at one that is missing (`expandFrom_missing`), and into the
members of one that is found (`expandFrom_found`).
-/

namespace ContentGrammar.Category

variable {table : Table} {name : String} {rest seen members : List String} {found : NameSet}

theorem expandFrom_nil : expandFrom table [] seen found = .ok found := by
  rw [expandFrom]

theorem expandFrom_seen (hseen : seen.contains name = true) :
    expandFrom table (name :: rest) seen found = expandFrom table rest seen found := by
  rw [expandFrom, dif_pos hseen]

theorem expandFrom_missing (hseen : ¬ seen.contains name = true) (h : table.get? name = none) :
    expandFrom table (name :: rest) seen found = .error (.unknownCategory name) := by
  rw [expandFrom, dif_neg hseen]
  split
  · rfl
  · rename_i hsome
    rw [h] at hsome
    cases hsome

theorem expandFrom_found (hseen : ¬ seen.contains name = true) (h : table.get? name = some members) :
    expandFrom table (name :: rest) seen found =
      expandFrom table (members.filter isCategoryName ++ rest) (name :: seen)
        (((members.filter fun m => !isCategoryName m).map Ascii.lower).foldl NameSet.insert found) := by
  rw [expandFrom, dif_neg hseen]
  split
  · rename_i hnone
    rw [h] at hnone
    cases hnone
  · rename_i hsome
    rw [h] at hsome
    obtain rfl := Option.some.inj hsome
    rfl

/-- A category without members stands for nothing. -/
theorem expand_of_nil (h : table.get? name = some []) : expand table name = .ok .empty := by
  rw [expand, expandFrom_found (by simp) h]
  exact expandFrom_nil

theorem members_ok {sets : Sets} {members : NameSet} (h : sets.members name = .ok members) :
    sets.get? name ≠ none := by
  unfold Sets.members at h
  cases hm : sets.get? name with
  | some members => exact Option.some_ne_none _
  | none =>
    rw [hm] at h
    cases h

end ContentGrammar.Category
