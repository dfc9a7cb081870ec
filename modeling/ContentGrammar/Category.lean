import ContentGrammar.Model.Basic
import ContentGrammar.Text.Dictionary

/-!
# Content categories

A table lists the members of each category: tag names, `#text`, and further categories, which may
refer to each other in circles. `Category.expand` gathers the names that a category stands for in
the end, going through the categories it reaches depth first and from left to right, so that the
first category missing from the table is the one reported. `Category.Resolver` keeps what it has
worked out for the next time it is asked.
-/

namespace ContentGrammar

namespace Category

/-- The members of each category as they are written. -/
abbrev Table := Dictionary (List String)

/-- The names that each category stands for. -/
abbrev Sets := Dictionary NameSet

/-- The categories of a table that are not among `seen`. -/
def unseen (table : Table) (seen : List String) : List String :=
  table.keys.filter fun name => !seen.contains name

theorem length_unseen_cons {table : Table} {seen : List String} {name : String}
    (hkey : name ∈ table.keys) (hnew : seen.contains name = false) :
    (unseen table (name :: seen)).length < (unseen table seen).length := by
  have hsub : unseen table (name :: seen) =
      (unseen table seen).filter fun x => !(x == name) := by
    simp only [unseen, List.filter_filter]
    congr 1
    funext x
    simp [Bool.beq_eq_decide_eq]
  rw [hsub]
  refine List.length_filter_lt_length_iff_exists.mpr ⟨name, ?_, by simp⟩
  simp only [unseen, List.mem_filter, hkey, hnew, Bool.not_false, and_self]

/-- Adds to `found` what the `pending` categories stand for, not going twice into those `seen`. -/
def expandFrom (table : Table) (pending seen : List String) (found : NameSet) :
    Except ModelError NameSet :=
  match pending with
  | [] => .ok found
  | name :: rest =>
    if _hs : seen.contains name then expandFrom table rest seen found
    else
      match _hm : table.get? name with
      | none => .error (.unknownCategory name)
      | some members =>
        expandFrom table (members.filter isCategoryName ++ rest) (name :: seen)
          (((members.filter fun m => !isCategoryName m).map Ascii.lower).foldl NameSet.insert found)
termination_by ((unseen table seen).length, pending.length)
decreasing_by
  · exact Prod.Lex.right _ (by simp)
  · exact Prod.Lex.left _ _
      (length_unseen_cons (Dictionary.mem_keys_of_get? _hm) (by simpa using _hs))

/-- The names that a category stands for. -/
def expand (table : Table) (name : String) : Except ModelError NameSet :=
  expandFrom table [name] [] .empty

/-- The names that a category of known sets stands for. -/
def Sets.members (sets : Sets) (name : String) : Except ModelError NameSet :=
  match sets.get? name with
  | some members => .ok members
  | none => .error (.unknownCategory name)

/-- A table with the sets that have been worked out. -/
structure Resolver where
  table : Table
  known : Sets

namespace Resolver

/-- A resolver that knows nothing yet. -/
def new (table : Table) : Resolver := ⟨table, .empty⟩

/-- The names that a category stands for, and the resolver that knows them. -/
def resolve (r : Resolver) (name : String) : Except ModelError NameSet × Resolver :=
  match r.known.get? name with
  | some members => (.ok members, r)
  | none =>
    match expand r.table name with
    | .ok members => (.ok members, { r with known := r.known.insert name members })
    | .error e => (.error e, r)

/-- The resolver that knows all of `names`, or the first error. -/
def resolveNames (r : Resolver) : List String → Except ModelError Resolver
  | [] => .ok r
  | name :: names =>
    match r.resolve name with
    | (.ok _, r) => r.resolveNames names
    | (.error e, _) => .error e

/-- The sets of all categories in the table. -/
def resolveAll (r : Resolver) : Except ModelError Sets := do
  return (← r.resolveNames r.table.keys).known

end Resolver

/-- The sets of all categories in a table. -/
def resolveTable (table : Table) : Except ModelError Sets := (Resolver.new table).resolveAll

end Category

end ContentGrammar
