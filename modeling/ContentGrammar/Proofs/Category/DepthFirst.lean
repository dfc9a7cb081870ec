import Mathlib.Data.List.Basic
import Mathlib.Logic.Relation
import ContentGrammar.Proofs.Category

/-!
# The categories that a category reaches

A category refers to the categories among its members, and reaches what can be come to by going from
reference to reference. `depthFirst` visits what a row of categories reaches by plain recursion,
each category before what is in it and members from left to right. So it visits what is reached and
nothing else (`mem_depthFirst_singleton`).

Expanding works on a stack of names instead. With names on top of the stack it does what the
recursion does for them and goes on with the others (`expandFrom_append`), so a category stands for
the names in what it reaches unless one of these is missing (`expand_eq`).
-/

namespace ContentGrammar.Category

/-- Whether `b` is among the members of `a`, as a category. -/
def Refers (table : Table) (a b : String) : Prop :=
  ∃ members, table.get? a = some members ∧ b ∈ members ∧ isCategoryName b = true

/-- Whether `b` is `a` or is come to from `a` by references. -/
abbrev Reaches (table : Table) : String → String → Prop := Relation.ReflTransGen (Refers table)

/-- The categories among the members of a category, in written order. -/
def references (table : Table) (name : String) : List String :=
  ((table.get? name).getD []).filter isCategoryName

/-- The names among the members of a category, in small letters. -/
def names (table : Table) (name : String) : List String :=
  (((table.get? name).getD []).filter fun m => !isCategoryName m).map Ascii.lower

/-- Whether a category is not in the table. -/
def isMissing (table : Table) (name : String) : Bool := (table.get? name).isNone

variable {table : Table} {a b name : String} {pending rest seen : List String} {found : NameSet}

theorem refers_iff_mem_references : Refers table a b ↔ b ∈ references table a := by
  unfold Refers references
  cases table.get? a <;> simp

theorem mem_names {x : String} : x ∈ names table name ↔
    ∃ members, table.get? name = some members ∧
      ∃ m ∈ members, isCategoryName m = false ∧ x = Ascii.lower m := by
  rw [names, List.mem_map]
  cases table.get? name with
  | none => simp
  | some members =>
    simp only [Option.getD_some, Option.some.injEq, exists_eq_left', List.mem_filter,
      Bool.not_eq_true', and_assoc, eq_comm (a := x)]

theorem isMissing_iff : isMissing table name = true ↔ table.get? name = none := by
  rw [isMissing, Option.isNone_iff_eq_none]

theorem references_of_missing (h : isMissing table name = true) : references table name = [] := by
  rw [references, isMissing_iff.mp h]
  rfl

theorem length_unseen_append (l : List String) :
    (unseen table (l ++ seen)).length ≤ (unseen table seen).length := by
  refine (List.monotone_filter_right _ fun x hx => ?_).length_le
  simp only [List.contains_append, Bool.not_or, Bool.and_eq_true] at hx
  exact hx.2

/-! ## Visiting depth first -/

/-- The categories come to from `pending`, apart from those `seen`, in the order in which they are
visited depth first and from left to right. What is missing is visited and has nothing in it. -/
def depthFirst (table : Table) (seen pending : List String) : List String :=
  match pending with
  | [] => []
  | name :: rest =>
    if _hs : seen.contains name then depthFirst table seen rest
    else
      let inside := depthFirst table (name :: seen) (references table name)
      name :: inside ++ depthFirst table (inside.reverse ++ name :: seen) rest
termination_by ((unseen table seen).length, pending.length)
decreasing_by
  · exact Prod.Lex.right _ (by simp)
  · cases hname : table.get? name with
    | none =>
      refine Prod.Lex.right' _ (length_unseen_append [name]) ?_
      rw [references_of_missing (isMissing_iff.mpr hname)]
      exact Nat.zero_lt_succ _
    | some members =>
      have hkey := Dictionary.mem_keys_of_get? hname
      exact Prod.Lex.left _ _ (length_unseen_cons hkey (by simpa using _hs))
  · refine Prod.Lex.right' _ ?_ (by simp)
    exact Nat.le_trans (length_unseen_append _) (length_unseen_append [name])

theorem depthFirst_nil : depthFirst table seen [] = [] := by
  rw [depthFirst]

theorem depthFirst_seen (h : seen.contains name = true) :
    depthFirst table seen (name :: rest) = depthFirst table seen rest := by
  rw [depthFirst, dif_pos h]

theorem depthFirst_new (h : ¬ seen.contains name = true) :
    depthFirst table seen (name :: rest) =
      name :: depthFirst table (name :: seen) (references table name) ++
        depthFirst table
          ((depthFirst table (name :: seen) (references table name)).reverse ++ name :: seen)
          rest := by
  rw [depthFirst, dif_neg h]

/-- Induction over a visit: to what is seen already, and to what is new. -/
theorem depthFirst_induct (table : Table) {motive : List String → List String → Prop}
    (nil : ∀ seen, motive seen [])
    (stale : ∀ seen name rest, seen.contains name = true → motive seen rest →
      motive seen (name :: rest))
    (fresh : ∀ seen name rest, ¬ seen.contains name = true →
      motive (name :: seen) (references table name) →
      motive ((depthFirst table (name :: seen) (references table name)).reverse ++ name :: seen)
        rest → motive seen (name :: rest))
    (seen pending : List String) : motive seen pending := by
  induction seen, pending using depthFirst.induct table with
  | case1 seen => exact nil seen
  | case2 seen name rest h ih => exact stale seen name rest h ih
  | case3 seen name rest h inside ihInside ihRest => exact fresh seen name rest h ihInside ihRest

/-- Whatever is visited is reached from where the visit begins. -/
theorem reaches_of_mem_depthFirst (h : b ∈ depthFirst table seen pending) :
    ∃ a ∈ pending, Reaches table a b := by
  induction seen, pending using depthFirst_induct table with
  | nil seen =>
    rw [depthFirst_nil] at h
    cases h
  | stale seen name rest hseen ih =>
    rw [depthFirst_seen hseen] at h
    obtain ⟨a, ha, hreaches⟩ := ih h
    exact ⟨a, List.mem_cons_of_mem _ ha, hreaches⟩
  | fresh seen name rest hnew ihInside ihRest =>
    rw [depthFirst_new hnew] at h
    rcases List.mem_append.mp h with h | h
    · rcases List.mem_cons.mp h with rfl | h
      · exact ⟨b, List.mem_cons_self, .refl⟩
      · obtain ⟨a, ha, hreaches⟩ := ihInside h
        exact ⟨name, List.mem_cons_self, .head (refers_iff_mem_references.mpr ha) hreaches⟩
    · obtain ⟨a, ha, hreaches⟩ := ihRest h
      exact ⟨a, List.mem_cons_of_mem _ ha, hreaches⟩

/-- A visit leaves nothing out: neither what it begins with nor a reference of what it visits. -/
theorem closed_depthFirst (table : Table) (seen pending : List String) :
    (∀ a ∈ pending, a ∈ seen ∨ a ∈ depthFirst table seen pending) ∧
    ∀ a ∈ depthFirst table seen pending, ∀ b, Refers table a b →
      b ∈ seen ∨ b ∈ depthFirst table seen pending := by
  induction seen, pending using depthFirst_induct table with
  | nil seen =>
    rw [depthFirst_nil]
    exact ⟨nofun, nofun⟩
  | stale seen name rest hseen ih =>
    rw [depthFirst_seen hseen]
    refine ⟨fun a ha => ?_, ih.2⟩
    rcases List.mem_cons.mp ha with rfl | ha
    · exact .inl (List.contains_iff_mem.mp hseen)
    · exact ih.1 a ha
  | fresh seen name rest hnew ihInside ihRest =>
    rw [depthFirst_new hnew]
    simp only [List.mem_append, List.mem_reverse, List.mem_cons] at ihInside ihRest ⊢
    constructor
    · rintro a (rfl | ha)
      · exact .inr (.inl (.inl rfl))
      · have := ihRest.1 a ha
        tauto
    · rintro a ((rfl | ha) | ha) b hab
      -- what `name` refers to is what the visit inside begins with
      · have := ihInside.1 b (refers_iff_mem_references.mp hab)
        tauto
      · have := ihInside.2 a ha b hab
        tauto
      · have := ihRest.2 a ha b hab
        tauto

/-- What is visited from a category on is what the category reaches. -/
theorem mem_depthFirst_singleton : b ∈ depthFirst table [] [a] ↔ Reaches table a b := by
  constructor
  · intro h
    obtain ⟨a', ha', hreaches⟩ := reaches_of_mem_depthFirst h
    rwa [List.mem_singleton.mp ha'] at hreaches
  · intro h
    obtain ⟨hstart, hclosed⟩ := closed_depthFirst table [] [a]
    induction h with
    | refl => exact (hstart a (List.mem_singleton.mpr rfl)).resolve_left List.not_mem_nil
    | tail _ hstep ih => exact (hclosed _ ih _ hstep).resolve_left List.not_mem_nil

/-! ## Expanding -/

/-- With `pending` on top of the stack, expanding visits what the recursion visits, gathers the
names in it and goes on with the rest of the stack, unless it comes to something missing. -/
theorem expandFrom_append (table : Table) (rest seen pending : List String) (found : NameSet) :
    expandFrom table (pending ++ rest) seen found =
      match (depthFirst table seen pending).find? (isMissing table) with
      | some name => .error (.unknownCategory name)
      | none => expandFrom table rest ((depthFirst table seen pending).reverse ++ seen)
          (((depthFirst table seen pending).flatMap (names table)).foldl NameSet.insert found) := by
  induction seen, pending using depthFirst_induct table generalizing rest found with
  | nil seen =>
    rw [depthFirst_nil]
    rfl
  | stale seen name others hseen ih =>
    rw [List.cons_append, expandFrom_seen hseen, depthFirst_seen hseen]
    exact ih rest found
  | fresh seen name others hnew ihInside ihOthers =>
    rw [depthFirst_new hnew, List.cons_append]
    cases hname : table.get? name with
    | none =>
      rw [expandFrom_missing hnew hname, List.cons_append, List.find?_cons_of_pos]
      exact isMissing_iff.mpr hname
    | some members =>
      have hmissing : isMissing table name = false := by
        rw [isMissing, hname]
        rfl
      have hinside : members.filter isCategoryName = references table name := by
        rw [references, hname]
        rfl
      have hnames : (members.filter fun m => !isCategoryName m).map Ascii.lower =
          names table name := by
        rw [names, hname]
        rfl
      rw [expandFrom_found hnew hname, hinside, hnames, ihInside, List.cons_append,
        List.find?_cons_of_neg (by simp [hmissing]), List.find?_append]
      cases (depthFirst table (name :: seen) (references table name)).find? (isMissing table) with
      | some missing => rfl
      | none =>
        -- the stack is now the one that the rest of the visit begins with
        dsimp only
        rw [ihOthers, Option.none_or]
        simp only [List.flatMap_cons, List.flatMap_append, List.foldl_append, List.reverse_cons,
          List.reverse_append, List.append_assoc, List.cons_append, List.nil_append]

/-- A category stands for the names in what it reaches, unless some of that is missing. -/
theorem expand_eq (table : Table) (name : String) : expand table name =
    match (depthFirst table [] [name]).find? (isMissing table) with
    | some missing => .error (.unknownCategory missing)
    | none => .ok (.ofList ((depthFirst table [] [name]).flatMap (names table))) := by
  have h := expandFrom_append table [] [] [name] .empty
  rw [List.append_nil] at h
  rw [expand, h]
  cases (depthFirst table [] [name]).find? (isMissing table) with
  | some missing => rfl
  | none => exact expandFrom_nil

end ContentGrammar.Category
