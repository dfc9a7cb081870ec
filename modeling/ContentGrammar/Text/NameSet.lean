/-!
# Sets of names

A set of names is kept as its members in code point order, each once, which is the order in which
members are listed wherever a set is shown. `mem_insert` and `mem_ofList` say what the operations
mean for membership.
-/

namespace ContentGrammar

/-- A finite set of names, listed in code point order. -/
structure NameSet where
  toList : List String
  sorted : toList.Pairwise (· < ·)

namespace NameSet

/-- Puts `name` into its place in an ordered list. -/
def insertInto (name : String) : List String → List String
  | [] => [name]
  | x :: xs =>
    if name < x then name :: x :: xs
    else if name = x then x :: xs
    else x :: insertInto name xs

theorem mem_insertInto {name x : String} {xs : List String} :
    x ∈ insertInto name xs ↔ x = name ∨ x ∈ xs := by
  induction xs with
  | nil => simp [insertInto]
  | cons y ys ih =>
    unfold insertInto
    split
    · simp
    · split <;> grind

theorem sorted_insertInto {name : String} {xs : List String} (h : xs.Pairwise (· < ·)) :
    (insertInto name xs).Pairwise (· < ·) := by
  induction xs with
  | nil => simp [insertInto]
  | cons y ys ih =>
    have ⟨hy, hys⟩ := List.pairwise_cons.mp h
    unfold insertInto
    split
    case isTrue hlt =>
      refine List.pairwise_cons.mpr ⟨fun z hz => ?_, h⟩
      rcases List.mem_cons.mp hz with rfl | hz
      · exact hlt
      · exact String.lt_trans hlt (hy z hz)
    case isFalse hle =>
      split
      · exact h
      case isFalse hne =>
        refine List.pairwise_cons.mpr ⟨fun z hz => ?_, ih hys⟩
        rcases mem_insertInto.mp hz with rfl | hz
        · rcases String.le_total z y with hzy | hyz
          · exact absurd (String.le_antisymm hzy (String.not_lt.mp hle)) hne
          · exact String.not_le.mp fun hzy => hne (String.le_antisymm hzy hyz)
        · exact hy z hz

theorem sorted_nil : ([] : List String).Pairwise (· < ·) := List.Pairwise.nil

/-- The set without members. -/
def empty : NameSet := ⟨[], sorted_nil⟩

/-- The set with `name` added. -/
def insert (s : NameSet) (name : String) : NameSet :=
  ⟨insertInto name s.toList, sorted_insertInto s.sorted⟩

/-- The set of the names in a list. -/
def ofList (names : List String) : NameSet := names.foldl insert empty

/-- The set with a single member. -/
def singleton (name : String) : NameSet := empty.insert name

/-- Whether `name` is a member. -/
def contains (s : NameSet) (name : String) : Bool := s.toList.contains name

/-- Whether there are no members. -/
def isEmpty (s : NameSet) : Bool := s.toList.isEmpty

/-- The members that satisfy `p`. -/
def filter (s : NameSet) (p : String → Bool) : NameSet :=
  ⟨s.toList.filter p, s.sorted.filter p⟩

instance : Membership String NameSet := ⟨fun s name => name ∈ s.toList⟩

theorem mem_iff {s : NameSet} {name : String} : name ∈ s ↔ name ∈ s.toList := Iff.rfl

@[simp] theorem contains_iff {s : NameSet} {name : String} :
    s.contains name = true ↔ name ∈ s := by
  simp [contains, mem_iff]

@[simp] theorem not_mem_empty {name : String} : ¬ name ∈ empty := by
  simp [mem_iff, empty]

@[simp] theorem mem_insert {s : NameSet} {name x : String} :
    x ∈ s.insert name ↔ x = name ∨ x ∈ s := mem_insertInto

theorem mem_foldl_insert {names : List String} {s : NameSet} {x : String} :
    x ∈ names.foldl insert s ↔ x ∈ names ∨ x ∈ s := by
  induction names generalizing s with
  | nil => simp
  | cons n ns ih => rw [List.foldl_cons, ih]; simp only [mem_insert, List.mem_cons]; grind

@[simp] theorem mem_ofList {names : List String} {x : String} : x ∈ ofList names ↔ x ∈ names := by
  simp [ofList, mem_foldl_insert]

@[simp] theorem mem_filter {s : NameSet} {p : String → Bool} {x : String} :
    x ∈ s.filter p ↔ x ∈ s ∧ p x = true := by
  simp [mem_iff, filter]

end NameSet

end ContentGrammar
