/-!
# Dictionaries

A dictionary maps names to values and lists its entries in code point order of the names, one entry
a name. Putting a value under a name that is there already replaces the old value, so in
`ofList` the last entry of a name wins. `get?_insert` is the law that the rest follows from.
-/

namespace ContentGrammar

/-- A map from names to values, listed in code point order of the names. -/
structure Dictionary (α : Type) where
  entries : List (String × α)
  sorted : (entries.map (·.1)).Pairwise (· < ·)

namespace Dictionary

variable {α β : Type}

/-- Puts a value under `name` into an ordered list of entries. -/
def insertInto (name : String) (value : α) : List (String × α) → List (String × α)
  | [] => [(name, value)]
  | e :: es =>
    if name < e.1 then (name, value) :: e :: es
    else if name = e.1 then (name, value) :: es
    else e :: insertInto name value es

theorem mem_keys_insertInto {name x : String} {value : α} {es : List (String × α)} :
    x ∈ (insertInto name value es).map (·.1) ↔ x = name ∨ x ∈ es.map (·.1) := by
  induction es with
  | nil => simp [insertInto]
  | cons e es ih =>
    unfold insertInto
    split
    · simp
    · split <;> grind

theorem sorted_insertInto {name : String} {value : α} {es : List (String × α)}
    (h : (es.map (·.1)).Pairwise (· < ·)) :
    ((insertInto name value es).map (·.1)).Pairwise (· < ·) := by
  induction es with
  | nil => simp [insertInto]
  | cons e es ih =>
    rw [List.map_cons] at h
    have ⟨he, hes⟩ := List.pairwise_cons.mp h
    unfold insertInto
    split
    case isTrue hlt =>
      rw [List.map_cons]
      refine List.pairwise_cons.mpr ⟨fun z hz => ?_, h⟩
      rcases List.mem_cons.mp hz with rfl | hz
      · exact hlt
      · exact String.lt_trans hlt (he z hz)
    case isFalse hle =>
      split
      case isTrue heq =>
        rw [List.map_cons]
        exact heq ▸ h
      case isFalse hne =>
        rw [List.map_cons]
        refine List.pairwise_cons.mpr ⟨fun z hz => ?_, ih hes⟩
        rcases mem_keys_insertInto.mp hz with rfl | hz
        · rcases String.le_total z e.1 with hze | hez
          · exact absurd (String.le_antisymm hze (String.not_lt.mp hle)) hne
          · exact String.not_le.mp fun hze => hne (String.le_antisymm hze hez)
        · exact he z hz

/-- The dictionary without entries. -/
def empty : Dictionary α := ⟨[], List.Pairwise.nil⟩

/-- The dictionary with `value` under `name`. -/
def insert (d : Dictionary α) (name : String) (value : α) : Dictionary α :=
  ⟨insertInto name value d.entries, sorted_insertInto d.sorted⟩

/-- The dictionary of a list of entries, the last of a name winning. -/
def ofList (es : List (String × α)) : Dictionary α :=
  es.foldl (fun d e => d.insert e.1 e.2) empty

/-- The value of the first entry of `name`. -/
def find (name : String) : List (String × α) → Option α
  | [] => none
  | e :: es => if name = e.1 then some e.2 else find name es

/-- The value under `name`. -/
def get? (d : Dictionary α) (name : String) : Option α := find name d.entries

/-- The names in code point order. -/
def keys (d : Dictionary α) : List String := d.entries.map (·.1)

/-- The values in the order of their names. -/
def values (d : Dictionary α) : List α := d.entries.map (·.2)

instance : Inhabited (Dictionary α) := ⟨empty⟩

@[simp] theorem get?_empty {name : String} : (empty : Dictionary α).get? name = none := rfl

theorem find_insertInto {name x : String} {value : α} {es : List (String × α)} :
    find x (insertInto name value es) = if x = name then some value else find x es := by
  induction es with
  | nil => rfl
  | cons e es ih =>
    unfold insertInto
    split
    · rfl
    · split
      · simp only [find]
        grind
      · simp only [find, ih]
        grind

@[simp] theorem get?_insert {d : Dictionary α} {name x : String} {value : α} :
    (d.insert name value).get? x = if x = name then some value else d.get? x :=
  find_insertInto

theorem mem_of_find {name : String} {value : α} {es : List (String × α)}
    (h : find name es = some value) : (name, value) ∈ es := by
  induction es with
  | nil => simp [find] at h
  | cons e es ih =>
    unfold find at h
    split at h
    case isTrue heq =>
      obtain rfl := Option.some.inj h
      exact heq ▸ List.mem_cons_self
    · exact List.mem_cons_of_mem _ (ih h)

theorem mem_keys_of_get? {d : Dictionary α} {name : String} {value : α}
    (h : d.get? name = some value) : name ∈ d.keys :=
  List.mem_map.mpr ⟨(name, value), mem_of_find h, rfl⟩

end Dictionary

end ContentGrammar
