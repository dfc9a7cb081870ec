import ContentGrammar.Datum.Word

/-!
# Shapes of data

How typed values are taken from a `Datum`. A structure is written as a record of its fields or,
positionally, as the list of their values. In a record the key of a field is its name, or a number,
which counts the fields from zero. `Datum.fields` finds the fields of a structure by either form,
`Datum.items` the items of a list, and both say of each part they return that it is smaller than the
whole, which is what a reader of nested data recurses on.
-/

namespace ContentGrammar

namespace Datum

/-- A datum inside `d`. -/
abbrev Part (d : Datum) := { v : Datum // sizeOf v < sizeOf d }

/-- What is read from data, or why nothing is. -/
abbrev Read := Except ReadError

/-- The refusal of data that is not what was expected. -/
def expected {α : Type} (what : String) : Read α := .error (.mismatch what)

/-- The items of a list. A word for no value is the empty list. -/
def items : (d : Datum) → Read (List (Part d))
  | .list ds => .ok (ds.attach.map fun v => ⟨v.1, by
      have := List.sizeOf_lt_of_mem v.2
      simp only [list.sizeOf_spec]
      omega⟩)
  | .word s => if isNullWord s then .ok [] else expected "a list"
  | _ => expected "a list"

/-- The fields of a record, in written order. A word for no value is the empty record. -/
def keyed : (d : Datum) → Read (List (Datum × Part d))
  | .record fs => .ok (fs.attach.map fun f => (f.1.1, ⟨f.1.2, by
      have := List.sizeOf_lt_of_mem f.2
      have : sizeOf f.1 = 1 + sizeOf f.1.1 + sizeOf f.1.2 := by
        rcases f.1 with ⟨a, b⟩
        simp only [Prod.mk.sizeOf_spec]
      simp only [record.sizeOf_spec]
      omega⟩))
  | .word s => if isNullWord s then .ok [] else expected "a record"
  | _ => expected "a record"

/-- The name that a key is. A word is a name as it is written. -/
def asName : Datum → Read String
  | .text s | .word s => .ok s
  | _ => expected "a name"

/-- The fields of a record whose keys are names, in written order. -/
def entries (d : Datum) : Read (List (String × Part d)) := do
  (← d.keyed).mapM fun f => return (← f.1.asName, f.2)

/-- How a structure may be written. -/
structure Layout where
  /-- Its fields in order of declaration. -/
  names : List String
  /-- How many of them a positional form has at least; `none` if there is no such form. -/
  positional : Option Nat

/-- Which of the fields with the given names a key stands for. -/
def fieldOf (names : List String) : Datum → Option Nat
  | .text s | .word s => names.findIdx? (· == s)
  | .number s => (countOfDigits s.toList).filter (· < names.length)
  | _ => none

/-- The fields of a structure of the given layout, in its order, absent ones as `none`. -/
def fields (layout : Layout) (d : Datum) : Read (List (Option (Part d))) :=
  match layout.positional, d with
  | some least, .list ds => do
    let parts ← items (.list ds)
    if parts.length < least then expected "more fields"
    else if layout.names.length < parts.length then expected "fewer fields"
    else .ok (parts.map some ++ List.replicate (layout.names.length - parts.length) none)
  | _, d => do
    let es ← (← d.keyed).mapM fun f =>
      match fieldOf layout.names f.1 with
      | some i => .ok (i, f.2)
      | none => expected "known fields only"
    if (es.map (·.1)).eraseDups.length < es.length then expected "each field once"
    else .ok ((List.range layout.names.length).map fun i => (es.find? (·.1 == i)).map (·.2))

/-- A text. A word is one unless it stands for no value. -/
def asText : Datum → Read String
  | .text s => .ok s
  | .word s => if isNullWord s then expected "a text" else .ok s
  | _ => expected "a text"

/-- A count: a whole number in decimal digits that fits 64 bits. Zero may have a minus. -/
def asCount : Datum → Read Nat
  | .number "-0" => .ok 0
  | .number s =>
    match countOfDigits s.toList with
    | some n => .ok n
    | none => expected "a count"
  | _ => expected "a count"

/-- A field that may be absent, `null` counting as absent. -/
def ifGiven {α : Type} (read : Datum → Read α) : Option Datum → Read (Option α)
  | none => .ok none
  | some .null => .ok none
  | some d => some <$> read d

/-- A field that has to be there. -/
def given {α : Type} (read : Datum → Read α) : Option Datum → Read α
  | none => expected "a field that is missing"
  | some d => read d

/-- A list of texts. -/
def asTexts (d : Datum) : Read (List String) := do
  (← d.items).mapM fun v => v.1.asText

end Datum

end ContentGrammar
