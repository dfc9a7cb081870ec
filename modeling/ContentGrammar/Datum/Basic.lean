import ContentGrammar.Text.Digits

/-!
# Structured data

Specs, rules and documents are written as structured data, in JSON or in YAML. `Datum` is what
both notations denote: scalars, lists, and records with their fields in written order. The key of a
field is a datum as well, a text in JSON and nearly always in YAML. A number keeps its written form,
since only some spellings of a number are accepted. A `word` is an unquoted YAML scalar, of which
it is still open whether it is a text.
-/

namespace ContentGrammar

/-- A piece of structured data. -/
inductive Datum
  | null
  | bool (value : Bool)
  | number (written : String)
  | text (content : String)
  | word (written : String)
  | list (items : List Datum)
  | record (fields : List (Datum × Datum))
  deriving Inhabited

/-- Why a text was not read. -/
inductive ReadError
  /-- The text leaves the notation after some number of characters. -/
  | malformed (offset : Nat) (problem : String)
  /-- The data is well formed but not of the shape asked for. -/
  | mismatch (expected : String)

/-- The wording of a read error. -/
def ReadError.message : ReadError → String
  | .malformed offset problem => problem ++ " at offset " ++ toString offset
  | .mismatch expected => "invalid data, expected " ++ expected

namespace Datum

/-- The datum of a natural number. -/
def nat (n : Nat) : Datum := .number (toString n)

/-- The datum of a value that may be absent. -/
def ofOption {α : Type} (f : α → Datum) : Option α → Datum
  | none => .null
  | some a => f a

/-- The record of named fields. -/
def ofFields (fields : List (String × Datum)) : Datum :=
  .record (fields.map fun f => (.text f.1, f.2))

/-- One more than the largest number that a count may be written as, which fits 64 bits. -/
def countLimit : Nat := 18446744073709551616

/-- The number written by a row of decimal digits, if it is a possible count. -/
def countOfDigits (cs : List Char) : Option Nat :=
  (Digits.number? 10 cs).filter (· < countLimit)

end Datum

end ContentGrammar
