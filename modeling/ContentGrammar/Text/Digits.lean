/-!
# Rows of digits

A row of digits denotes a number in some base up to sixteen. Letters are digits in either case.
-/

namespace ContentGrammar.Digits

/-- The value of a digit. -/
def value? (c : Char) : Option Nat :=
  if c.isDigit then some (c.toNat - '0'.toNat)
  else if 'a' ≤ c ∧ c ≤ 'f' then some (c.toNat - 'a'.toNat + 10)
  else if 'A' ≤ c ∧ c ≤ 'F' then some (c.toNat - 'A'.toNat + 10)
  else none

/-- The number denoted by the digits `cs` after digits that denote `n`. -/
def numberFrom (base n : Nat) : List Char → Option Nat
  | [] => some n
  | c :: cs =>
    match value? c with
    | some v => if v < base then numberFrom base (base * n + v) cs else none
    | none => none

/-- The number denoted by a row of digits, of which there is at least one. -/
def number? (base : Nat) (cs : List Char) : Option Nat :=
  if cs.isEmpty then none else numberFrom base 0 cs

end ContentGrammar.Digits
