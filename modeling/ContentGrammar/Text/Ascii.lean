/-!
# Letter case of names

Tag and attribute names are compared without regard to the case of ASCII letters. `lower` is the
form in which such names are stored, and `same` the comparison itself. Letters outside ASCII have
no case here.
-/

namespace ContentGrammar.Ascii

/-- The text `s` with its ASCII capital letters made small. -/
def lower (s : String) : String := String.ofList (s.toList.map Char.toLower)

/-- Whether two names differ at most in the case of ASCII letters. -/
def same (a b : String) : Bool := lower a == lower b

theorem same_iff {a b : String} : same a b = true ↔ lower a = lower b := by
  simp [same]

end ContentGrammar.Ascii
