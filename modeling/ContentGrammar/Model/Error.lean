import ContentGrammar.Selector.Parser

/-!
# Errors of content models

What can be wrong with a content model, either as it is written or where it is used. All but
`missingInheritance` and `emptyForbiddenSet` show when a spec is loaded.
-/

namespace ContentGrammar

/-- Why a content model cannot be used. -/
inductive ModelError
  | unknownCategory (name : String)
  /-- A transparent model stands where nothing is around it to take the content from. -/
  | missingInheritance
  | emptyForbiddenSet
  | invalidRepetition (min max : Nat)
  | emptyChoice
  | selector (cause : Selector.ParseError)
  deriving DecidableEq

/-- The wording of an error. -/
def ModelError.message : ModelError → String
  | .unknownCategory name => "Unknown content category '" ++ name ++ "'"
  | .missingInheritance => "Transparent content model has no ancestor to inherit from"
  | .emptyForbiddenSet => "Forbidden-descendant constraint must name at least one target"
  | .invalidRepetition min max =>
    "Invalid repetition bounds: min " ++ toString min ++ " exceeds max " ++ toString max
  | .emptyChoice => "Choice must offer at least one alternative"
  | .selector cause => cause.message

end ContentGrammar
