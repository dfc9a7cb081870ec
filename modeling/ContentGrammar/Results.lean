/-!
# Results

The values and the errors among several results, each in the order of the results.
-/

namespace ContentGrammar

variable {ε α : Type}

/-- The values among results. -/
def valuesIn (rs : List (Except ε α)) : List α := rs.filterMap Except.toOption

/-- The errors among results. -/
def errorsIn (rs : List (Except ε α)) : List ε :=
  rs.filterMap fun r => match r with
    | .error e => some e
    | .ok _ => none

end ContentGrammar
