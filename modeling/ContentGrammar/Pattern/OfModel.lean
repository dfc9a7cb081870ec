import ContentGrammar.Category
import ContentGrammar.Pattern.Basic

/-!
# Patterns of content models

`Model.compile` gives the pattern of a content model: names become tokens, categories classes of
tokens, and a transparent model the pattern of the parent element as a labeled region. An exclusion
becomes a region with a mark of its own. Marks are given out from the first one that the pattern
of the parent leaves free, so no two exclusions of a pattern share one unless they come from the
same place in an inherited pattern.
-/

namespace ContentGrammar

open Category (Sets)

/-- What is forbidden by a target. -/
def Forbidden.ofTarget (sets : Sets) : Target → Except ModelError (List Forbidden)
  | .text => .ok [.text]
  | .category name => do
    let members ← sets.members name
    return members.toList.map fun m => if m = textName then .text else .tag m
  | .selector s => .ok [.selector s]

/-- What is forbidden by targets. Empty categories alone forbid nothing, which is an error. -/
def Forbidden.ofTargets (sets : Sets) (targets : List Target) :
    Except ModelError (List Forbidden) := do
  let forbidden := (← targets.mapM (ofTarget sets)).flatten
  if forbidden.isEmpty then .error .emptyForbiddenSet else .ok forbidden

namespace Model

mutual

/-- The pattern of a model with marks given out from `next` on, and the next free mark. -/
def compileFrom (sets : Sets) (parent : Option Pattern) (next : Nat) :
    Model → Except ModelError (Pattern × Nat)
  | .any => .ok (.any, next)
  | .tag name => .ok (.token (.oneOf (.singleton (Ascii.lower name))), next)
  | .text => .ok (.token (.oneOf (.singleton textName)), next)
  | .category name => do
    let members ← sets.members name
    return (.token (.oneOf members), next)
  | .sequence ms => do
    let (ps, next) ← compileAllFrom sets parent next ms
    return (.sequence ps, next)
  | .choice ms =>
    if ms.isEmpty then .error .emptyChoice
    else do
      let (ps, next) ← compileAllFrom sets parent next ms
      return (.choice ps, next)
  | .optional m => do
    let (p, next) ← compileFrom sets parent next m
    return (.repeated p 0 (some 1), next)
  | .repeated m min max => do
    let (p, next) ← compileFrom sets parent next m
    return (.repeated p min max, next)
  | .transparent =>
    match parent with
    | some p => .ok (.labeled .transparent p, next)
    | none => .error .missingInheritance
  | .excluding scope targets => do
    let forbidden ← Forbidden.ofTargets sets targets
    let (p, after) ← compileFrom sets parent (next + 1) scope
    return (.labeled (.exclusion next ⟨scope.leafNames, forbidden, scope.inherits⟩) p, after)

/-- The patterns of several models, marks going on from one to the next. -/
def compileAllFrom (sets : Sets) (parent : Option Pattern) (next : Nat) :
    List Model → Except ModelError (List Pattern × Nat)
  | [] => .ok ([], next)
  | m :: ms => do
    let (p, next) ← compileFrom sets parent next m
    let (ps, next) ← compileAllFrom sets parent next ms
    return (p :: ps, next)

end

/-- The pattern of a model whose parent element has the pattern `parent`. -/
def compile (sets : Sets) (parent : Option Pattern) (m : Model) : Except ModelError Pattern := do
  return (← m.compileFrom sets parent ((parent.map Pattern.freshMark).getD 0)).1

end Model

end ContentGrammar
