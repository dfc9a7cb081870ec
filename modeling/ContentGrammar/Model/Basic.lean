import ContentGrammar.Model.Error
import ContentGrammar.Text.NameSet

/-!
# Content models

A content model says which sequences of children an element may have: a grammar over tag names,
the name `#text` for text, and `#category` names for sets of both. A transparent model takes over
the model of the parent element, and an exclusion narrows a model by what its children must not
be or contain. `Target.ofText` reads one target of an exclusion.
-/

namespace ContentGrammar

/-- The name of text in models and among the members of categories. -/
def textName : String := "#text"

/-- The name of the transparent model where models are written. -/
def transparentName : String := "#transparent"

/-- Whether `name` is the name of a category: `#` and then letters, digits and hyphens, apart from
the two reserved names. -/
def isCategoryName (name : String) : Bool :=
  match name.toList with
  | '#' :: rest =>
    !rest.isEmpty && rest.all (fun c => c.isAlphanum || c == '-')
      && name != textName && name != transparentName
  | _ => false

/-- What an exclusion forbids. -/
inductive Target
  | text
  /-- The members of a category. -/
  | category (name : String)
  | selector (s : Selector)

/-- The target that a text names, blank characters around it not counting. -/
def Target.ofText (raw : String) : Except ModelError Target :=
  let name := trimmed raw
  if name = textName then .ok .text
  else if isCategoryName name then .ok (.category name)
  else match Selector.parse name with
    | .ok s => .ok (.selector s)
    | .error e => .error (.selector e)

/-- A grammar of permitted children. -/
inductive Model
  /-- Anything at all. -/
  | any
  | tag (name : String)
  | category (name : String)
  | text
  /-- One after the other; without items, no children. -/
  | sequence (items : List Model)
  | choice (alternatives : List Model)
  | optional (item : Model)
  | repeated (item : Model) (min : Nat) (max : Option Nat)
  /-- What the parent element takes. -/
  | transparent
  /-- What `scope` permits, as long as nothing in it is, or contains, one of the targets. -/
  | excluding (scope : Model) (targets : List Target)

namespace Model

/-- A repetition whose bounds are in order. -/
def repetition (item : Model) (min : Nat) (max : Option Nat) : Except ModelError Model :=
  match max with
  | some m => if m < min then .error (.invalidRepetition min m) else .ok (.repeated item min max)
  | none => .ok (.repeated item min max)

/-- An exclusion that has a target. -/
def exclusion (scope : Model) (targets : List Target) : Except ModelError Model :=
  if targets.isEmpty then .error .emptyForbiddenSet else .ok (.excluding scope targets)

mutual

/-- Whether the model depends on that of the parent element. -/
def inherits : Model → Bool
  | .transparent => true
  | .sequence ms | .choice ms => anyInherits ms
  | .optional m | .repeated m _ _ | .excluding m _ => m.inherits
  | .any | .tag _ | .category _ | .text => false

/-- Whether one of several models depends on that of the parent element. -/
def anyInherits : List Model → Bool
  | [] => false
  | m :: ms => m.inherits || anyInherits ms

end

/-- The categories among targets. -/
def targetCategories (ts : List Target) : List String :=
  ts.filterMap fun t => match t with
    | .category name => some name
    | _ => none

mutual

/-- The categories that a model names, as content or as targets, in written order. -/
def categoryNames : Model → List String
  | .category name => [name]
  | .sequence ms | .choice ms => categoryNamesAll ms
  | .optional m | .repeated m _ _ => m.categoryNames
  | .excluding m ts => m.categoryNames ++ targetCategories ts
  | .any | .tag _ | .text | .transparent => []

/-- The categories that several models name. -/
def categoryNamesAll : List Model → List String
  | [] => []
  | m :: ms => m.categoryNames ++ categoryNamesAll ms

end

/-- The set of categories that a model names. -/
def categories (m : Model) : NameSet := .ofList m.categoryNames

mutual

/-- The names at the leaves of a model, in written order. -/
def leaves : Model → List String
  | .any => ["*"]
  | .tag name | .category name => [name]
  | .text => [textName]
  | .transparent => [transparentName]
  | .sequence ms | .choice ms => leavesAll ms
  | .optional m | .repeated m _ _ | .excluding m _ => m.leaves

/-- The names at the leaves of several models. -/
def leavesAll : List Model → List String
  | [] => []
  | m :: ms => m.leaves ++ leavesAll ms

end

/-- The names at the leaves of a model, each where it first occurs. -/
def leafNames (m : Model) : List String := m.leaves.eraseDups

end Model

end ContentGrammar
