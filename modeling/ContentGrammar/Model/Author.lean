import ContentGrammar.Model.Basic

/-!
# Content models as they are written

Authors write a content model as `true` for anything, `false` for nothing, or a list of items. An
item requires names, allows them, repeats names or further items, or offers a choice between lists
of items; all but a choice may `ignore` targets, which excludes these from what the item permits.
`Contents.model` gives the model that is meant, or the first error in it.
-/

namespace ContentGrammar

/-- One name or several to choose from. -/
inductive Names
  | one (name : String)
  | many (names : List String)

/-- Whether a repetition needs an occurrence. -/
inductive Quantity
  | zeroOrMore
  | oneOrMore
  deriving DecidableEq

/-- The least number of occurrences. -/
def Quantity.least : Quantity → Nat
  | .zeroOrMore => 0
  | .oneOrMore => 1

/-- An item of a written content model. -/
inductive Item
  | require (what : Names) (min max : Option Nat) (ignore : Option Names)
  | optional (what : Names) (ignore : Option Names)
  | repeatNames (quantity : Quantity) (what : Names) (max : Option Nat) (ignore : Option Names)
  | repeatItems (quantity : Quantity) (what : List Item) (max : Option Nat)
      (ignore : Option Names)
  | choice (alternatives : List (List Item))

/-- A content model as it is written. -/
inductive Contents
  | flag (anything : Bool)
  | items (items : List Item)

/-- The names as a list. -/
def Names.toList : Names → List String
  | .one name => [name]
  | .many names => names

/-- The model that a name stands for, blank characters around it not counting. -/
def Model.ofName (raw : String) : Model :=
  let name := trimmed raw
  if name = textName then .text
  else if name = transparentName then .transparent
  else if isCategoryName name then .category name
  else .tag (Ascii.lower name)

/-- The model that names stand for: a single name, or a choice between several. -/
def Names.model (names : Names) : Except ModelError Model :=
  match names.toList with
  | [] => .error .emptyChoice
  | [name] => .ok (.ofName name)
  | names => .ok (.choice (names.map .ofName))

/-- A model without the targets to ignore, if any are given. -/
def Model.ignoring (m : Model) : Option Names → Except ModelError Model
  | none => .ok m
  | some names => do m.exclusion (← names.toList.mapM Target.ofText)

/-- Models in sequence; one alone stands for itself. -/
def Model.ofSequence : List Model → Model
  | [m] => m
  | ms => .sequence ms

mutual

/-- The model of an item. -/
def Item.model : Item → Except ModelError Model
  | .require what min max ignore => do
    let least := min.getD 1
    let most := max.getD least
    let m ← what.model
    let m ← if least = 1 ∧ most = 1 then .ok m else m.repetition least (some most)
    m.ignoring ignore
  | .optional what ignore => do
    let m ← what.model
    Model.ignoring (.optional m) ignore
  | .repeatNames quantity what max ignore => do
    let m ← what.model
    let m ← m.repetition quantity.least max
    m.ignoring ignore
  | .repeatItems quantity what max ignore => do
    let ms ← itemModels what
    let m ← (Model.ofSequence ms).repetition quantity.least max
    m.ignoring ignore
  | .choice alternatives =>
    if alternatives.isEmpty then .error .emptyChoice
    else do return .choice (← alternativeModels alternatives)

/-- The models of items, up to the first error. -/
def itemModels : List Item → Except ModelError (List Model)
  | [] => .ok []
  | i :: is => do
    let m ← i.model
    return m :: (← itemModels is)

/-- The models of lists of items, each list in sequence. -/
def alternativeModels : List (List Item) → Except ModelError (List Model)
  | [] => .ok []
  | is :: rest => do
    let ms ← itemModels is
    return Model.ofSequence ms :: (← alternativeModels rest)

end

/-- The model that is written. -/
def Contents.model : Contents → Except ModelError Model
  | .flag true => .ok .any
  | .flag false => .ok (.sequence [])
  | .items is => do return Model.ofSequence (← itemModels is)

end ContentGrammar
