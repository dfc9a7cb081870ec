import ContentGrammar.Category
import ContentGrammar.Document.Basic

/-!
# Specs

A spec gives the content models of tags and the sets of names that categories stand for. The model
of a tag may be replaced on some elements: the first variant whose condition holds for an element
takes the place of the default. Besides the spec, rules put further models on the elements of a
tag. `Spec.new` checks that every category which is named is known.
-/

namespace ContentGrammar

/-- When a variant applies to an element. -/
inductive Condition
  | hasAttribute (name : String)
  /-- The parent is an element that matches. -/
  | parent (s : Selector)

/-- Whether a condition holds for a node, given what is around it. -/
def Condition.holds (c : Condition) (h : Head) (above : List Head) : Bool :=
  match c with
  | .hasAttribute name => h.hasAttribute name
  | .parent s =>
    match above with
    | [] => false
    | e :: around => s.selectsElement e around

/-- A model for the elements for which a condition holds. -/
structure Variant where
  condition : Condition
  model : Model

/-- The models of a tag. -/
structure TagSpec where
  default : Model
  /-- In order of precedence. -/
  variants : List Variant

namespace TagSpec

/-- All models of a tag. -/
def models (t : TagSpec) : List Model := t.default :: t.variants.map (·.model)

/-- The number of the variant that applies to a node, if one does. -/
def activeVariant? (t : TagSpec) (h : Head) (above : List Head) : Option Nat :=
  t.variants.findIdx? (·.condition.holds h above)

/-- The model that applies to a node. -/
def activeModel (t : TagSpec) (h : Head) (above : List Head) : Model :=
  match t.variants.find? (·.condition.holds h above) with
  | some v => v.model
  | none => t.default

end TagSpec

/-- The content models of tags, by name in small letters, and the sets of categories. -/
structure Spec where
  tags : Dictionary TagSpec
  categories : Category.Sets

/-- An additional model for all elements of a tag. -/
structure Rule where
  tag : String
  model : Model

/-- Whether a rule is about elements of that name. -/
def Rule.appliesTo (r : Rule) (name : String) : Bool := Ascii.same r.tag name

namespace Spec

/-- The spec that says nothing. -/
def empty : Spec := ⟨.empty, .empty⟩

/-- Checks that all categories named by a model are known, and reports the first in code point
order that is not. -/
def checkModel (sets : Category.Sets) (m : Model) : Except ModelError Unit :=
  m.categories.toList.forM fun name => do
    let _ ← sets.members name

/-- Checks all models of tags, in the order of the tags. -/
def checkTags (sets : Category.Sets) (tags : List TagSpec) : Except ModelError Unit :=
  tags.forM fun t => t.models.forM (checkModel sets)

/-- The spec of the given tags and categories. Of tags whose names differ in the case of letters
only, the last one in code point order is kept. -/
def new (tags : Dictionary TagSpec) (table : Category.Table) : Except ModelError Spec := do
  let sets ← Category.resolveTable table
  let tags := Dictionary.ofList (tags.entries.map fun t => (Ascii.lower t.1, t.2))
  checkTags sets tags.values
  return ⟨tags, sets⟩

/-- The models of a tag, whose name is given in small letters. -/
def tag? (s : Spec) (name : String) : Option TagSpec := s.tags.get? name

/-- The model that applies to a node: anything is permitted where the spec says nothing. -/
def modelOf (s : Spec) (h : Head) (above : List Head) : Model :=
  match s.tag? h.name with
  | some t => t.activeModel h above
  | none => .any

/-- Checks that the categories named by rules are known. -/
def checkRules (s : Spec) (rules : List Rule) : Except ModelError Unit :=
  rules.forM fun r => checkModel s.categories r.model

end Spec

end ContentGrammar
