import ContentGrammar.Model.Author
import ContentGrammar.Spec.Basic

/-!
# Specs and rules as they are written

A written spec is a table of categories and a row of declarations, each of a tag with its contents
and with variants under conditions. A later declaration of a tag replaces an earlier one.
-/

namespace ContentGrammar

/-- A condition as it is written. -/
inductive WrittenCondition
  | hasAttribute (name : String)
  | parent (selector : String)

/-- A variant as it is written. -/
structure WrittenVariant where
  condition : WrittenCondition
  contents : Contents

/-- The declaration of a tag. -/
structure Declaration where
  tag : String
  contents : Contents
  variants : List WrittenVariant

/-- A spec as it is written. -/
structure WrittenSpec where
  categories : Category.Table
  declarations : List Declaration

/-- A rule as it is written. -/
structure WrittenRule where
  tag : String
  contents : Contents

/-- The condition that is meant. -/
def WrittenCondition.condition : WrittenCondition → Except ModelError Condition
  | .hasAttribute name => .ok (.hasAttribute (Ascii.lower name))
  | .parent selector =>
    match Selector.parse selector with
    | .ok s => .ok (.parent s)
    | .error e => .error (.selector e)

/-- The variant that is meant. -/
def WrittenVariant.variant (v : WrittenVariant) : Except ModelError Variant := do
  let condition ← v.condition.condition
  return ⟨condition, ← v.contents.model⟩

/-- The models that are declared. -/
def Declaration.tagSpec (d : Declaration) : Except ModelError TagSpec := do
  let default ← d.contents.model
  return ⟨default, ← d.variants.mapM WrittenVariant.variant⟩

/-- The spec that is meant. -/
def WrittenSpec.spec (w : WrittenSpec) : Except ModelError Spec := do
  let tags ← w.declarations.mapM fun d => return (d.tag, ← d.tagSpec)
  Spec.new (.ofList tags) w.categories

/-- The rule that is meant. -/
def WrittenRule.rule (w : WrittenRule) : Except ModelError Rule := do
  return ⟨w.tag, ← w.contents.model⟩

end ContentGrammar
