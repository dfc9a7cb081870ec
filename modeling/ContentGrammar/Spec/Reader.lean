import ContentGrammar.Model.Reader
import ContentGrammar.Spec.Declaration

/-!
# Reading written specs and rules

How specs and rules are taken from data. A condition is a record of a single field. What is
written in YAML has words that are settled only inside contents, elsewhere a word is a text; and
it has no positional forms outside of contents.
-/

namespace ContentGrammar

open Datum (Read Layout expected given asText asTexts)

/-- A condition: a record with the name of an attribute or with a selector. -/
def WrittenCondition.ofDatum : Datum → Read WrittenCondition
  | .record [(key, d)] => do
    match ← key.asName with
    | "hasAttr" => .hasAttribute <$> asText d
    | "parent" => .parent <$> asText d
    | _ => expected "a condition"
  | _ => expected "a condition"

/-- The contents in a field. -/
def contentsField (d : Datum) : Read Contents := Contents.ofDatum d.settle

/-- A list in a field that may be missing. -/
def listField {α : Type} (read : Datum → Read α) : Option Datum → Read (List α)
  | none => .ok []
  | some d => do (← d.items).mapM fun v => read v.1

/-- A variant. `positional` tells whether positional forms are read. -/
def WrittenVariant.ofDatum (positional : Bool) (d : Datum) : Read WrittenVariant := do
  let [condition, contents] ←
      d.fields ⟨["condition", "contents"], if positional then some 2 else none⟩
    | expected "a variant"
  return ⟨← given WrittenCondition.ofDatum (condition.map (·.1)),
    ← given contentsField (contents.map (·.1))⟩

/-- A declaration. -/
def Declaration.ofDatum (positional : Bool) (d : Datum) : Read Declaration := do
  let [tag, contents, variants] ←
      d.fields ⟨["tag", "contents", "conditional"], if positional then some 2 else none⟩
    | expected "a declaration"
  return ⟨← given asText (tag.map (·.1)), ← given contentsField (contents.map (·.1)),
    ← listField (WrittenVariant.ofDatum positional) (variants.map (·.1))⟩

/-- A table of categories, of which the last of a name counts. -/
def Category.tableOfDatum (d : Datum) : Read Category.Table := do
  let es ← (← d.entries).mapM fun e => return (e.1, ← asTexts e.2.1)
  return .ofList es

/-- A spec. -/
def WrittenSpec.ofDatum (positional : Bool) (d : Datum) : Read WrittenSpec := do
  let [categories, declarations] ←
      d.fields ⟨["categories", "specs"], if positional then some 0 else none⟩
    | expected "a spec"
  let table ← match categories with
    | none => .ok .empty
    | some c => Category.tableOfDatum c.1
  return ⟨table, ← listField (Declaration.ofDatum positional) (declarations.map (·.1))⟩

/-- A rule. -/
def WrittenRule.ofDatum (positional : Bool) (d : Datum) : Read WrittenRule := do
  let [tag, contents] ← d.fields ⟨["tag", "contents"], if positional then some 2 else none⟩
    | expected "a rule"
  return ⟨← given asText (tag.map (·.1)), ← given contentsField (contents.map (·.1))⟩

/-- A list of rules. -/
def WrittenRule.listOfDatum (positional : Bool) (d : Datum) : Read (List WrittenRule) := do
  let [rules] ← d.fields ⟨["rules"], if positional then some 0 else none⟩
    | expected "a list of rules"
  listField (WrittenRule.ofDatum positional) (rules.map (·.1))

end ContentGrammar
