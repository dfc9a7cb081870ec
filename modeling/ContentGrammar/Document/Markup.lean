import ContentGrammar.Datum.Shape
import ContentGrammar.Text.Dictionary

/-!
# Markup as it is written

A document is written as a tree of texts and elements. A text is a text; an element is a structure
with a name and optionally attributes, children and the line and column of its start tag. A whole
document is a list of nodes or a single node, and what is a list of nodes is read as one.
-/

namespace ContentGrammar

/-- Where a start tag stands in its source. -/
structure Position where
  line : Nat
  column : Nat
  deriving DecidableEq

/-- A node as it is written. -/
inductive Markup
  | text (content : String)
  | element (name : String) (attributes : Dictionary String) (children : List Markup)
      (position : Option Position)

namespace Markup

open Datum (Read expected given ifGiven asText asCount)

/-- How an element is laid out. -/
def layout : Datum.Layout := ⟨["name", "attrs", "children", "line", "col"], some 1⟩

/-- The attributes of an element. A name written twice has the value written last. -/
def attributesOfDatum : Option Datum → Read (Dictionary String)
  | none => .ok .empty
  | some d => do
    let es ← (← d.entries).mapM fun e => return (e.1, ← e.2.1.asText)
    return .ofList es

/-- A column says something only together with a line, and is 1 if only the line is given. -/
def positionOf (line column : Option Nat) : Option Position :=
  line.map fun l => ⟨l, column.getD 1⟩

/-- The node that `d` denotes. -/
def ofDatum (d : Datum) : Read Markup :=
  match d with
  | .text s => .ok (.text s)
  | d => do
    let [name, attributes, children, line, column] ← d.fields layout
      | expected "an element"
    let name ← given asText (name.map (·.1))
    let attributes ← attributesOfDatum (attributes.map (·.1))
    let children ← match children with
      | none => .ok []
      | some c => do (← c.1.items).mapM fun v => ofDatum v.1
    let line ← ifGiven asCount (line.map (·.1))
    let column ← ifGiven asCount (column.map (·.1))
    return .element name attributes children (positionOf line column)
termination_by sizeOf d
decreasing_by
  have := v.2
  have := c.2
  omega

/-- The top-level nodes of the document that `d` denotes. -/
def forestOfDatum (d : Datum) : Read (List Markup) :=
  (do (← d.items).mapM fun v => ofDatum v.1) <|> (do return [← ofDatum d])

end Markup

end ContentGrammar
