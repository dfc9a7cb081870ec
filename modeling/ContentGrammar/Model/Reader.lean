import ContentGrammar.Datum.Shape
import ContentGrammar.Model.Author

/-!
# Reading written content models

How items and contents are taken from data. The kinds of item are told apart by their fields, and
tried in a fixed order, which matters for items that are written positionally.
-/

namespace ContentGrammar

open Datum (Read Layout expected ifGiven given asTexts asCount)

/-- One name, or a list of names. -/
def Names.ofDatum : Datum → Read Names
  | .text s => .ok (.one s)
  | d => .many <$> asTexts d

/-- The field under which what is repeated is written. -/
def Quantity.field : Quantity → String
  | .zeroOrMore => "zeroOrMore"
  | .oneOrMore => "oneOrMore"

namespace Item

/-- The layout of an item, whose positional form has all of its fields. -/
def layout (names : List String) : Layout := ⟨names, some names.length⟩

/-- An item that requires names. -/
def requireOfDatum (d : Datum) : Read Item := do
  let [what, min, max, ignore] ← d.fields (layout ["require", "min", "max", "ignore"])
    | expected "an item"
  return .require (← given Names.ofDatum (what.map (·.1)))
    (← ifGiven asCount (min.map (·.1))) (← ifGiven asCount (max.map (·.1)))
    (← ifGiven Names.ofDatum (ignore.map (·.1)))

/-- An item that allows names. -/
def optionalOfDatum (d : Datum) : Read Item := do
  let [what, ignore] ← d.fields (layout ["optional", "ignore"])
    | expected "an item"
  return .optional (← given Names.ofDatum (what.map (·.1)))
    (← ifGiven Names.ofDatum (ignore.map (·.1)))

mutual

/-- The item that `d` writes. -/
def ofDatum (d : Datum) : Read Item :=
  requireOfDatum d <|> optionalOfDatum d <|> repetitionOfDatum .oneOrMore d
    <|> repetitionOfDatum .zeroOrMore d <|> choiceOfDatum d
termination_by (sizeOf d, 1)

/-- An item that repeats names or, failing that, items. -/
def repetitionOfDatum (quantity : Quantity) (d : Datum) : Read Item := do
  let [some what, max, ignore] ← d.fields (layout [quantity.field, "max", "ignore"])
    | expected "a repetition"
  let max ← ifGiven asCount (max.map (·.1))
  let ignore ← ifGiven Names.ofDatum (ignore.map (·.1))
  (do return .repeatNames quantity (← Names.ofDatum what.1) max ignore) <|> (do
    let items ← (← what.1.items).mapM fun v => ofDatum v.1
    return .repeatItems quantity items max ignore)
termination_by (sizeOf d, 0)
decreasing_by
  have := v.2
  have := what.2
  exact Prod.Lex.left _ _ (by omega)

/-- An item that offers a choice. -/
def choiceOfDatum (d : Datum) : Read Item := do
  let [some alternatives] ← d.fields (layout ["choice"])
    | expected "a choice"
  let lists ← alternatives.1.items
  return .choice (← lists.mapM fun l => do (← l.1.items).mapM fun v => ofDatum v.1)
termination_by (sizeOf d, 0)
decreasing_by
  have := v.2
  have := l.2
  have := alternatives.2
  exact Prod.Lex.left _ _ (by omega)

end

end Item

/-- The contents that `d` writes. -/
def Contents.ofDatum : Datum → Read Contents
  | .bool b => .ok (.flag b)
  | d => do return .items (← (← d.items).mapM fun v => Item.ofDatum v.1)

end ContentGrammar
