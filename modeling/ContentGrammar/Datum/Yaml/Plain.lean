import ContentGrammar.Datum.Yaml.Folding

/-!
# Plain scalars

A plain scalar goes on up to a colon before a gap, a comment or, outside of flow collections, a line
that is indented too little. In a flow collection what separates its parts ends it too.
`Plain.read` reads one at a cursor.
-/

namespace ContentGrammar

namespace Yaml

/-- A plain scalar that has been read. -/
structure Plain where
  text : String
  /-- What follows it, blanks and line breaks skipped. -/
  next : Cursor
  /-- The line on which a comment ended it outside of flow collections. -/
  comment : Option Nat

namespace Plain

/-- A line between the lines of a scalar that begins with a tab where indentation is needed, so
that it must have no content. -/
inductive Bar
  | none
  | blanks
  | comment

/-- Reads on in a plain scalar. Its lines after the first one have to reach column `least`. -/
def readFrom (inFlow : Bool) (least : Nat) (f : Folding) (bar : Bar) (place : Place)
    (text : List Char) : Except String Plain :=
  match text with
  | [] => .ok ⟨f.plain, ⟨[], place, f.separation.isBreak⟩, none⟩
  | c :: rest =>
    let isBreak := f.separation.isBreak
    let isHead := f.text.isEmpty || !f.separation.isNothing
    let stop : Option Nat → Except String Plain := fun comment =>
      .ok ⟨f.plain, ⟨c :: rest, place, isBreak⟩, comment⟩
    if c == '\n' then readFrom inFlow least f.lineBreak .none place.down rest
    else match bar with
    | .comment => readFrom inFlow least f .comment (place.right 1) rest
    | .blanks =>
      if isSpacing c then readFrom inFlow least f .blanks (place.right 1) rest
      else if c == '#' then readFrom inFlow least f .comment (place.right 1) rest
      else .error "tab in the indentation"
    | .none =>
      if isSpacing c then
        if isBreak && c == '\t' && place.column < least then
          readFrom inFlow least f .blanks (place.right 1) rest
        else readFrom inFlow least (f.blank c) .none (place.right 1) rest
      else if isBreak && !inFlow && place.column < least then stop none
      else if isHead && Cursor.atDocumentMark ⟨c :: rest, place, isBreak⟩ then stop none
      else if isHead && c == '#' then
        stop (if !isBreak && !f.text.isEmpty && !inFlow then some place.line else none)
      else if isHead && inFlow && c == '-' && rest.head?.any isFlowIndicator then
        .error "misplaced dash"
      else if c == ':' && endsKey inFlow rest || inFlow && isFlowIndicator c then stop none
      else
        let width := if isHead then 1 else c.utf8Size
        readFrom inFlow least (f.push c) .none
          ⟨place.line, place.column + 1, place.offset + width⟩ rest

/-- Reads a plain scalar. -/
def read (inFlow : Bool) (least : Nat) (c : Cursor) : Except String Plain :=
  if inFlow && c.place.column < least then .error "too far to the left"
  else readFrom inFlow least .start .none c.place c.rest

end Plain

end Yaml

end ContentGrammar
