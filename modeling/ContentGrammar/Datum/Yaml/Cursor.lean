/-!
# Places in a YAML text

A `Cursor` is what is left of a text at some place, together with the place. What may stand at a
place depends on its column, on whether only blanks are before it on its line, and on how far it
is from an earlier place. `Cursor.toLineEnd` skips blanks and a comment, which needs a blank in
front of it.
-/

namespace ContentGrammar

namespace Yaml

/-- A space or a tab. -/
def isSpacing (c : Char) : Bool := c == ' ' || c == '\t'

/-- What separates flow collections and their parts. -/
def isFlowIndicator (c : Char) : Bool :=
  c == ',' || c == '[' || c == ']' || c == '\x7b' || c == '\x7d'

/-- Whether what is left starts with a blank or a line break, or is nothing. -/
def atGap : List Char → Bool
  | [] => true
  | c :: _ => isSpacing c || c == '\n'

/-- Whether what is left is nothing or starts with a line break. -/
def atLineEnd : List Char → Bool
  | [] => true
  | c :: _ => c == '\n'

/-- Whether `cs` starts with three times `c` and a gap. -/
def isMark (c : Char) (cs : List Char) : Bool :=
  cs.take 3 == [c, c, c] && atGap (cs.drop 3)

/-- Whether a colon before `rest` ends a plain scalar. -/
def endsKey (inFlow : Bool) (rest : List Char) : Bool :=
  atGap rest || inFlow && rest.head?.any isFlowIndicator

/-- A text with each line break as a single line feed. -/
def unifyBreaks : List Char → List Char
  | [] => []
  | '\r' :: '\n' :: cs => '\n' :: unifyBreaks cs
  | '\r' :: cs => '\n' :: unifyBreaks cs
  | c :: cs => c :: unifyBreaks cs

/-- A place in a text. -/
structure Place where
  line : Nat
  column : Nat
  /-- How far it is from the start. -/
  offset : Nat

namespace Place

/-- The start of a text. -/
def start : Place := ⟨0, 0, 0⟩

/-- The place `n` characters further on the same line. -/
def right (p : Place) (n : Nat) : Place := ⟨p.line, p.column + n, p.offset + n⟩

/-- The place after a line break. -/
def down (p : Place) : Place := ⟨p.line + 1, 0, p.offset + 1⟩

/-- The place after a character. -/
def after (p : Place) (c : Char) : Place := if c == '\n' then p.down else p.right 1

end Place

/-- What is left of a text. -/
structure Cursor where
  rest : List Char
  place : Place
  /-- Whether only blanks are before it on its line. -/
  fresh : Bool

namespace Cursor

/-- The start of a text. -/
def start (text : List Char) : Cursor := ⟨text, .start, true⟩

/-- Whether a mark between documents is next. -/
def atDocumentMark (c : Cursor) : Bool :=
  c.place.column == 0 && (isMark '-' c.rest || isMark '.' c.rest)

/-- Past `n` characters that are no blanks. -/
def skip (c : Cursor) (n : Nat) : Cursor := ⟨c.rest.drop n, c.place.right n, false⟩

/-- Past the characters on this line that satisfy `p`, which does not change what is before them. -/
def skipWhile (p : Char → Bool) (c : Cursor) : Cursor :=
  let n := (c.rest.takeWhile fun x => x != '\n' && p x).length
  { c with rest := c.rest.drop n, place := c.place.right n }

/-- Past blanks and a comment. -/
def toLineEnd (c : Cursor) : Except String Cursor :=
  let next := c.skipWhile isSpacing
  match next.rest with
  | '#' :: _ =>
    if c.rest.head?.any isSpacing then .ok (next.skipWhile fun _ => true)
    else .error "comment right after something else"
  | _ => .ok next

end Cursor

end Yaml

end ContentGrammar
