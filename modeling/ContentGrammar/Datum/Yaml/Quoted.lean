import ContentGrammar.Datum.Json.Reader
import ContentGrammar.Datum.Yaml.Folding

/-!
# Quoted scalars

Between single quotes only a doubled quote is special. Between double quotes a backslash escapes a
character or a line break. Outside of flow collections each line after the first one has to be
indented, except in front of the closing quote. `Quoted.read` reads a scalar at a cursor, from its
first quote on.
-/

namespace ContentGrammar

namespace Yaml

/-- A quoted scalar that has been read. -/
structure Quoted where
  text : String
  /-- What follows its closing quote. -/
  next : Cursor

namespace Quoted

/-- The character of a one-letter escape in double quotes. -/
def escaped (c : Char) : Option Char :=
  match c with
  | '0' => some '\x00'
  | 'a' => some '\x07'
  | '\t' => some '\t'
  | 'v' => some '\x0B'
  | 'e' => some '\x1B'
  | ' ' => some ' '
  | 'N' => some '\u0085'
  | '_' => some '\u00A0'
  | 'L' => some '\u2028'
  | 'P' => some '\u2029'
  | c => Json.escaped c

/-- The number of hexadecimal digits of a numeric escape. -/
def escapeDigits (c : Char) : Option Nat :=
  match c with
  | 'x' => some 2
  | 'u' => some 4
  | 'U' => some 8
  | _ => none

/-- What a character inside quotes is read as. -/
inductive Mode
  | content
  /-- After a backslash. -/
  | escape
  /-- In a numeric escape that has some digits left. -/
  | number (left value : Nat)
  /-- At the second of two quotes that stand for one. -/
  | doubled

/-- The scalar after a character of an escape. -/
def feedEscape (f : Folding) (c : Char) : Except String (Folding × Mode) :=
  if c == '\n' then .ok (f.join, .content)
  else match escaped c, escapeDigits c with
  | some e, _ => .ok (f.push e, .content)
  | none, some digits => .ok (f, .number digits 0)
  | none, none => .error "unknown escape"

/-- The scalar after a digit of a numeric escape. -/
def feedNumber (f : Folding) (left value : Nat) (c : Char) : Except String (Folding × Mode) :=
  match Digits.value? c with
  | none => .error "bad numeric escape"
  | some v =>
    let value := 16 * value + v
    if 1 < left then .ok (f, .number (left - 1) value)
    else if value.isValidChar then .ok (f.push (Char.ofNat value), .content)
    else .error "bad numeric escape"

/-- The scalar after a character that is no closing quote. -/
def feed (isDouble inFlow : Bool) (least : Nat) (f : Folding) (place : Place) (c : Char)
    (rest : List Char) : Except String (Folding × Mode) :=
  let isBreak := f.separation.isBreak
  let isQuote := c == (if isDouble then '"' else '\'')
  if c == '\n' then .ok (f.lineBreak, .content)
  else if isBreak && Cursor.atDocumentMark ⟨c :: rest, place, true⟩ then
    .error "mark between documents in quotes"
  else if isBreak && c == '\t' && place.column + 1 < least then .error "tab in the indentation"
  else if isSpacing c then .ok (f.blank c, .content)
  else if isBreak && !inFlow && !isQuote && place.column < least then .error "too far to the left"
  else if isQuote then .ok (f, .doubled)
  else if isDouble && c == '\\' then
    -- What is in front of an escape counts even if the escape is a line break.
    .ok (⟨f.flushed, .blanks []⟩, .escape)
  else .ok (f.push c, .content)

/-- Reads on inside quotes. -/
def readFrom (isDouble inFlow : Bool) (least : Nat) (f : Folding) (mode : Mode) (place : Place)
    (text : List Char) : Except String Quoted :=
  match text with
  | [] => .error "quote without end"
  | c :: rest =>
    let goOn := fun s : Folding × Mode =>
      readFrom isDouble inFlow least s.1 s.2 (place.after c) rest
    match mode with
    | .escape => feedEscape f c >>= goOn
    | .number left value => feedNumber f left value c >>= goOn
    | .doubled => goOn (f.push c, .content)
    | .content =>
      if isDouble && c == '"' || !isDouble && c == '\'' && rest.head? != some '\'' then
        .ok ⟨f.quoted, ⟨rest, place.right 1, false⟩⟩
      else feed isDouble inFlow least f place c rest >>= goOn

/-- Reads a quoted scalar. -/
def read (isDouble inFlow : Bool) (least : Nat) (c : Cursor) : Except String Quoted :=
  readFrom isDouble inFlow least .start .content (c.place.right 1) (c.rest.drop 1)

end Quoted

end Yaml

end ContentGrammar
