import ContentGrammar.Datum.Yaml.Block
import ContentGrammar.Datum.Yaml.Plain
import ContentGrammar.Datum.Yaml.Quoted
import ContentGrammar.Datum.Yaml.Token

/-!
# From text to tokens

A `Lexer` is a place in a YAML text with all that what comes next depends on: the levels of
indentation, the open flow collections, and the tokens that may still turn out to be keys.
`Lexer.next` reads one more sign or scalar, and `Lexer.release` gives away the tokens that are
settled. Directives, anchors, aliases and tags are refused.
-/

namespace ContentGrammar

namespace Yaml

/-- A place in a text and what it is inside of. -/
structure Lexer where
  cursor : Cursor
  levels : List Level
  row : Row
  /-- Whether a key may begin here. -/
  mayKey : Bool
  /-- The candidate of the innermost flow collection or else of the text. -/
  candidate : Option Candidate
  /-- The candidates around each open flow collection, innermost first. -/
  outer : List (Option Candidate)
  /-- For each open flow list, innermost first, how many flow collections are open around a pair of
  key and value in it that is not ended. -/
  pairs : List (Option Nat)
  /-- Whether a flow record has begun since the last such pair. -/
  recordBegun : Bool
  /-- Where a value may follow its colon without a gap, the offset after a quoted scalar or flow
  collection. -/
  adjacent : Nat
  /-- The line on which a comment ended a plain scalar. -/
  comment : Option Nat

namespace Lexer

/-- The start of a text. -/
def start (text : List Char) : Lexer :=
  ⟨.start text, [], .empty, true, none, [], [], false, 0, none⟩

/-- Whether a flow collection is open. -/
def inFlow (s : Lexer) : Bool := !s.outer.isEmpty

/-- The column of the next character. -/
def column (s : Lexer) : Nat := s.cursor.place.column

/-- The place after one more token. -/
def emit (s : Lexer) (t : Token) : Lexer := { s with row := s.row.push t }

/-! ### Gaps -/

/-- What the blanks and comments in front of a token are inside of. -/
inductive Gap
  | blanks
  /-- A line that begins with a tab where indentation is needed. -/
  | barred
  | comment

/-- Skips blanks, line breaks and comments, and says whether there was a line break. A line may not
begin with a tab in front of column `least` unless it has no content. -/
def skipFrom (least : Nat) (gap : Gap) (broken fresh : Bool) (place : Place) (text : List Char) :
    Except String (Cursor × Bool) :=
  match text with
  | [] => .ok (⟨[], place, fresh⟩, broken)
  | c :: rest =>
    let goOn := fun gap => skipFrom least gap broken fresh (place.right 1) rest
    if c == '\n' then skipFrom least .blanks true true place.down rest
    else match gap with
    | .comment => goOn .comment
    | .blanks =>
      if c == '\t' && fresh && place.column < least then goOn .barred
      else if isSpacing c then goOn .blanks
      else if c == '#' then goOn .comment
      else .ok (⟨c :: rest, place, fresh⟩, broken)
    | .barred =>
      if isSpacing c then goOn .barred
      else if c == '#' then goOn .comment
      else .error "tab in the indentation"

/-- The place of the next token. -/
def skipGap (s : Lexer) : Except String Lexer := do
  let c := s.cursor
  let (cursor, broken) ← skipFrom (reach s.levels - 1) .blanks false c.fresh c.place c.rest
  let isInterrupted := s.comment.any (cursor.place.line == · + 1)
    && !cursor.rest.isEmpty && !s.inFlow && reach s.levels ≤ cursor.place.column
  if isInterrupted then throw "comment between the lines of a scalar"
  return { s with cursor, mayKey := s.mayKey || broken && !s.inFlow, comment := none }

/-! ### Keys -/

/-- How far a key may be from its colon. -/
def keyLimit : Nat := 1024

/-- The place with its candidate if that may still be a key. Outside of flow collections a key and
its colon are on one line. -/
def dropStale (s : Lexer) : Except String Lexer :=
  match s.candidate with
  | some c =>
    let place := s.cursor.place
    if !s.inFlow && (c.place.line < place.line || c.place.offset + keyLimit < place.offset) then
      if c.required then .error "key without colon" else .ok { s with candidate := none }
    else .ok s
  | none => .ok s

/-- The place at which the next token may be a key. -/
def saveCandidate (s : Lexer) : Lexer :=
  if s.mayKey then
    let required := !s.inFlow && s.levels.head?.any fun l => l.isBlock && l.column == s.column
    { s with candidate := some ⟨s.cursor.place, required, s.row.next⟩ }
  else s

/-- The place without a candidate, which must not have to be a key. -/
def dropCandidate (s : Lexer) : Except String Lexer :=
  if s.candidate.any (·.required) then .error "key without colon"
  else .ok { s with candidate := none }

/-! ### Levels -/

/-- The place after the ends of all levels that `isOver` says are over. -/
def unroll (isOver : Level → Bool) (s : Lexer) : Lexer :=
  if s.inFlow then s
  else
    let ended := s.levels.takeWhile isOver
    ended.foldl (fun s l => if l.isBlock then s.emit .blockEnd else s)
      { s with levels := s.levels.drop ended.length }

/-- The place inside a collection in block style at a column, where one begins if none is there yet.
Its start is the token `start` with the given number. -/
def roll (s : Lexer) (column number : Nat) (start : Token) : Lexer :=
  if s.inFlow then s
  else
    let levels := match s.levels with
      | ⟨c, false⟩ :: levels => if c ≤ column then levels else s.levels
      | levels => levels
    if reach levels ≤ column then
      { s with levels := ⟨column, true⟩ :: levels, row := s.row.insert number start }
    else { s with levels }

/-- The place inside of a value. -/
def rollValue (s : Lexer) : Lexer :=
  if s.inFlow then s else { s with levels := pushValue s.levels }

/-! ### Signs -/

/-- The place past `n` characters. -/
def skip (s : Lexer) (n : Nat) : Lexer := { s with cursor := s.cursor.skip n }

/-- The place past the blanks and the comment after a sign. -/
def toLineEnd (s : Lexer) : Except String Lexer := do
  return { s with cursor := ← s.cursor.toLineEnd }

/-- The place after the end of a pair in the innermost flow list. -/
def endPair (s : Lexer) : Lexer :=
  match s.pairs with
  | some depth :: pairs =>
    if depth == s.outer.length then
      { s with pairs := none :: pairs, recordBegun := false }.emit .flowRecordEnd
    else s
  | _ => s

/-- How many flow collections may be open at once. -/
def flowLimit : Nat := 255

/-- The place after an opening bracket. -/
def enterFlow (s : Lexer) (isList : Bool) : Except String Lexer := do
  let s := s.saveCandidate.rollValue
  if flowLimit ≤ s.outer.length then throw "nesting too deep"
  let s := { s.skip 1 with outer := s.candidate :: s.outer, candidate := none, mayKey := true }
  let s := if isList then { s with pairs := none :: s.pairs } else { s with recordBegun := true }
  return (← s.toLineEnd).emit (if isList then .flowListStart else .flowRecordStart)

/-- The place after a closing bracket. -/
def leaveFlow (s : Lexer) (isList : Bool) : Except String Lexer := do
  let s ← s.dropCandidate
  let s := if isList then
    let s := s.endPair
    { s with pairs := s.pairs.tail }
    else s
  match s.outer with
  | [] => throw "misplaced bracket"
  | candidate :: outer =>
    let s ← { s.skip 1 with outer, candidate, mayKey := false }.toLineEnd
    let s := if s.inFlow then { s with adjacent := s.cursor.place.offset } else s
    return s.emit (if isList then .flowListEnd else .flowRecordEnd)

/-- The place after a comma. -/
def comma (s : Lexer) : Except String Lexer := do
  let s := { ← s.dropCandidate with mayKey := true }.endPair
  return (← (s.skip 1).toLineEnd).emit .comma

/-- The place after a dash. -/
def dash (s : Lexer) : Except String Lexer := do
  if s.inFlow || !s.mayKey then throw "misplaced dash"
  let s := (s.roll s.column s.row.next .listStart).skip 1
  let next := s.cursor.skipWhile isSpacing
  let isTabbed := (s.cursor.rest.takeWhile isSpacing).contains '\t'
  match next.rest with
  | '-' :: rest => if isTabbed && atGap rest then throw "tab after a dash"
  | _ => pure ()
  let s ← s.toLineEnd
  let isEmpty := s.cursor.rest.head?.any fun c => c == '\n' || isFlowIndicator c
  let s ← (if isEmpty then s.rollValue else s).dropCandidate
  return { s with mayKey := true }.emit .dash

/-- The place after a question mark in front of a key. -/
def key (s : Lexer) : Except String Lexer := do
  if !s.inFlow && !s.mayKey then throw "misplaced key"
  let s := if s.inFlow then { s with recordBegun := true }
    else s.roll s.column s.row.next .recordStart
  let s := (← s.dropCandidate).skip 1
  match (s.cursor.skipWhile (· == ' ')).rest with
  | '\t' :: _ => throw "tab after a question mark"
  | _ => pure ()
  return { s with mayKey := !s.inFlow }.emit .key

/-- Whether a value begins right after a colon and nothing but tabs. -/
def isTabbed (text : List Char) : Bool :=
  let blanks := text.takeWhile isSpacing
  let isValue := fun c : Char => c == '-' || c == '_' || c.isAlphanum
  text.head? == some '\t' && !blanks.contains ' ' && (text.drop blanks.length).head?.any isValue

/-- The place after a colon. A key and a value in a flow list are a record of their own. -/
def value (s : Lexer) : Except String Lexer := do
  let isPair := !s.pairs.isEmpty && !s.recordBegun
  let pairs := if isPair then some s.outer.length :: s.pairs.tail else s.pairs
  let place := s.cursor.place
  let s := { s with pairs }.skip 1
  if isTabbed s.cursor.rest then throw "tab after a colon"
  match s.candidate with
  | some c =>
    if isPair && c.place.line < place.line then throw "key over several lines"
    let row := s.row.insert c.number .key
    let row := if isPair then row.insert c.number .flowRecordStart else row
    let s := ({ s with row }.roll c.place.column c.number .recordStart).rollValue
    return { s with candidate := none, mayKey := false }.emit .value
  | none =>
    let s := if isPair then s.emit .flowRecordStart else s
    if !s.inFlow && !s.mayKey then throw "misplaced colon"
    let s := (s.roll place.column s.row.next .recordStart).rollValue
    return { s with mayKey := !s.inFlow }.emit .value

/-- The place after a mark between documents. -/
def documentMark (s : Lexer) (t : Token) : Except String Lexer := do
  let s ← (s.unroll fun _ => true).dropCandidate
  let s := ({ s with mayKey := false }.skip 3).emit t
  match t with
  | .documentEnd =>
    let s ← s.toLineEnd
    if atLineEnd s.cursor.rest then return s else throw "content after the end of a document"
  | _ => return s

/-- The end of a text. -/
def finish (s : Lexer) : Except String Lexer := do
  if (s.candidate :: s.outer).any fun c => c.any (·.required) then throw "key without colon"
  let s := { s with candidate := none, outer := s.outer.map fun _ => none }
  return { s.unroll fun _ => true with mayKey := false }.emit .textEnd

/-! ### Scalars -/

/-- The place after a plain scalar. -/
def plain (s : Lexer) : Except String Lexer := do
  let s := s.saveCandidate
  let levels := dropValues s.levels
  let p ← Plain.read s.inFlow (reach levels) s.cursor
  return { s with levels, cursor := p.next, mayKey := p.next.fresh, comment := p.comment }.emit
    (.scalar (.word p.text))

/-- The place after a quoted scalar. -/
def quoted (s : Lexer) (isDouble : Bool) : Except String Lexer := do
  let line := s.cursor.place.line
  let s := { s.saveCandidate with mayKey := false }
  let q ← Quoted.read isDouble s.inFlow (reach s.levels) s.cursor
  let cursor ← q.next.toLineEnd
  let mayFollow := match cursor.rest with
    | [] => true
    | c :: _ => c == '\n' || c == ':' && (s.inFlow || cursor.place.line == line)
      || s.inFlow && (c == ',' || c == ']' || c == '\x7d')
  if !mayFollow then throw "content after a quote"
  let s ← { s with cursor }.skipGap
  return { s with adjacent := s.cursor.place.offset }.emit (.scalar (.text q.text))

/-- The place after a block scalar. -/
def block (s : Lexer) (isFolded : Bool) : Except String Lexer := do
  let s := s.saveCandidate
  let levels := dropValues s.levels
  let b ← Block.read isFolded (reach levels) s.cursor
  return { s with levels, cursor := b.next, mayKey := true }.emit (.scalar (.text b.text))

/-! ### Tokens -/

/-- The place after the sign or scalar that starts with `c`. -/
def token (s : Lexer) (c : Char) (rest : List Char) : Except String Lexer :=
  let isAdjacent := s.cursor.place.offset == s.adjacent
  let isValue := c == ':'
    && (atGap rest || s.inFlow && (rest.head?.any isFlowIndicator || isAdjacent))
  if c == '[' || c == '\x7b' then s.enterFlow (c == '[')
  else if c == ']' || c == '\x7d' then s.leaveFlow (c == ']')
  else if c == ',' then s.comma
  else if c == '-' && atGap rest then s.dash
  else if c == '?' && atGap rest then s.key
  else if isValue then
    if !atGap rest && !isAdjacent && rest.head?.any fun c => c == '[' || c == '\x7b' then
      .error "value right after a colon"
    else s.value
  else if (c == '|' || c == '>') && !s.inFlow then s.block (c == '>')
  else if c == '"' || c == '\'' then s.quoted (c == '"')
  else if "*&!%@`".toList.contains c then .error "unexpected sign"
  else s.plain

/-- The place after one more sign or scalar, or after the end of the text. -/
def next (s : Lexer) : Except String Lexer := do
  let s ← (← s.skipGap).dropStale
  let s := s.unroll fun l => s.column < l.column
  match s.cursor.rest with
  | [] => s.finish
  | c :: rest =>
    let isFirst := s.column == 0
    if isFirst && c == '%' then throw "directive"
    else if isFirst && isMark '-' (c :: rest) then s.documentMark .documentStart
    else if isFirst && isMark '.' (c :: rest) then s.documentMark .documentEnd
    else
      let mayEnd := s.inFlow && (c == ']' || c == '\x7d' || c == ',')
      if s.column + 1 < reach s.levels && !mayEnd then throw "too far to the left"
      else s.token c rest

/-- The tokens that are settled, and the place with all others. -/
def release (s : Lexer) : Except String (List Token × Lexer) := do
  let s ← if s.row.size = 0 then pure s else s.dropStale
  let (tokens, row) := s.row.release (s.candidate :: s.outer)
  return (tokens, { s with row })

end Lexer

end Yaml

end ContentGrammar
