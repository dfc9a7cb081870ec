import ContentGrammar.Datum.Basic

/-!
# Reading JSON

A JSON text is read character by character by a machine that keeps the lists and records still
open. `Json.feed` is one step of it, so reading a text is a fold over its characters. The machine
is strict: no trailing comma, comment, lone surrogate or raw control character, and nothing after
the value. Nesting is limited, and the fields of a record are kept as written, a repeated name
included.
-/

namespace ContentGrammar

namespace Json

/-- A list or record that is still open, with what it holds so far, latest first. -/
inductive Frame
  | list (items : List Datum)
  | record (fields : List (Datum × Datum)) (name : String)

/-- What may come next outside of a scalar. -/
inductive Expectation
  | value
  | valueOrEnd
  | name
  | nameOrEnd
  | colon
  | commaOrEnd
  | nothing (result : Datum)

/-- The scalar in which the machine is, with its characters so far, latest first. -/
inductive Scalar
  | outside
  | text (cs : List Char)
  | escape (cs : List Char)
  /-- Inside a numeric escape; `high` is the first half of a pair. -/
  | unit (cs : List Char) (high : Option Nat) (digits value : Nat)
  /-- The second half of a pair has to follow, and `marked` tells whether its backslash did. -/
  | pair (cs : List Char) (high : Nat) (marked : Bool)
  | bare (cs : List Char)

/-- The state of the machine. -/
structure State where
  frames : List Frame
  depth : Nat
  expectation : Expectation
  scalar : Scalar

/-- The state before the first character. -/
def State.start : State := ⟨[], 0, .value, .outside⟩

/-- JSON white space. -/
def isGap (c : Char) : Bool := c == ' ' || c == '\t' || c == '\n' || c == '\r'

/-- Whether `cs` is an exponent or nothing. -/
def isExponent : List Char → Bool
  | [] => true
  | c :: r =>
    let digits := match r with
      | '+' :: r => r
      | '-' :: r => r
      | r => r
    (c == 'e' || c == 'E') && !digits.isEmpty && digits.all Char.isDigit

/-- Whether `cs` is what may follow the whole part of a number. -/
def isFraction : List Char → Bool
  | '.' :: r =>
    !(r.takeWhile Char.isDigit).isEmpty && isExponent (r.dropWhile Char.isDigit)
  | r => isExponent r

/-- Whether `cs` is a number of the JSON grammar. -/
def isNumber (cs : List Char) : Bool :=
  let unsigned := match cs with
    | '-' :: r => r
    | r => r
  match unsigned with
  | '0' :: r => isFraction r
  | c :: r => c.isDigit && isFraction (r.dropWhile Char.isDigit)
  | [] => false

/-- The value of a bare word. Zero with a minus is a fraction and not a whole number. -/
def ofBare (cs : List Char) : Option Datum :=
  let s := String.ofList cs
  if s == "null" then some .null
  else if s == "true" then some (.bool true)
  else if s == "false" then some (.bool false)
  else if s == "-0" then some (.number "-0.0")
  else if isNumber cs then some (.number s)
  else none

/-- The character of a one-letter escape. -/
def escaped : Char → Option Char
  | '"' => some '"'
  | '\\' => some '\\'
  | '/' => some '/'
  | 'b' => some '\x08'
  | 'f' => some '\x0C'
  | 'n' => some '\n'
  | 'r' => some '\r'
  | 't' => some '\t'
  | _ => none

/-- The state after a complete value `d`. -/
def State.take (s : State) (d : Datum) : Except String State :=
  match s.expectation with
  | .value | .valueOrEnd =>
    match s.frames with
    | [] => .ok ⟨[], 0, .nothing d, .outside⟩
    | .list ds :: rest => .ok ⟨.list (d :: ds) :: rest, s.depth, .commaOrEnd, .outside⟩
    | .record fs name :: rest =>
      .ok ⟨.record ((.text name, d) :: fs) "" :: rest, s.depth, .commaOrEnd, .outside⟩
  | _ => .error "unexpected value"

/-- The state after a complete text `t`, which may be the name of a field. -/
def State.takeText (s : State) (t : String) : Except String State :=
  match s.expectation, s.frames with
  | .name, .record fs _ :: rest | .nameOrEnd, .record fs _ :: rest =>
    .ok ⟨.record fs t :: rest, s.depth, .colon, .outside⟩
  | _, _ => s.take (.text t)

/-- The state after the start of a list or record, of which at most `limit` may be open. -/
def State.enter (limit : Option Nat) (s : State) (frame : Frame) (next : Expectation) :
    Except String State :=
  match s.expectation with
  | .value | .valueOrEnd =>
    if limit.any (· ≤ s.depth) then .error "nesting too deep"
    else .ok ⟨frame :: s.frames, s.depth + 1, next, .outside⟩
  | _ => .error "unexpected value"

/-- The state after the end of the innermost list or record. -/
def State.leave (s : State) (closer : Char) : Except String State :=
  match s.frames, closer, s.expectation with
  | .list ds :: rest, ']', .valueOrEnd | .list ds :: rest, ']', .commaOrEnd =>
    State.take ⟨rest, s.depth - 1, .value, .outside⟩ (.list ds.reverse)
  | .record fs _ :: rest, '\x7d', .nameOrEnd | .record fs _ :: rest, '\x7d', .commaOrEnd =>
    State.take ⟨rest, s.depth - 1, .value, .outside⟩ (.record fs.reverse)
  | _, _, _ => .error "unexpected end of a list or record"

/-- The state after a comma. -/
def State.comma (s : State) : Except String State :=
  match s.frames, s.expectation with
  | .list _ :: _, .commaOrEnd => .ok { s with expectation := .value }
  | .record _ _ :: _, .commaOrEnd => .ok { s with expectation := .name }
  | _, _ => .error "unexpected comma"

/-- The state after a character outside of scalars. -/
def State.outside (limit : Option Nat) (s : State) (c : Char) : Except String State :=
  if isGap c then .ok s
  else if c == '"' then .ok { s with scalar := .text [] }
  else if c == '[' then s.enter limit (.list []) .valueOrEnd
  else if c == '\x7b' then s.enter limit (.record [] "") .nameOrEnd
  else if c == ']' || c == '\x7d' then s.leave c
  else if c == ',' then s.comma
  else if c == ':' then
    match s.expectation with
    | .colon => .ok { s with expectation := .value }
    | _ => .error "unexpected colon"
  else .ok { s with scalar := .bare [c] }

/-- The state after the bare word `cs`, written backwards. -/
def State.endBare (s : State) (cs : List Char) : Except String State :=
  match ofBare cs.reverse with
  | some d => State.take { s with scalar := .outside } d
  | none => .error "unknown word"

/-- The state after the last digit of a numeric escape. -/
def State.endUnit (s : State) (cs : List Char) (high : Option Nat) (value : Nat) :
    Except String State :=
  let isHigh := 0xD800 ≤ value && value < 0xDC00
  let isLow := 0xDC00 ≤ value && value < 0xE000
  match high with
  | none =>
    if isHigh then .ok { s with scalar := .pair cs value false }
    else if isLow then .error "lone surrogate"
    else .ok { s with scalar := .text (Char.ofNat value :: cs) }
  | some h =>
    if isLow then
      let c := Char.ofNat (0x10000 + (h - 0xD800) * 0x400 + (value - 0xDC00))
      .ok { s with scalar := .text (c :: cs) }
    else .error "lone surrogate"

/-- The state after one more character. -/
def feed (limit : Option Nat) (s : State) (c : Char) : Except String State :=
  match s.scalar with
  | .outside => s.outside limit c
  | .text cs =>
    if c == '"' then s.takeText (String.ofList cs.reverse)
    else if c == '\\' then .ok { s with scalar := .escape cs }
    else if c.toNat < 0x20 then .error "control character in a text"
    else .ok { s with scalar := .text (c :: cs) }
  | .escape cs =>
    if c == 'u' then .ok { s with scalar := .unit cs none 0 0 }
    else match escaped c with
      | some e => .ok { s with scalar := .text (e :: cs) }
      | none => .error "unknown escape"
  | .unit cs high digits value =>
    match Digits.value? c with
    | none => .error "bad numeric escape"
    | some v =>
      if digits < 3 then .ok { s with scalar := .unit cs high (digits + 1) (16 * value + v) }
      else s.endUnit cs high (16 * value + v)
  | .pair cs high false =>
    if c == '\\' then .ok { s with scalar := .pair cs high true } else .error "lone surrogate"
  | .pair cs high true =>
    if c == 'u' then .ok { s with scalar := .unit cs (some high) 0 0 } else .error "lone surrogate"
  | .bare cs =>
    if isGap c || c == '"' || c == '[' || c == ']' || c == '\x7b' || c == '\x7d' || c == ','
        || c == ':' then do
      (← s.endBare cs).outside limit c
    else .ok { s with scalar := .bare (c :: cs) }

/-- The value read when the text ends in state `s`. -/
def State.finish (s : State) : Except String Datum := do
  let s ← match s.scalar with
    | .outside => .ok s
    | .bare cs => s.endBare cs
    | _ => .error "text without end"
  match s.expectation with
  | .nothing d => .ok d
  | _ => .error "text ends too early"

/-- Feeds all characters, keeping count of them for the error. -/
def feedAll (limit : Option Nat) (s : State) (offset : Nat) :
    List Char → Except ReadError Datum
  | [] =>
    match s.finish with
    | .ok d => .ok d
    | .error problem => .error (.malformed offset problem)
  | c :: cs =>
    match feed limit s c with
    | .ok s => feedAll limit s (offset + 1) cs
    | .error problem => .error (.malformed offset problem)

/-- How many lists and records may be open at once in a text that is read from outside. -/
def depthLimit : Nat := 127

/-- The value of a JSON text in which at most `limit` lists and records are open at once. -/
def read (limit : Option Nat) (source : String) : Except ReadError Datum :=
  feedAll limit .start 0 source.toList

end Json

end ContentGrammar
