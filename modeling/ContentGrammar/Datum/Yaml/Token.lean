import ContentGrammar.Datum.Basic
import ContentGrammar.Datum.Yaml.Cursor

/-!
# Tokens of a YAML text

A YAML text is a row of tokens: scalars, and signs that begin, go on with and end collections. What
is in block style has no signs of its own for where it begins and ends, which follows from
indentation. That a scalar or a flow collection is a key shows only at the colon after it, and the
sign in front of a key belongs in front of that scalar or collection. So a `Row` keeps the tokens
that may still turn out to be a key, and those after them.
-/

namespace ContentGrammar

namespace Yaml

/-- A token. -/
inductive Token
  | documentStart
  | documentEnd
  | textEnd
  /-- The start of a list or record in block style. -/
  | listStart
  | recordStart
  /-- The end of a list or record in block style. -/
  | blockEnd
  /-- The sign in front of an item in block style. -/
  | dash
  /-- The sign in front of a key and the one in front of its value. -/
  | key
  | value
  /-- Brackets around, and commas in, a list or record in flow style. -/
  | flowListStart
  | flowListEnd
  | flowRecordStart
  | flowRecordEnd
  | comma
  | scalar (d : Datum)

/-! ### Indentation -/

/-- A level of indentation. -/
structure Level where
  column : Nat
  /-- Whether it is the one of a collection in block style, and not just that of a value. -/
  isBlock : Bool

/-- The column that what is inside of the innermost level has to reach. -/
def reach : List Level → Nat
  | [] => 0
  | l :: _ => l.column + 1

/-- The levels without those of values inside. -/
def dropValues (levels : List Level) : List Level := levels.dropWhile fun l => !l.isBlock

/-- The levels with one for the value of a key or the item after a dash. -/
def pushValue : List Level → List Level
  | ⟨column, true⟩ :: levels => ⟨column + 1, false⟩ :: ⟨column, true⟩ :: levels
  | levels => levels

/-! ### Rows of tokens -/

/-- A token that may turn out to be a key. -/
structure Candidate where
  place : Place
  /-- Whether it has to be one. -/
  required : Bool
  /-- Its number in the text. -/
  number : Nat

/-- The last tokens of a text so far. -/
structure Row where
  /-- The tokens, latest first. -/
  tokens : List Token
  /-- How many they are. -/
  size : Nat
  /-- The number of tokens before them. -/
  before : Nat

namespace Row

/-- No tokens. -/
def empty : Row := ⟨[], 0, 0⟩

/-- The number of the next token. -/
def next (r : Row) : Nat := r.before + r.size

/-- The row with one more token, which has the given number. -/
def insert (r : Row) (number : Nat) (t : Token) : Row :=
  ⟨r.tokens.insertIdx (r.next - number) t, r.size + 1, r.before⟩

/-- The row with one more token at its end. -/
def push (r : Row) (t : Token) : Row := ⟨t :: r.tokens, r.size + 1, r.before⟩

/-- The tokens in front of all candidates, and the row of the others. -/
def release (r : Row) (candidates : List (Option Candidate)) : List Token × Row :=
  let kept := candidates.foldl (fun n c => match c with
    | some c => max n (r.next - c.number)
    | none => n) 0
  if r.size ≤ kept then ([], r)
  else ((r.tokens.drop kept).reverse, ⟨r.tokens.take kept, kept, r.before + (r.size - kept)⟩)

end Row

end Yaml

end ContentGrammar
