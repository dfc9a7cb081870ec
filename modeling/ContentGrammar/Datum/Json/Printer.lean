import ContentGrammar.Datum.Basic

/-!
# Printing JSON

`Json.compact` prints a datum on one line, `Json.pretty` over several lines with an indentation of
two spaces. In a text the quote, the backslash and the control characters below the space are
escaped, the latter by one letter where JSON has one, and all else stands for itself.
-/

namespace ContentGrammar

namespace Json

/-- One hexadecimal digit. -/
def hexDigit (n : Nat) : Char := if n < 10 then Char.ofNat (48 + n) else Char.ofNat (87 + n)

/-- How `c` is written inside a text. -/
def escapeChar (c : Char) : List Char :=
  if c == '"' then ['\\', '"']
  else if c == '\\' then ['\\', '\\']
  else if c == '\x08' then ['\\', 'b']
  else if c == '\x0C' then ['\\', 'f']
  else if c == '\n' then ['\\', 'n']
  else if c == '\r' then ['\\', 'r']
  else if c == '\t' then ['\\', 't']
  else if c.toNat < 0x20 then
    ['\\', 'u', '0', '0', hexDigit (c.toNat / 16), hexDigit (c.toNat % 16)]
  else [c]

/-- A text with its quotes. -/
def quote (s : String) : String := "\"" ++ String.ofList (s.toList.flatMap escapeChar) ++ "\""

mutual

/-- The datum `d` on one line. -/
def compact : Datum → String
  | .null => "null"
  | .bool b => if b then "true" else "false"
  | .number s => s
  | .text s => quote s
  | .word s => quote s
  | .list ds => "[" ++ compactItems ds ++ "]"
  | .record fs => "\x7b" ++ compactFields fs ++ "\x7d"

/-- Items on one line. -/
def compactItems : List Datum → String
  | [] => ""
  | [d] => compact d
  | d :: ds => compact d ++ "," ++ compactItems ds

/-- Fields on one line. -/
def compactFields : List (Datum × Datum) → String
  | [] => ""
  | [(key, d)] => compact key ++ ":" ++ compact d
  | (key, d) :: fs => compact key ++ ":" ++ compact d ++ "," ++ compactFields fs

end

/-- A new line indented by `depth` steps. -/
def newline (depth : Nat) : String := "\n" ++ String.ofList (List.replicate (2 * depth) ' ')

mutual

/-- The datum `d` over several lines, its parts indented by more than `depth` steps. -/
def prettyAt (depth : Nat) : Datum → String
  | .null => "null"
  | .bool b => if b then "true" else "false"
  | .number s => s
  | .text s => quote s
  | .word s => quote s
  | .list [] => "[]"
  | .list (d :: ds) => "[" ++ prettyItems (depth + 1) (d :: ds) ++ newline depth ++ "]"
  | .record [] => "\x7b\x7d"
  | .record (f :: fs) => "\x7b" ++ prettyFields (depth + 1) (f :: fs) ++ newline depth ++ "\x7d"

/-- Items, each on lines of its own. -/
def prettyItems (depth : Nat) : List Datum → String
  | [] => ""
  | [d] => newline depth ++ prettyAt depth d
  | d :: ds => newline depth ++ prettyAt depth d ++ "," ++ prettyItems depth ds

/-- Fields, each on lines of its own. -/
def prettyFields (depth : Nat) : List (Datum × Datum) → String
  | [] => ""
  | [(key, d)] => newline depth ++ compact key ++ ": " ++ prettyAt depth d
  | (key, d) :: fs =>
    newline depth ++ compact key ++ ": " ++ prettyAt depth d ++ "," ++ prettyFields depth fs

end

/-- The datum `d` over several lines. -/
def pretty (d : Datum) : String := prettyAt 0 d

end Json

end ContentGrammar
