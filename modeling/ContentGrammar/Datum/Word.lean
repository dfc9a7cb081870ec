import ContentGrammar.Datum.Basic
import ContentGrammar.Text.Blank

/-!
# Unquoted words

An unquoted YAML scalar may be a text, but also no value, a truth value or a number. `ofWord` says
what it is where nothing else is expected of it, and `settle` decides that for every word in a
datum. Blanks around a word do not count. A whole number may be written in base 16, 8 or 2 and with
underscores between its digits; one that does not fit 64 bits is none. A decimal number that is
infinite or no number stands for a text.
-/

namespace ContentGrammar

namespace Datum

/-- Whether a word stands for no value. -/
def isNullWord (s : String) : Bool :=
  s == "" || s == "~" || s.toLower == "null"

/-- The truth value that a word stands for. -/
def boolOfWord (cs : List Char) : Option Bool :=
  let lowered := (String.ofList cs).toLower
  if ["true", "yes", "y", "on"].contains lowered then some true
  else if ["false", "no", "n", "off"].contains lowered then some false
  else none

/-- A sign, of which minus is `true`, and what follows it. -/
def splitSign : List Char → Option Bool × List Char
  | '-' :: cs => (some true, cs)
  | '+' :: cs => (some false, cs)
  | cs => (none, cs)

/-- The base in which a whole number is written, and its digits. -/
def splitBase : List Char → Nat × List Char
  | '0' :: 'x' :: cs | '0' :: 'X' :: cs => (16, cs)
  | '0' :: 'o' :: cs | '0' :: 'O' :: cs => (8, cs)
  | '0' :: 'b' :: cs | '0' :: 'B' :: cs => (2, cs)
  | cs => (10, cs)

/-- One more than the largest number that may be written after a minus. -/
def negativeLimit : Nat := 9223372036854775809

/-- The whole number that a word stands for. -/
def wholeOfWord (cs : List Char) : Option Datum :=
  let (sign, unsigned) := splitSign cs
  let (base, digits) := splitBase unsigned
  match Digits.number? base (digits.filter (· != '_')), sign with
  | some n, some true => if n < negativeLimit then some (.number ("-" ++ toString n)) else none
  | some n, _ => if n < countLimit then some (.nat n) else none
  | none, _ => none

/-- The least number that is infinite as a double-precision number: half a step above the largest
finite one. -/
def infinityBound : Nat := Nat.pow 2 1024 - Nat.pow 2 970

/-- Whether `digits` with a factor of ten to the power `exponent` is infinite. -/
def isInfinite (digits : List Char) (exponent : Int) : Bool :=
  let digits := digits.dropWhile (· == '0')
  let order := exponent + digits.length
  match Digits.number? 10 digits with
  | none => false
  | some n =>
    if order < 309 then false
    else if 309 < order then true
    else if 0 ≤ exponent then infinityBound ≤ n * Nat.pow 10 exponent.toNat
    else infinityBound * Nat.pow 10 (-exponent).toNat ≤ n

/-- The exponent that is written at the end of a decimal number. -/
def exponentOf : List Char → Option Int
  | [] => some 0
  | c :: cs =>
    let (sign, digits) := splitSign cs
    if c == 'e' || c == 'E' then
      (Digits.number? 10 digits).map fun (n : Nat) => if sign == some true then -n else n
    else none

/-- The infinite or finite decimal number, or the sign for no number, that a word stands for. -/
def decimalOfWord (cs : List Char) : Option Datum :=
  let (sign, unsigned) := splitSign cs
  let lowered := (String.ofList unsigned).toLower
  let infinite := Datum.text (if sign == some true then "-.inf" else ".inf")
  if ["inf", "infinity", ".inf"].contains lowered then some infinite
  else if ["nan", ".nan"].contains lowered then some (.text ".nan")
  else
    let whole := unsigned.takeWhile Char.isDigit
    let (fraction, rest) := match unsigned.dropWhile Char.isDigit with
      | '.' :: cs => (cs.takeWhile Char.isDigit, cs.dropWhile Char.isDigit)
      | cs => ([], cs)
    if whole.isEmpty && fraction.isEmpty then none
    else (exponentOf rest).map fun exponent =>
      if isInfinite (whole ++ fraction) (exponent - fraction.length) then infinite
      else .number (String.ofList cs)

/-- What an unquoted scalar denotes where nothing says what is expected. -/
def ofWord (s : String) : Datum :=
  let cs := trim s.toList
  if isNullWord s then .null
  else match boolOfWord cs with
    | some b => .bool b
    | none => ((wholeOfWord cs).or (decimalOfWord cs)).getD (.text s)

mutual

/-- The datum `d` with every word replaced by what it denotes. -/
def settle : Datum → Datum
  | .word s => ofWord s
  | .list items => .list (settleItems items)
  | .record fields => .record (settleFields fields)
  | .null => .null
  | .bool b => .bool b
  | .number s => .number s
  | .text s => .text s

/-- The items of a list, settled. -/
def settleItems : List Datum → List Datum
  | [] => []
  | d :: ds => d.settle :: settleItems ds

/-- The fields of a record, settled. -/
def settleFields : List (Datum × Datum) → List (Datum × Datum)
  | [] => []
  | (key, d) :: rest => (key.settle, d.settle) :: settleFields rest

end

end Datum

end ContentGrammar
