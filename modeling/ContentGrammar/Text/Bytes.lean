/-!
# Texts as bytes

Files are named by bytes, which need not be those of a text. `utf8` gives the bytes of a text,
`Bytes.text?` the text that bytes are, if they are one, and `Bytes.shown` the text that is shown for
them in any case. In this one a single U+FFFD stands for bytes with which a character could have
begun, and for each byte with which none can.
-/

namespace ContentGrammar

/-- A row of bytes. -/
abbrev Bytes := List UInt8

/-- The bytes of a text. -/
def utf8 (s : String) : Bytes := s.toUTF8.data.toList

namespace Bytes

/-- The text that bytes are, if they are UTF-8. -/
def text? (bs : Bytes) : Option String := String.fromUTF8? ⟨bs.toArray⟩

/-- The character with which bytes begin, if there is one. -/
def first? (bs : Bytes) : Option Char := ByteArray.utf8DecodeChar? ⟨(bs.take 4).toArray⟩ 0

/-- Whether a byte can be one of a character, but not the first. -/
def isTail (b : UInt8) : Bool := 0x80 ≤ b && b ≤ 0xBF

/-- Whether a character can begin with two bytes. -/
def canBegin (a b : UInt8) : Bool :=
  if a == 0xE0 then 0xA0 ≤ b && b ≤ 0xBF
  else if a == 0xED then 0x80 ≤ b && b ≤ 0x9F
  else if a == 0xF0 then 0x90 ≤ b && b ≤ 0xBF
  else if a == 0xF4 then 0x80 ≤ b && b ≤ 0x8F
  else 0xC2 ≤ a && a ≤ 0xF4 && isTail b

/-- How many bytes are passed over at a place where there is no character: those with which one could
have begun, but at least one. -/
def badLength (bs : Bytes) : Nat :=
  match bs with
  | a :: b :: c :: _ =>
    if !canBegin a b then 1
    else if a < 0xF0 || !isTail c then 2  -- only characters of four bytes have a third one to look at
    else 3
  | [a, b] => if canBegin a b then 2 else 1
  | _ => 1

/-- The characters that are shown for bytes. -/
def shownChars (bs : Bytes) : List Char :=
  match bs with
  | [] => []
  | b :: rest =>
    match first? (b :: rest) with
    | some c => c :: shownChars (rest.drop (c.utf8Size - 1))
    | none => '\uFFFD' :: shownChars (rest.drop (badLength (b :: rest) - 1))
termination_by bs.length
decreasing_by
  all_goals
    simp only [List.length_cons, List.length_drop]
    omega

/-- The text that is shown for bytes. -/
def shown (bs : Bytes) : String := String.ofList (shownChars bs)

end Bytes

end ContentGrammar
