import Mathlib.Data.List.Basic
import ContentGrammar.Text.Bytes

/-!
# Bytes of texts

The bytes of a text are that text again (`text?_utf8`), and no other bytes are (`text?_eq_some_iff`),
so a text is told by its bytes. They are shown as the text (`shown_utf8`).
-/

namespace ContentGrammar

theorem utf8_eq (s : String) : utf8 s = s.toList.flatMap String.utf8EncodeChar := by
  rw [utf8, String.toUTF8_eq_toByteArray, ← String.utf8Encode_toList, List.utf8Encode,
    List.data_toByteArray]

namespace Bytes

variable {bs : Bytes} {s : String}

/-- Bytes are a text just if they are those of the text. -/
theorem text?_eq_some_iff : text? bs = some s ↔ bs = utf8 s := by
  have hbytes : s.toByteArray = ⟨bs.toArray⟩ ↔ bs = utf8 s := by
    rw [utf8, String.toUTF8_eq_toByteArray, ByteArray.ext_iff, eq_comm, ← Array.toList_inj]
  rw [← hbytes, text?, String.fromUTF8?]
  split
  case isTrue hvalid =>
    rw [Option.some.injEq, ← String.toByteArray_inj]
    exact eq_comm
  case isFalse hnot =>
    refine iff_of_false nofun fun h => hnot ?_
    rw [← h]
    exact s.isValidUTF8

theorem text?_utf8 (s : String) : text? (utf8 s) = some s := text?_eq_some_iff.mpr rfl

/-- The bytes of a character in front of others give that character. -/
theorem first?_append (c : Char) (rest : Bytes) :
    first? (String.utf8EncodeChar c ++ rest) = some c := by
  have htake : (String.utf8EncodeChar c ++ rest).take 4 =
      String.utf8EncodeChar c ++ rest.take (4 - c.utf8Size) := by
    rw [List.take_append, String.length_utf8EncodeChar, List.take_of_length_le]
    rw [String.length_utf8EncodeChar]
    exact c.utf8Size_le_four
  have happend : (⟨(String.utf8EncodeChar c ++ rest.take (4 - c.utf8Size)).toArray⟩ : ByteArray) =
      (String.utf8EncodeChar c).toByteArray ++ (rest.take (4 - c.utf8Size)).toByteArray := by
    rw [← List.toByteArray_append]
    exact ByteArray.ext (List.data_toByteArray ..).symm
  rw [first?, htake, happend]
  exact ByteArray.utf8DecodeChar?_utf8EncodeChar_append

theorem shownChars_append (c : Char) (rest : Bytes) :
    shownChars (String.utf8EncodeChar c ++ rest) = c :: shownChars rest := by
  have hlength := String.length_utf8EncodeChar c
  have hfirst := first?_append c rest
  cases hbytes : String.utf8EncodeChar c with
  | nil =>
    have hpos := c.utf8Size_pos
    rw [hbytes, List.length_nil] at hlength
    omega
  | cons b bs =>
    rw [hbytes, List.cons_append] at hfirst
    rw [hbytes, List.length_cons] at hlength
    rw [List.cons_append, shownChars, hfirst]
    dsimp only
    rw [List.drop_left' (by omega)]

/-- A text is shown as it is. -/
theorem shown_utf8 (s : String) : shown (utf8 s) = s := by
  have hchars : ∀ cs : List Char, shownChars (cs.flatMap String.utf8EncodeChar) = cs := by
    intro cs
    induction cs with
    | nil => rw [List.flatMap_nil, shownChars]
    | cons c cs ih => rw [List.flatMap_cons, shownChars_append, ih]
  rw [shown, utf8_eq, hchars, String.ofList_toList]

/-- Where no character can go on, one sign is shown for what there is of it. -/
example : shown [0xE2, 0x82, 0x41, 0xFF] = "\uFFFDA\uFFFD" := by cbv

end Bytes

end ContentGrammar
