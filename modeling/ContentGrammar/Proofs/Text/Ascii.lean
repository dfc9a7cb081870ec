import ContentGrammar.Text.Ascii
import ContentGrammar.Text.Blank

/-!
# Making letters small

Making the capital letters of a text small is done once and for all (`lower_lower`), and it takes no
character from one class to another, so it makes no difference whether a text is trimmed before or
after that (`trimmed_lower`).
-/

namespace ContentGrammar

/-! ## Characters -/

theorem toNat_toLower (c : Char) : c.toLower.toNat =
    if 0x41 ≤ c.toNat ∧ c.toNat ≤ 0x5A then c.toNat + 0x20 else c.toNat := by
  unfold Char.toLower
  simp only [ge_iff_le, UInt32.le_iff_toNat_le, Char.toNat_val, Char.reduceVal, UInt32.reduceToNat]
  split
  · rw [← Char.toNat_val]
    simp only [UInt32.toNat_add, Char.toNat_val]
    simp
    omega
  · rfl

theorem toLower_toLower (c : Char) : c.toLower.toLower = c.toLower := by
  have hsmall := toNat_toLower c
  rw [← Char.toNat_inj, toNat_toLower c.toLower]
  split at hsmall <;> split <;> omega

theorem isBlank_toLower (c : Char) : isBlank c.toLower = isBlank c := by
  rw [isBlank, isBlank, Bool.eq_iff_iff]
  simp only [toNat_toLower, Bool.or_eq_true, Bool.and_eq_true, decide_eq_true_eq, beq_iff_eq]
  split
  · omega
  · rfl

theorem isAlphanum_toLower (c : Char) : c.toLower.isAlphanum = c.isAlphanum := by
  delta Char.isAlphanum Char.isAlpha Char.isUpper Char.isLower Char.isDigit
  rw [Bool.eq_iff_iff]
  simp only [Bool.or_eq_true, Bool.and_eq_true, decide_eq_true_eq, ge_iff_le,
    UInt32.le_iff_toNat_le, Char.toNat_val, Char.reduceToNat, toNat_toLower]
  split <;> omega

/-- No character becomes one that is before the letters but that character itself. -/
theorem toLower_eq_iff_of_lt {c d : Char} (hd : d.toNat < 0x41) : c.toLower = d ↔ c = d := by
  rw [← Char.toNat_inj, ← Char.toNat_inj, toNat_toLower]
  split <;> omega

/-! ## Texts -/

/-- A value under a name, with the name in small letters. -/
def loweredEntry {α : Type} (e : String × α) : String × α := (Ascii.lower e.1, e.2)

namespace Ascii

theorem toList_lower (s : String) : (lower s).toList = s.toList.map Char.toLower := by
  rw [lower, String.toList_ofList]

@[simp] theorem lower_lower (s : String) : lower (lower s) = lower s := by
  rw [lower, lower, String.toList_ofList, List.map_map]
  congr 1
  exact List.map_congr_left fun c _ => toLower_toLower c

theorem lower_of_mem_loweredEntry {α : Type} {es : List (String × α)} {e : String × α}
    (h : e ∈ es.map loweredEntry) : lower e.1 = e.1 := by
  obtain ⟨e', -, rfl⟩ := List.mem_map.mp h
  exact lower_lower e'.1

end Ascii

theorem map_loweredEntry_twice {α : Type} (es : List (String × α)) :
    (es.map loweredEntry).map loweredEntry = es.map loweredEntry := by
  rw [List.map_map]
  refine List.map_congr_left fun e _ => ?_
  show (Ascii.lower (Ascii.lower e.1), e.2) = (Ascii.lower e.1, e.2)
  rw [Ascii.lower_lower]

theorem trim_map_toLower (cs : List Char) : trim (cs.map Char.toLower) = (trim cs).map Char.toLower := by
  have hdrop : ∀ cs : List Char,
      (cs.map Char.toLower).dropWhile isBlank = (cs.dropWhile isBlank).map Char.toLower := by
    intro cs
    rw [List.dropWhile_map]
    congr 1
    exact congrArg (List.dropWhile · cs) (funext isBlank_toLower)
  rw [trim, trim, trimStart, trimStart, hdrop, ← List.map_reverse, hdrop, ← List.map_reverse]

theorem trimmed_lower (s : String) : trimmed (Ascii.lower s) = Ascii.lower (trimmed s) := by
  rw [trimmed, trimmed, Ascii.toList_lower, trim_map_toLower, Ascii.lower, String.toList_ofList]

end ContentGrammar
