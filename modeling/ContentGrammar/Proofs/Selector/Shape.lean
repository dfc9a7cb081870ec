import ContentGrammar.Proofs.Selector.Scanning

/-!
# What written selectors look like

Texts of the grammar begin and end with characters that are not blank, are passed over as a whole
by a scan for commas, and have balanced parentheses unless there are some in quotes. The last two
are properties that pass to longer texts (`Passes`), so a compound has them if its parts have them.
-/

namespace ContentGrammar.Selector

/-! ## Classes of characters -/

section Characters

variable {c : Char}

theorem toNat_of_isBlank (h : isBlank c = true) : c.toNat ≤ 0x20 ∨ 0x85 ≤ c.toNat := by
  simp only [isBlank, Bool.or_eq_true, Bool.and_eq_true, decide_eq_true_eq, beq_iff_eq] at h
  omega

theorem toNat_of_isAttributeChar (h : isAttributeChar c = true) :
    c.toNat = 0x2D ∨ c.toNat = 0x2E ∨ (0x30 ≤ c.toNat ∧ c.toNat ≤ 0x3A) ∨
      (0x41 ≤ c.toNat ∧ c.toNat ≤ 0x5A) ∨ c.toNat = 0x5F ∨ (0x61 ≤ c.toNat ∧ c.toNat ≤ 0x7A) := by
  delta isAttributeChar Char.isAlphanum Char.isAlpha Char.isUpper Char.isLower Char.isDigit at h
  simp only [Bool.or_eq_true, Bool.and_eq_true, decide_eq_true_eq, beq_iff_eq, ge_iff_le,
    UInt32.le_iff_toNat_le, ← Char.toNat_inj, Char.toNat_val, Char.reduceToNat] at h
  omega

theorem toNat_of_isMark (h : isMark c = true) :
    (0x27 ≤ c.toNat ∧ c.toNat ≤ 0x2C) ∨ c.toNat = 0x22 ∨ c.toNat = 0x5B ∨ c.toNat = 0x5D := by
  simp only [isMark, Bool.or_eq_true, beq_iff_eq] at h
  rcases h with (((((rfl | rfl) | rfl) | rfl) | rfl) | rfl) | rfl <;> decide

theorem isMark_of_isBlank (h : isBlank c = true) : isMark c = false := by
  refine Bool.eq_false_iff.mpr fun hmark => ?_
  have := toNat_of_isBlank h
  have := toNat_of_isMark hmark
  omega

/-- The characters of names mean nothing to the scans. -/
theorem isMark_of_isAttributeChar (h : isAttributeChar c = true) : isMark c = false := by
  refine Bool.eq_false_iff.mpr fun hmark => ?_
  have := toNat_of_isAttributeChar h
  have := toNat_of_isMark hmark
  omega

theorem isBlank_of_isAttributeChar (h : isAttributeChar c = true) : isBlank c = false := by
  refine Bool.eq_false_iff.mpr fun hblank => ?_
  have := toNat_of_isAttributeChar h
  have := toNat_of_isBlank hblank
  omega

theorem isAttributeChar_of_isWordChar (h : isWordChar c = true) : isAttributeChar c = true := by
  simp only [isWordChar, isAttributeChar, Bool.or_eq_true] at h ⊢
  grind

theorem isWordChar_of_isTypeChar (h : isTypeChar c = true) : isWordChar c = true := by
  simp only [isTypeChar, isWordChar, Bool.or_eq_true] at h ⊢
  grind

theorem isTypeChar_of_isLetter (h : isLetter c = true) : isTypeChar c = true := by
  simp only [isLetter, isTypeChar, Char.isAlphanum, Bool.or_eq_true] at h ⊢
  exact .inl (.inl h)

theorem isAttributeChar_of_isAttributeStart (h : isAttributeStart c = true) :
    isAttributeChar c = true := by
  simp only [isAttributeStart, isAttributeChar, Char.isAlphanum, Bool.or_eq_true] at h ⊢
  grind

end Characters

namespace Written

variable {begins goesOn : Char → Bool}

/-- What holds of all characters with which a name may begin or go on holds of all in it. -/
theorem Name.forall_text (n : Name begins goesOn) {P : Char → Prop}
    (hbegins : ∀ c, begins c = true → P c) (hgoesOn : ∀ c, goesOn c = true → P c) :
    ∀ c ∈ n.text, P c := by
  intro c hc
  rcases List.mem_cons.mp hc with rfl | hc
  · exact hbegins _ n.begins_first
  · exact hgoesOn c (n.goesOn_rest c hc)

theorem Word.isWordChar_text (n : Word) : ∀ c ∈ n.text, isWordChar c = true :=
  n.forall_text (fun _ h => h) fun _ h => h

theorem Word.isAttributeChar_text (n : Word) : ∀ c ∈ n.text, isAttributeChar c = true :=
  fun c hc => isAttributeChar_of_isWordChar (n.isWordChar_text c hc)

theorem isAttributeChar_attribute (n : Name isAttributeStart isAttributeChar) :
    ∀ c ∈ n.text, isAttributeChar c = true :=
  n.forall_text (fun _ => isAttributeChar_of_isAttributeStart) fun _ h => h

theorem isAttributeChar_type (n : Name isLetter isTypeChar) :
    ∀ c ∈ n.text, isAttributeChar c = true :=
  n.forall_text
    (fun _ h => isAttributeChar_of_isWordChar (isWordChar_of_isTypeChar (isTypeChar_of_isLetter h)))
    fun _ h => isAttributeChar_of_isWordChar (isWordChar_of_isTypeChar h)

/-! ## Ends of texts -/

theorem Name.solid_text (n : Name begins goesOn) (h : ∀ c ∈ n.text, isAttributeChar c = true) :
    Solid n.text := by
  have hne : n.text ≠ [] := List.cons_ne_nil _ _
  refine ⟨⟨n.first, rfl, isBlank_of_isAttributeChar (h _ List.mem_cons_self)⟩,
    n.text.getLast hne, List.getLast?_eq_some_getLast hne, ?_⟩
  exact isBlank_of_isAttributeChar (h _ (List.getLast_mem hne))

theorem Lead.solid_text (l : Lead) : Solid l.text := by
  cases l with
  | universal => exact ⟨⟨'*', rfl, rfl⟩, '*', rfl, rfl⟩
  | type name => exact name.solid_text (isAttributeChar_type name)

/-- What stands between the brackets of an attribute test. -/
def Attribute.inner (a : Attribute) : List Char :=
  a.before.1 ++ (a.name.text ++ (a.after.1 ++ valueText a.value?))

/-- An attribute test is written in brackets. -/
theorem Attribute.text_eq (a : Attribute) : a.text = '[' :: (a.inner ++ [']']) := by
  simp [text, inner]

/-- What stands between the parentheses of a negation. -/
def inside (before : Blanks) (c : Compound) (after : Blanks) : List Char :=
  before.1 ++ c.text ++ after.1

/-- A negation is written in parentheses behind its name. -/
theorem text_negation (before : Blanks) (c : Compound) (after : Blanks) :
    (Part.negation before c after).text =
      [':', 'n', 'o', 't'] ++ '(' :: (inside before c after ++ [')']) := by
  simp [Part.text, inside]

/-- A part begins and ends with characters that are not blank. -/
theorem Part.solid_text (p : Part) : Solid p.text := by
  cases p with
  | id name | cls name => exact (name.solid_text name.isAttributeChar_text).cons (by decide)
  | test a =>
    rw [text, a.text_eq]
    exact Solid.wrap (by decide) (by decide) _
  | negation before c after =>
    rw [text_negation]
    exact Solid.wrap (by decide) (by decide) (['n', 'o', 't', '('] ++ inside before c after)

theorem solid_partsText {xs : List Char} (h : Solid xs) (ps : List Part) :
    Solid (xs ++ partsText ps) := by
  induction ps generalizing xs with
  | nil => rwa [partsText, List.append_nil]
  | cons p ps ih =>
    rw [partsText, ← List.append_assoc]
    exact ih (h.append p.solid_text [])

/-- A compound begins and ends with characters that are not blank. -/
theorem Compound.solid_text (c : Compound) : Solid c.text := by
  cases c with
  | typed lead parts => exact solid_partsText lead.solid_text parts
  | untyped first rest => exact solid_partsText first.solid_text rest

theorem solid_restText {xs : List Char} (h : Solid xs) (rest : List (Joint × Compound)) :
    Solid (xs ++ restText rest) := by
  induction rest generalizing xs with
  | nil => rwa [restText, List.flatMap_nil, List.append_nil]
  | cons step rest ih =>
    obtain ⟨j, c⟩ := step
    rw [restText, List.flatMap_cons, ← List.append_assoc]
    exact ih (h.append c.solid_text j.text)

/-! ## Properties that pass to longer texts -/

/-- A property that passes to longer texts, and holds of texts without marks. -/
structure Passes (P : List Char → Prop) : Prop where
  append : ∀ {xs ys}, P xs → P ys → P (xs ++ ys)
  unmarked : ∀ {cs}, (∀ c ∈ cs, isMark c = false) → P cs

theorem passes_unbroken : Passes Unbroken := ⟨Unbroken.append, unbroken_of_forall⟩

theorem passes_balanced : Passes Balanced := by
  refine ⟨Balanced.append, fun h => balanced_of_forall fun c hc => ?_⟩
  have hmark := h c hc
  constructor <;> rintro rfl <;> cases hmark

section Passes

variable {P : List Char → Prop} (hP : Passes P)

include hP

theorem Passes.blanks (bs : Blanks) : P bs.1 :=
  hP.unmarked fun c hc => isMark_of_isBlank (bs.2 c hc)

theorem Passes.cons {c : Char} {cs : List Char} (hc : isMark c = false) (h : P cs) : P (c :: cs) := by
  have hsingle : P [c] := hP.unmarked fun d hd => List.mem_singleton.mp hd ▸ hc
  exact hP.append hsingle h

/-- Names have each property that passes to longer texts. -/
theorem Passes.name {cs : List Char} (h : ∀ c ∈ cs, isAttributeChar c = true) : P cs :=
  hP.unmarked fun c hc => isMark_of_isAttributeChar (h c hc)

/-- What stands between brackets has such a property if the value has it. -/
theorem Passes.inner (a : Attribute) (h : ∀ v, a.value? = some v → P v.2.1.text) : P a.inner := by
  have hvalue : P (Attribute.valueText a.value?) := by
    cases hv : a.value? with
    | none => exact hP.unmarked (List.forall_mem_nil _)
    | some v =>
      have hcontent := hP.append (hP.blanks v.1) (hP.append (h v hv) (hP.blanks v.2.2))
      exact hP.cons (by decide) hcontent
  exact hP.append (hP.blanks a.before) <|
    hP.append (hP.name (isAttributeChar_attribute a.name)) <| hP.append (hP.blanks a.after) hvalue

/-- A compound has such a property if its parts have it. -/
theorem Passes.compound {c : Compound} (h : ∀ p ∈ c.parts, P p.text) : P c.text := by
  have hparts : ∀ {ps : List Part}, (∀ p ∈ ps, P p.text) → P (partsText ps) := by
    intro ps hps
    induction ps with
    | nil => exact hP.unmarked (List.forall_mem_nil _)
    | cons p ps ih =>
      exact hP.append (hps p List.mem_cons_self) (ih fun q hq => hps q (List.mem_cons_of_mem _ hq))
  cases c with
  | typed lead parts =>
    refine hP.append ?_ (hparts h)
    cases lead with
    | universal => exact hP.unmarked (by simp [Lead.text, isMark])
    | type name => exact hP.name (isAttributeChar_type name)
  | untyped first rest => exact hparts h

theorem Passes.inside (before after : Blanks) {c : Compound} (h : ∀ p ∈ c.parts, P p.text) :
    P (inside before c after) :=
  hP.append (hP.append (hP.blanks before) (hP.compound h)) (hP.blanks after)

end Passes

theorem Value.unbroken_text (v : Value) : Unbroken v.text := by
  cases v with
  | double content h => exact unbroken_quoted (.inl rfl) h
  | single content h => exact unbroken_quoted (.inr rfl) h
  | bare word => exact passes_unbroken.name word.isAttributeChar_text

/-- No comma in a part ends an alternative. -/
theorem Part.unbroken_text (p : Part) : Unbroken p.text := by
  induction p with
  | id name | cls name =>
    exact passes_unbroken.cons (by decide) (passes_unbroken.name name.isAttributeChar_text)
  | test a =>
    rw [text, a.text_eq]
    exact (passes_unbroken.inner a fun v _ => v.2.1.unbroken_text).enclosed (.inr rfl) (.inr rfl)
  | negation before c after ih =>
    rw [text_negation]
    refine passes_unbroken.append (passes_unbroken.unmarked (by simp [isMark])) ?_
    exact (passes_unbroken.inside before after ih).enclosed (.inl rfl) (.inl rfl)

/-- No comma in an alternative ends it. -/
theorem Complex.unbroken_text (w : Complex) : Unbroken w.text := by
  have hcompound : ∀ c : Compound, Unbroken c.text := fun c =>
    passes_unbroken.compound fun p _ => p.unbroken_text
  have hjoint : ∀ j : Joint, Unbroken j.text := by
    intro j
    cases j with
    | child before after =>
      refine passes_unbroken.append (passes_unbroken.blanks before) ?_
      exact passes_unbroken.cons (by decide) (passes_unbroken.blanks after)
    | descendant gap _ => exact passes_unbroken.blanks gap
  have hrest : Unbroken (restText w.rest) := by
    rw [restText]
    induction w.rest with
    | nil => exact unbroken_nil
    | cons step rest ih =>
      rw [List.flatMap_cons]
      exact ((hjoint step.1).append (hcompound step.2)).append ih
  exact ((passes_unbroken.blanks w.before).append ((hcompound w.first).append hrest)).append
    (passes_unbroken.blanks w.after)

/-! ## Parentheses -/

theorem quotedAll_eq_flatMap (ps : List Part) : quotedAll ps = ps.flatMap Part.quoted := by
  induction ps with
  | nil => rfl
  | cons p ps ih => rw [quotedAll, ih, List.flatMap_cons]

theorem Compound.quoted_eq (c : Compound) : c.quoted = c.parts.flatMap Part.quoted := by
  cases c with
  | typed lead parts => exact quotedAll_eq_flatMap parts
  | untyped first rest => exact congrArg (first.quoted ++ ·) (quotedAll_eq_flatMap rest)

theorem Compound.mem_quoted {c : Compound} {p : Part} (hp : p ∈ c.parts) {v : List Char}
    (hv : v ∈ p.quoted) : v ∈ c.quoted := by
  rw [c.quoted_eq]
  exact List.mem_flatMap.mpr ⟨p, hp, hv⟩

/-- Of an attribute test only a value in quotes can have parentheses. -/
theorem Attribute.balanced_inner (a : Attribute) (h : ∀ v ∈ a.quoted?, Balanced v) :
    Balanced a.inner := by
  refine passes_balanced.inner a fun v hv => ?_
  have hquotes : ∀ {q : Char} {content : List Char}, q ≠ '(' → q ≠ ')' → Balanced content →
      Balanced (q :: (content ++ [q])) := by
    intro q content hopening hclosing hcontent
    have hquote : Balanced [q] := balanced_of_forall (by simp [hopening, hclosing])
    exact hquote.append (hcontent.append hquote)
  have hvalue : ∀ content ∈ v.2.1.quoted?, Balanced content := by
    intro content hcontent
    refine h content ?_
    rwa [quoted?, hv, Option.bind_some]
  cases hw : v.2.1 with
  | double content hc =>
    exact hquotes (by decide) (by decide) (hvalue content (by rw [hw]; rfl))
  | single content hc =>
    exact hquotes (by decide) (by decide) (hvalue content (by rw [hw]; rfl))
  | bare word => exact passes_balanced.name word.isAttributeChar_text

/-- A text is balanced if the values in quotes are balanced that are in it. -/
theorem Part.balanced_text (p : Part) (h : ∀ v ∈ p.quoted, Balanced v) : Balanced p.text := by
  induction p with
  | id name | cls name =>
    exact passes_balanced.cons (by decide) (passes_balanced.name name.isAttributeChar_text)
  | test a =>
    rw [text, a.text_eq]
    have hopening : Balanced ['['] := balanced_of_forall (by simp)
    have hclosing : Balanced [']'] := balanced_of_forall (by simp)
    have hinner := a.balanced_inner fun v hv => h v (Option.mem_toList.mpr hv)
    exact hopening.append (hinner.append hclosing)
  | negation before c after ih =>
    rw [text_negation]
    refine passes_balanced.append (passes_balanced.unmarked (by simp [isMark])) (Balanced.parens ?_)
    exact passes_balanced.inside before after fun p hp =>
      ih p hp fun v hv => h v (Compound.mem_quoted hp hv)

theorem balanced_inside (before after : Blanks) {c : Compound} (h : ∀ v ∈ c.quoted, Balanced v) :
    Balanced (inside before c after) :=
  passes_balanced.inside before after fun p hp =>
    p.balanced_text fun v hv => h v (Compound.mem_quoted hp hv)

end Written

end ContentGrammar.Selector
