import ContentGrammar.Proofs.Selector.Exactness

/-!
# Which written selectors are read

A written selector is read just if what its negations enclose has its parentheses in pairs, quotes or
not (`accepted_iff_paired`). Where it has not, the search for the end of a negation stops at another
parenthesis, and what stands before that one cannot be a compound: a scan for commas passes over every
text of the grammar and is as deep in parentheses behind it as before (`eq_of_unbroken`).
-/

namespace ContentGrammar.Selector

variable {xs ys rest rest' : List Char} {source : String}

/-! ## Where a negation may end -/

/-- A text that goes on behind the end of an enclosing parenthesis is not passed over as a whole. -/
theorem not_unbroken_append (hxs : Unbroken xs) : ¬ Unbroken (xs ++ ')' :: ys) := by
  intro h
  -- a comma behind the text is met at different depths, but the scan of `ys` begins at the same one
  have hscan : ∀ depth, splitFrom ⟨depth, none⟩ [] (xs ++ ')' :: ys ++ [',']) =
      splitFrom ⟨depth - 1, none⟩ (')' :: (xs.reverse ++ [])) (ys ++ [',']) := by
    intro depth
    rw [List.append_assoc, hxs, List.cons_append]
    simp [splitFrom, Nesting.after]
  have hsame := (hscan 0).trans (hscan 1).symm
  rw [h, h] at hsame
  simp [splitFrom, Nesting.isTop] at hsame

/-- Of two texts of the grammar which a closing parenthesis follows, none is longer. -/
theorem eq_of_unbroken (hxs : Unbroken xs) (hys : Unbroken ys)
    (h : xs ++ ')' :: rest = ys ++ ')' :: rest') : xs = ys ∧ rest = rest' := by
  rcases List.append_eq_append_iff.mp h with ⟨zs, rfl, hzs⟩ | ⟨zs, rfl, hzs⟩
  · cases zs with
    | nil => exact ⟨(List.append_nil xs).symm, (List.cons.inj hzs).2⟩
    | cons z zs =>
      obtain ⟨rfl, -⟩ := List.cons.inj hzs
      exact absurd hys (not_unbroken_append hxs)
  · cases zs with
    | nil => exact ⟨List.append_nil ys, (List.cons.inj hzs).2.symm⟩
    | cons z zs =>
      obtain ⟨rfl, -⟩ := List.cons.inj hzs
      exact absurd hxs (not_unbroken_append hys)

namespace Written

/-! ## Compounds -/

variable {c : Selector.Compound} {begun : Bool} {cs behind : List Char}

/-- Where a negation is read, its end has been found, and what is inside is a compound and nothing
else. -/
theorem ok_of_parseCompound_negation {r : Selector.Compound × List Char}
    (hnegation : negation? cs = some behind) (h : parseCompound source c begun cs = .ok r) :
    ∃ inner after negated left, closing? 0 behind = some (inner, after) ∧
      parseCompound source {} false (trim inner) = .ok (negated, left) ∧
      (trim left).isEmpty = true := by
  rw [parseCompound.eq_def] at h
  split at h
  · rename_i hcs
    rw [hnegation] at hcs
    obtain rfl := Option.some.inj hcs
    split at h
    · cases h
    · rename_i inner after hclosing
      cases hnegated : parseCompound source {} false (trim inner) with
      | error e =>
        rw [hnegated] at h
        cases h
      | ok result =>
        obtain ⟨negated, left⟩ := result
        rw [hnegated] at h
        change (if (trim left).isEmpty then _ else _) = _ at h
        split at h
        · rename_i hleft
          exact ⟨inner, after, negated, left, hclosing, hnegated, hleft⟩
        · cases h
  · rename_i hcs
    rw [hnegation] at hcs
    cases hcs

/-- What a negation is taken to enclose is a compound with blanks around it. -/
theorem unbroken_of_parseCompound {inner left : List Char} {negated : Selector.Compound}
    (h : parseCompound source {} false (trim inner) = .ok (negated, left))
    (hleft : (trim left).isEmpty = true) : Unbroken inner := by
  obtain ⟨w, hw, -⟩ := (exists_compound h).2 rfl rfl
  obtain ⟨before, after, hinner⟩ := exists_blanks_trim inner
  have hblank : Unbroken left := passes_unbroken.unmarked fun c hc =>
    isMark_of_isBlank (blank_of_trim_isEmpty hleft c hc)
  have hcompound : Unbroken w.text := passes_unbroken.compound fun p _ => p.unbroken_text
  rw [hinner, hw]
  exact ((passes_unbroken.blanks before).append (hcompound.append hblank)).append
    (passes_unbroken.blanks after)

/-- A part that the reader accepts has nothing in its negations but what is balanced. -/
def Part.Checked (p : Part) : Prop := ∀ source c begun rest r,
  parseCompound source c begun (p.text ++ rest) = .ok r → AllBalanced p.enclosed

/-- Where parts are read, what each of them encloses is balanced. -/
theorem enclosed_of_parts {ps : List Part} (hps : ∀ p ∈ ps, p.Checked)
    (hrest : Stops isWordChar rest) {r : Selector.Compound × List Char}
    (h : parseCompound source c begun (partsText ps ++ rest) = .ok r) :
    ∀ p ∈ ps, AllBalanced p.enclosed := by
  induction ps generalizing c begun with
  | nil => exact List.forall_mem_nil _
  | cons p ps ih =>
    rw [partsText, List.append_assoc] at h
    have hp := hps p List.mem_cons_self _ _ _ _ _ h
    rw [p.read hp _ _ _ _ (stops_partsText ps hrest)] at h
    exact List.forall_mem_cons.mpr ⟨hp, ih (fun q hq => hps q (List.mem_cons_of_mem _ hq)) h⟩

theorem Compound.enclosed_of {w : Compound} (hw : ∀ p ∈ w.parts, p.Checked)
    (hrest : Stops isWordChar rest) {r : Selector.Compound × List Char}
    (h : parseCompound source {} false (w.text ++ rest) = .ok r) : AllBalanced w.enclosed := by
  have hparts : ∀ p ∈ w.parts, AllBalanced p.enclosed := by
    cases w with
    | typed lead parts =>
      obtain ⟨hnegation, hs, -⟩ := lead.simple?_text (stops_partsText parts hrest)
      rw [text, List.append_assoc, parseCompound_simple hnegation hs rfl] at h
      exact enclosed_of_parts hw hrest h
    | untyped first others => exact enclosed_of_parts hw hrest h
  intro cs hcs
  obtain ⟨p, hp, hcs⟩ := mem_enclosed.mp hcs
  exact hparts p hp cs hcs

/-- Reading a compound checks what is enclosed in its parts, at any depth. -/
theorem Part.checked (p : Part) : p.Checked := by
  induction p with
  | id name | cls name | test a => exact fun _ _ _ _ _ _ => List.forall_mem_nil _
  | negation before w after ih =>
    intro source c begun rest r h
    have htext : (Part.negation before w after).text ++ rest =
        [':', 'n', 'o', 't', '('] ++ (inside before w after ++ ')' :: rest) := by
      simp [text_negation]
    rw [htext] at h
    obtain ⟨inner, after', negated, left, hclosing, hnegated, hleft⟩ :=
      ok_of_parseCompound_negation rfl h
    have hinside : Unbroken (inside before w after) :=
      passes_unbroken.inside before after fun p _ => p.unbroken_text
    -- the search has ended where the negation was written to end
    obtain ⟨rfl, rfl⟩ :=
      eq_of_unbroken hinside (unbroken_of_parseCompound hnegated hleft) (of_closing? hclosing)
    have hcounts := counts_of_closing? hclosing
    rw [inside, trim_append before after w.solid_text, ← List.append_nil w.text] at hnegated
    refine List.forall_mem_cons.mpr ⟨balanced_iff_paired.mpr ⟨hcounts.1, hcounts.2⟩, ?_⟩
    exact Compound.enclosed_of ih follows_nil.not_read.1 hnegated

/-! ## Alternatives -/

theorem ok_of_parseComplex {before : Option Selector.Complex} {joint : Combinator}
    {s : Selector.Complex} (hcs : cs ≠ []) (h : parseComplex source before joint cs = .ok s) :
    ∃ r, parseCompound source {} false cs = .ok r := by
  rw [parseComplex.eq_def, if_neg (by simpa using hcs)] at h
  split at h
  · cases h
  · rename_i hc
    exact ⟨_, hc⟩

theorem Compound.enclosed_of_parseComplex {w : Compound} {steps : List (Joint × Compound)}
    {before : Option Selector.Complex} {joint : Combinator} {s : Selector.Complex}
    (h : parseComplex source before joint (w.text ++ restText steps) = .ok s) :
    AllBalanced w.enclosed := by
  have hne : w.text ++ restText steps ≠ [] := by simp [w.text_ne_nil]
  obtain ⟨r, hr⟩ := ok_of_parseComplex hne h
  exact enclosed_of (fun p _ => p.checked) (follows_restText steps).not_read.1 hr

/-- Where an alternative is read, so are all its compounds. -/
theorem enclosed_of_steps {first : Compound} {steps : List (Joint × Compound)}
    {before : Option Selector.Complex} {joint : Combinator} {s : Selector.Complex}
    (h : parseComplex source before joint (first.text ++ restText steps) = .ok s) :
    ∀ c ∈ first :: steps.map (·.2), AllBalanced c.enclosed := by
  induction steps generalizing first before joint with
  | nil =>
    rw [List.map_nil, List.forall_mem_singleton]
    exact Compound.enclosed_of_parseComplex h
  | cons step steps ih =>
    obtain ⟨j, c⟩ := step
    have hfirst := Compound.enclosed_of_parseComplex h
    rw [parseComplex_step hfirst] at h
    exact List.forall_mem_cons.mpr ⟨hfirst, ih h⟩

theorem enclosed_of_alternatives {ws : List Complex} {ss : List Selector.Complex}
    (h : (ws.map Complex.text).mapM
      (fun piece => parseComplex source none .descendant (trim piece)) = .ok ss) :
    ∀ w ∈ ws, ∀ c ∈ w.compounds, AllBalanced c.enclosed := by
  have hall := List.forall₂_map_left_iff.mp (forall₂_of_mapM h)
  clear h
  induction hall with
  | nil => exact List.forall_mem_nil _
  | @cons w s ws ss hs _ ih =>
    have hsolid := solid_restText w.first.solid_text w.rest
    rw [Complex.text, trim_append w.before w.after hsolid] at hs
    exact List.forall_mem_cons.mpr ⟨enclosed_of_steps hs, ih⟩

/-- A written selector that is read has nothing in its negations but what is balanced. -/
theorem enclosed_of_parse {w : Written} {s : Selector} (hw : w.text = source.toList)
    (h : parse source = .ok s) : AllBalanced w.enclosed := by
  rw [parse, ← hw, w.split_text] at h
  cases hss : ((w.first :: w.rest).map Complex.text).mapM
      fun piece => parseComplex source none .descendant (trim piece) with
  | error e =>
    rw [hss] at h
    cases h
  | ok ss =>
    intro cs hcs
    obtain ⟨a, ha, hcs⟩ := List.mem_flatMap.mp hcs
    obtain ⟨c, hc, hcs⟩ := List.mem_flatMap.mp hcs
    exact enclosed_of_alternatives hss a ha c hc cs hcs

/-! ## Tests in negations -/

/-- Whether an attribute is tested in a compound, inside of so many negations. -/
inductive Compound.Shows (a : Attribute) : Nat → Compound → Prop
  | here {c : Compound} : .test a ∈ c.parts → Shows a 0 c
  | negated {c before d after depth} : .negation before d after ∈ c.parts → Shows a depth d →
      Shows a (depth + 1) c

end Written

/-- Whether a compound asks for a test of an attribute, inside of so many negations. -/
inductive Compound.Asks (t : AttributeTest) : Nat → Compound → Prop
  | here {c} : t ∈ c.attributes → Asks t 0 c
  | negated {c d depth} : d ∈ c.negations → Asks t depth d → Asks t (depth + 1) c

namespace Written

/-- The negations of parts mean what is written in them. -/
theorem mem_negationsOf {ps : List Part} {d : Selector.Compound} :
    d ∈ negationsOf ps ↔ ∃ before w after, .negation before w after ∈ ps ∧ w.meaning = d := by
  induction ps with
  | nil => simp [negationsOf]
  | cons p ps ih =>
    rw [negationsOf, List.mem_append, ih]
    cases p with
    | id name | cls name | test a => simp [Part.negated?]
    | negation before w after =>
      rw [Part.negated?, Option.toList_some, List.mem_singleton]
      simp only [List.mem_cons]
      constructor
      · rintro (rfl | ⟨before, w, after, hmem, rfl⟩)
        · exact ⟨before, w, after, .inl rfl, rfl⟩
        · exact ⟨before, w, after, .inr hmem, rfl⟩
      · rintro ⟨before, w, after, heq | hmem, rfl⟩
        · obtain ⟨rfl, rfl, rfl⟩ := Part.negation.inj heq
          exact .inl rfl
        · exact .inr ⟨before, w, after, hmem, rfl⟩

theorem Compound.mem_attributes_meaning {c : Compound} {t : AttributeTest} :
    t ∈ c.meaning.attributes ↔ ∃ a, .test a ∈ c.parts ∧ a.test = t := by
  rw [meaning_eq]
  simp only [grown, List.nil_append, List.mem_filterMap]
  constructor
  · rintro ⟨p, hp, ht⟩
    cases p with
    | id name | cls name | negation before d after => cases ht
    | test a => exact ⟨a, hp, Option.some.inj ht⟩
  · rintro ⟨a, ha, rfl⟩
    exact ⟨.test a, ha, rfl⟩

theorem Compound.mem_negations_meaning {c : Compound} {d : Selector.Compound} :
    d ∈ c.meaning.negations ↔ ∃ before w after, .negation before w after ∈ c.parts ∧ w.meaning = d := by
  rw [meaning_eq]
  exact mem_negationsOf

/-- The meaning of a compound asks for the tests that are written in it, each in as many negations. -/
theorem Compound.asks_meaning {c : Compound} {t : AttributeTest} {depth : Nat} :
    c.meaning.Asks t depth ↔ ∃ a, c.Shows a depth ∧ a.test = t := by
  constructor
  · intro h
    generalize hd : c.meaning = d at h
    induction h generalizing c with
    | here ht =>
      obtain ⟨a, ha, rfl⟩ := mem_attributes_meaning.mp (hd ▸ ht)
      exact ⟨a, .here ha, rfl⟩
    | negated hmem _ ih =>
      obtain ⟨before, w, after, hw, heq⟩ := mem_negations_meaning.mp (hd ▸ hmem)
      obtain ⟨a, ha, rfl⟩ := ih heq
      exact ⟨a, .negated hw ha, rfl⟩
  · rintro ⟨a, ha, rfl⟩
    induction ha with
    | here ha => exact .here (mem_attributes_meaning.mpr ⟨a, ha, rfl⟩)
    | negated hmem _ ih => exact .negated (mem_negations_meaning.mpr ⟨_, _, _, hmem, rfl⟩) ih

/-- A value in quotes is taken over as it is. -/
theorem Attribute.value_test {a : Attribute} {v : List Char} (h : v ∈ a.quoted?) :
    a.test.value = some (String.ofList v) := by
  obtain ⟨before, name, after, value⟩ := a
  obtain ⟨⟨gap, value, gap'⟩, rfl, hv⟩ := Option.bind_eq_some_iff.mp h
  cases value with
  | double content hc | single content hc =>
    obtain rfl := Option.some.inj hv
    rfl
  | bare word => cases hv

end Written

namespace Written

/-- No blanks. -/
def noBlanks : Blanks := ⟨[], List.forall_mem_nil _⟩

/-- The test whether `x` has a certain value, which is written in double quotes. -/
def xTest (value : List Char) (h : '"' ∉ value) : Attribute :=
  ⟨noBlanks, ⟨'x', [], rfl, List.forall_mem_nil _⟩, noBlanks,
    some (noBlanks, .double value h, noBlanks)⟩

end Written

/-- A written selector is read just if what its negations enclose has its parentheses in pairs, and it
has if that is so for the values in quotes which stand there: those outside of negations may be
anything. What is read has all the attribute tests where they were written, in as many negations, with
just the values that were in the quotes. -/
theorem accepted_iff_paired (w : Written) {source : String} (htext : w.text = source.toList) :
    ((∃ s, parse source = .ok s) ↔ ∀ cs ∈ w.enclosed, Paired cs) ∧
    ((∀ v ∈ w.quotedInside, Paired v) → ∀ cs ∈ w.enclosed, Paired cs) ∧
    ∀ s, parse source = .ok s →
      s.alternatives = (w.first :: w.rest).map Written.Complex.meaning ∧
      ∀ a ∈ w.first :: w.rest, ∀ c ∈ a.compounds, c.meaning ∈ Written.compoundsOf a.meaning ∧
        (∀ t depth, c.meaning.Asks t depth ↔ ∃ x, c.Shows x depth ∧ x.test = t) ∧
        ∀ x depth v, c.Shows x depth → v ∈ x.quoted? → x.test.value = some (String.ofList v) := by
  -- text with its parentheses in pairs is what the search for the closing one passes over
  simp only [← balanced_iff_paired]
  have hparse : (∀ cs ∈ w.enclosed, Balanced cs) → parse source = .ok ⟨trimmed source, w.meaning⟩ :=
    fun h => w.parse_balanced h htext
  refine ⟨⟨fun ⟨s, hs⟩ => Written.enclosed_of_parse htext hs, fun h => ⟨_, hparse h⟩⟩,
    Written.balanced_enclosed, fun s hs => ⟨?_, fun a _ c hc => ⟨?_, ?_, ?_⟩⟩⟩
  · rw [hparse (Written.enclosed_of_parse htext hs)] at hs
    obtain rfl := Except.ok.inj hs
    rfl
  · rw [a.compoundsOf_meaning, List.mem_reverse]
    exact List.mem_map_of_mem hc
  · exact fun t depth => Written.Compound.asks_meaning
  · exact fun x depth v _ => x.value_test

/-- Outside of the negation the value is a parenthesis by itself, inside of it they come in a pair. -/
theorem accepted_iff_paired_outside : ∃ s, parse "[x=\")\"]:not([x=\"(,)\"])" = .ok s ∧
    ∃ a ∈ s.alternatives, ∃ c ∈ Written.compoundsOf a,
      c.Asks ⟨"x", some ")"⟩ 0 ∧ c.Asks ⟨"x", some "(,)"⟩ 1 := by
  let outer := Written.xTest [')'] (by decide)
  let inner := Written.xTest ['(', ',', ')'] (by decide)
  let negated : Written.Compound := .untyped (.test inner) []
  let c : Written.Compound :=
    .untyped (.test outer) [.negation Written.noBlanks negated Written.noBlanks]
  let w : Written := ⟨⟨Written.noBlanks, c, [], Written.noBlanks⟩, []⟩
  have htext : w.text = "[x=\")\"]:not([x=\"(,)\"])".toList := by decide
  obtain ⟨haccepted, hvalues, hread⟩ := accepted_iff_paired w htext
  obtain ⟨s, hs⟩ := haccepted.mpr (hvalues (by decide))
  obtain ⟨halternatives, hall⟩ := hread s hs
  obtain ⟨hmem, hasks, -⟩ := hall w.first List.mem_cons_self c List.mem_cons_self
  have hvalue : ∀ value : Option String, AttributeTest.mk (Ascii.lower "x") value = ⟨"x", value⟩ :=
    fun value => congrArg (AttributeTest.mk · value) (by decide)
  have hnegation : .negation Written.noBlanks negated Written.noBlanks ∈ c.parts :=
    List.mem_cons_of_mem _ List.mem_cons_self
  refine ⟨s, hs, w.first.meaning, halternatives ▸ List.mem_cons_self, c.meaning, hmem, ?_, ?_⟩
  · exact (hasks _ 0).mpr ⟨outer, .here List.mem_cons_self, hvalue _⟩
  · have hshows : c.Shows inner 1 := .negated hnegation (.here List.mem_cons_self)
    exact (hasks _ 1).mpr ⟨inner, hshows, hvalue _⟩

/-- Not every written selector is read: a parenthesis in quotes may be taken for the end of a
negation. -/
theorem not_all_written_accepted : ¬ ∀ (w : Written) (source : String), w.text = source.toList →
    ∃ s, parse source = .ok s := by
  intro h
  let negated : Written.Compound := .untyped (.test (Written.xTest [')'] (by decide))) []
  let c : Written.Compound := .untyped (.negation Written.noBlanks negated Written.noBlanks) []
  let w : Written := ⟨⟨Written.noBlanks, c, [], Written.noBlanks⟩, []⟩
  have htext : w.text = (String.ofList w.text).toList := String.toList_ofList.symm
  obtain ⟨s, hs⟩ := h w _ htext
  have hbalanced := Written.enclosed_of_parse htext hs _ List.mem_cons_self
  exact absurd (balanced_iff_paired.mp hbalanced) (by decide)

end ContentGrammar.Selector
