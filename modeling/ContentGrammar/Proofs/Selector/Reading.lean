import ContentGrammar.Proofs.Selector.Parentheses

/-!
# Written selectors are read

The reader of selectors takes each text of the grammar for what it means, if what negations enclose
is balanced, as it is where there are no parentheses in quotes. What it reads at the start of a text,
a name, a part or a compound, ends where it was written to end since what may follow cannot belong to
it.
-/

namespace ContentGrammar.Selector

namespace Written

variable {cs rest : List Char} {source : String}

/-! ## Where names end -/

/-- Blanks end a name, whatever they are followed by. -/
theorem stops_blanks {p : Char → Bool} (hp : ∀ c, p c = true → isAttributeChar c = true)
    (bs : Blanks) (h : Stops p cs) : Stops p (bs.1 ++ cs) := by
  refine stops_append (fun c hc hpc => ?_) h
  have hblank := isBlank_of_isAttributeChar (hp c hpc)
  rw [bs.2 c hc] at hblank
  cases hblank

/-! ## Attribute tests -/

/-- A written value is read, in quotes or without. -/
theorem value?_text (v : Value) (h : Stops isWordChar rest) :
    value? (v.text ++ rest) = some (v.content, rest) := by
  cases v with
  | double content hc =>
    obtain ⟨hdrop, htake⟩ := dropWhile_quote hc rest
    show value? ('"' :: (content ++ ['"'] ++ rest)) = _
    rw [List.append_assoc, List.singleton_append, value?, hdrop, htake]
    rfl
  | single content hc =>
    obtain ⟨hdrop, htake⟩ := dropWhile_quote hc rest
    show value? ('\'' :: (content ++ ['\''] ++ rest)) = _
    rw [List.append_assoc, List.singleton_append, value?, hdrop, htake]
    rfl
  | bare word =>
    have hfirst := word.isWordChar_text word.first List.mem_cons_self
    -- a value without quotes begins with a character of a word, which no quote is
    have hquote : ∀ q : Char, isWordChar q = false → ∀ cs, word.text ++ rest ≠ q :: cs := by
      intro q hq cs heq
      rw [(List.cons.inj heq).1, hq] at hfirst
      cases hfirst
    show value? (word.text ++ rest) = _
    rw [value?]
    · exact run?_append (List.cons_ne_nil _ _) word.isWordChar_text h
    · exact hquote '"' rfl
    · exact hquote '\'' rfl

theorem stops_value (v : Value) (cs : List Char) : Stops isBlank (v.text ++ cs) := by
  cases v with
  | double content h => exact stops_cons.mpr (by decide)
  | single content h => exact stops_cons.mpr (by decide)
  | bare word => exact (word.solid_text word.isAttributeChar_text).stops cs

theorem stops_valueText {p : Char → Bool} (hequals : ¬p '=' = true) (hclosing : ¬p ']' = true)
    (value : Option (Blanks × Value × Blanks)) (rest : List Char) :
    Stops p (Attribute.valueText value ++ ']' :: rest) := by
  cases value with
  | none => exact stops_cons.mpr hclosing
  | some v => exact stops_cons.mpr hequals

/-- An attribute test is read up to its closing bracket. -/
theorem attribute?_inner (a : Attribute) (rest : List Char) :
    attribute? (a.inner ++ ']' :: rest) = some (a.test, rest) := by
  obtain ⟨before, name, after, value⟩ := a
  -- the name ends before blanks, before the equals sign and before the closing bracket
  have hnext : Stops isAttributeChar (Attribute.valueText value ++ ']' :: rest) :=
    stops_valueText (by decide) (by decide) value rest
  have hnonblank : Stops isBlank (Attribute.valueText value ++ ']' :: rest) :=
    stops_valueText (by decide) (by decide) value rest
  have hname := (name.solid_text (isAttributeChar_attribute name)).stops
  have hafter := stops_blanks (fun _ h => h) after hnext
  simp only [Attribute.inner, List.append_assoc]
  rw [attribute?, trimStart_append before (hname _), Name.text, List.cons_append]
  dsimp only
  rw [if_pos name.begins_first, takeWhile_append_of_stops name.goesOn_rest hafter,
    dropWhile_append_of_stops name.goesOn_rest hafter, trimStart_append after hnonblank]
  cases value with
  | none => rfl
  | some v =>
    obtain ⟨before, v, after⟩ := v
    have hvalue := stops_value v (after.1 ++ ']' :: rest)
    have hclosing : Stops isWordChar (after.1 ++ ']' :: rest) :=
      stops_blanks (fun _ => isAttributeChar_of_isWordChar) after (stops_cons.mpr (by decide))
    simp only [Attribute.valueText, List.cons_append, List.append_assoc]
    rw [trimStart_append before hvalue, value?_text v hclosing]
    dsimp only
    rw [trimStart_append after (stops_cons.mpr (by decide))]
    rfl

/-! ## Steps of the reader of compounds -/

variable {c : Selector.Compound} {begun : Bool} {s : Simple}

/-- A step of the reader over a part that is no negation. -/
theorem parseCompound_simple (hnegation : negation? cs = none) (hs : simple? cs = some (s, rest))
    (htype : (begun && s.isType) = false) :
    parseCompound source c begun cs = parseCompound source (c.add s) true rest := by
  rw [parseCompound.eq_def]
  split
  · rename_i h
    rw [hnegation] at h
    cases h
  · split
    · rename_i h
      rw [hs] at h
      obtain ⟨rfl, rfl⟩ := Prod.mk.inj (Option.some.inj h)
      rw [htype, if_neg Bool.false_ne_true]
    · rename_i h
      rw [hs] at h
      cases h

/-- A step of the reader over a negation, which has a reading of its own inside. -/
theorem parseCompound_negation {inside inner : List Char} {negated : Selector.Compound}
    (hnegation : negation? cs = some inside) (hclosing : closing? 0 inside = some (inner, rest))
    (hnegated : parseCompound source {} false (trim inner) = .ok (negated, [])) :
    parseCompound source c begun cs =
      parseCompound source { c with negations := c.negations ++ [negated] } true rest := by
  rw [parseCompound.eq_def]
  split
  · rename_i h
    rw [hnegation] at h
    obtain rfl := Option.some.inj h
    split
    · rename_i h
      rw [hclosing] at h
      cases h
    · rename_i h
      rw [hclosing] at h
      obtain ⟨rfl, rfl⟩ := Prod.mk.inj (Option.some.inj h)
      rw [hnegated]
      rfl
  · rename_i h
    rw [hnegation] at h
    cases h

/-- The reader ends where there is no part. -/
theorem parseCompound_end (hnegation : negation? cs = none) (hs : simple? cs = none) :
    parseCompound source c true cs = .ok (c, cs) := by
  rw [parseCompound.eq_def]
  split
  · rename_i h
    rw [hnegation] at h
    cases h
  · split
    · rename_i h
      rw [hs] at h
      cases h
    · rfl

theorem negation?_cons {d : Char} (h : d ≠ ':') : negation? (d :: cs) = none := by
  rw [negation?]
  rintro ds heq
  exact h (List.cons.inj heq).1

/-! ## Parts and compounds -/

theorem grown_nil (c : Selector.Compound) : grown c [] = c := by
  obtain ⟨tag, ids, classes, attributes, negations⟩ := c
  simp [grown, negationsOf]

theorem grown_cons (c : Selector.Compound) (p : Part) (ps : List Part) :
    grown c (p :: ps) = grown (grown c [p]) ps := by
  simp only [grown, negationsOf, List.filterMap_cons]
  cases p <;> simp [Part.id?, Part.class?, Part.test?, Part.negated?]

theorem grown_simple {p : Part} (h : p.simple? = some s) (c : Selector.Compound) :
    grown c [p] = c.add s := by
  cases p with
  | negation before w after => cases h
  | id name | cls name | test a =>
    obtain rfl := Option.some.inj h
    simp [grown, Selector.Compound.add, negationsOf, Part.negated?, Part.id?, Part.class?,
      Part.test?, List.filterMap_cons]

theorem grown_negation (c : Selector.Compound) (before : Blanks) (w : Compound) (after : Blanks) :
    grown c [.negation before w after] = { c with negations := c.negations ++ [w.meaning] } := by
  simp [grown, negationsOf, Part.negated?, Part.id?, Part.class?, Part.test?, List.filterMap_cons]

/-- What a compound means is made by adding its parts one by one. -/
theorem Compound.meaning_eq (w : Compound) : w.meaning = grown { tag := w.tag? } w.parts := by
  cases w <;> simp [meaning, grown, tag?, parts, negationsOf]

/-- A part is read as such, whatever precedes it. -/
def Part.Read (p : Part) : Prop := ∀ source c begun rest, Stops isWordChar rest →
  parseCompound source c begun (p.text ++ rest) = parseCompound source (grown c [p]) true rest

theorem Part.stops_text (p : Part) (rest : List Char) : Stops isWordChar (p.text ++ rest) := by
  cases p <;> exact stops_cons.mpr (by decide)

/-- No part goes on with the characters of a name. -/
theorem stops_partsText (ps : List Part) (h : Stops isWordChar rest) :
    Stops isWordChar (partsText ps ++ rest) := by
  cases ps with
  | nil => exact h
  | cons p ps =>
    rw [partsText, List.append_assoc]
    exact p.stops_text _

/-- What may follow a compound in an alternative: nothing, a blank character or `>`. -/
def Follows (cs : List Char) : Prop := ∀ c ∈ cs.head?, isBlank c = true ∨ c = '>'

theorem follows_nil : Follows [] := nofun

/-- What may follow a compound is not read as a part of it. -/
theorem Follows.not_read (h : Follows cs) :
    Stops isWordChar cs ∧ negation? cs = none ∧ simple? cs = none := by
  cases cs with
  | nil => exact ⟨nofun, rfl, rfl⟩
  | cons d ds =>
    -- nothing that the reader looks for begins with a blank character or with `>`
    have hd : ¬isAttributeChar d = true ∧ d ≠ ':' ∧ d ≠ '*' ∧ d ≠ '#' ∧ d ≠ '.' ∧ d ≠ '[' := by
      rcases h d rfl with hblank | rfl
      · refine ⟨fun hd => ?_, ?_, ?_, ?_, ?_, ?_⟩
        · rw [isBlank_of_isAttributeChar hd] at hblank
          cases hblank
        all_goals
          rintro rfl
          cases hblank
      · decide
    obtain ⟨hname, hcolon, hother⟩ := hd
    have hword : ¬isWordChar d = true := fun hd => hname (isAttributeChar_of_isWordChar hd)
    have hletter : ¬isLetter d = true := fun hd =>
      hword (isWordChar_of_isTypeChar (isTypeChar_of_isLetter hd))
    refine ⟨stops_cons.mpr hword, negation?_cons hcolon, ?_⟩
    simp only [simple?, hother, hletter, if_false]
    rfl

theorem Lead.simple?_text (lead : Lead) (h : Stops isWordChar rest) :
    negation? (lead.text ++ rest) = none ∧ simple? (lead.text ++ rest) = some (lead.simple, rest) ∧
      ({} : Selector.Compound).add lead.simple = { tag := lead.tag? } := by
  cases lead with
  | universal => exact ⟨negation?_cons (by decide), rfl, rfl⟩
  | type name =>
    have hletter := name.begins_first
    have hspecial : ∀ d, isLetter d = false → name.first ≠ d := by
      rintro d hd rfl
      rw [hd] at hletter
      cases hletter
    have htype := h.mono fun _ => isWordChar_of_isTypeChar
    refine ⟨negation?_cons (hspecial ':' rfl), ?_, rfl⟩
    rw [text, Name.text, List.cons_append, simple?, if_neg (hspecial '*' rfl),
      if_neg (hspecial '#' rfl), if_neg (hspecial '.' rfl), if_neg (hspecial '[' rfl),
      if_pos hletter, takeWhile_append_of_stops name.goesOn_rest htype,
      dropWhile_append_of_stops name.goesOn_rest htype]
    rfl

/-- A part that is no negation is read as a simple selector. -/
theorem Part.simple?_text {p : Part} (hs : p.simple? = some s) (h : Stops isWordChar rest) :
    negation? (p.text ++ rest) = none ∧ Selector.simple? (p.text ++ rest) = some (s, rest) ∧
      s.isType = false := by
  -- a name is read up to what follows the part
  have hname : ∀ name : Word, run? isWordChar (name.text ++ rest) = some (name.text, rest) :=
    fun name => run?_append (List.cons_ne_nil _ _) name.isWordChar_text h
  cases p with
  | id name =>
    obtain rfl := Option.some.inj hs
    refine ⟨negation?_cons (by decide), ?_, rfl⟩
    rw [text, List.cons_append, Selector.simple?, if_neg (by decide), if_pos rfl, hname]
    rfl
  | cls name =>
    obtain rfl := Option.some.inj hs
    refine ⟨negation?_cons (by decide), ?_, rfl⟩
    rw [text, List.cons_append, Selector.simple?, if_neg (by decide), if_neg (by decide),
      if_pos rfl, hname]
    rfl
  | test a =>
    obtain rfl := Option.some.inj hs
    refine ⟨negation?_cons (by decide), ?_, rfl⟩
    rw [text, a.text_eq, List.cons_append, List.append_assoc, Selector.simple?,
      if_neg (by decide), if_neg (by decide), if_neg (by decide), if_pos rfl,
      List.singleton_append, attribute?_inner]
    rfl
  | negation before w after => cases hs

/-- The reader adds the written parts one by one and ends behind them. -/
theorem parseCompound_parts {ps : List Part} (hps : ∀ p ∈ ps, p.Read) (h : Follows rest)
    (source : String) (c : Selector.Compound) :
    parseCompound source c true (partsText ps ++ rest) = .ok (grown c ps, rest) := by
  obtain ⟨hstops, hnegation, hsimple⟩ := h.not_read
  induction ps generalizing c with
  | nil =>
    rw [grown_nil]
    exact parseCompound_end hnegation hsimple
  | cons p ps ih =>
    rw [partsText, List.append_assoc, hps p List.mem_cons_self _ _ _ _ (stops_partsText ps hstops),
      ih (fun q hq => hps q (List.mem_cons_of_mem _ hq)), ← grown_cons]

theorem Compound.read {w : Compound} (hw : ∀ p ∈ w.parts, p.Read) (h : Follows rest)
    (source : String) : parseCompound source {} false (w.text ++ rest) = .ok (w.meaning, rest) := by
  have hstops := h.not_read.1
  rw [meaning_eq]
  cases w with
  | typed lead parts =>
    obtain ⟨hnegation, hs, hadd⟩ := lead.simple?_text (stops_partsText parts hstops)
    rw [text, List.append_assoc, parseCompound_simple hnegation hs rfl, hadd]
    exact parseCompound_parts hw h source _
  | untyped first others =>
    rw [text, List.append_assoc,
      hw first List.mem_cons_self _ _ _ _ (stops_partsText others hstops),
      parseCompound_parts (fun p hp => hw p (List.mem_cons_of_mem _ hp)) h, ← grown_cons]
    rfl

/-- Every part is read, if what negations in it enclose is balanced. -/
theorem Part.read (p : Part) (h : AllBalanced p.enclosed) : p.Read := by
  have hsimple : ∀ {p : Part} {s : Simple}, p.simple? = some s → p.Read := by
    intro p s hs source c begun rest hrest
    obtain ⟨hnegation, htext, htype⟩ := simple?_text hs hrest
    rw [parseCompound_simple hnegation htext (by rw [htype, Bool.and_false]), grown_simple hs]
  -- only a negation has parts in it, which are read by induction
  induction p with
  | id name => exact hsimple rfl
  | cls name => exact hsimple rfl
  | test a => exact hsimple rfl
  | negation before w after ih =>
    intro source c begun rest hrest
    have htext : (Part.negation before w after).text ++ rest =
        [':', 'n', 'o', 't', '('] ++ (inside before w after ++ ')' :: rest) := by
      simp [text_negation]
    have hclosing := (h _ List.mem_cons_self).closing?_zero rest
    have hparts : ∀ p ∈ w.parts, p.Read := fun p hp =>
      ih p hp fun cs hcs => h cs (List.mem_cons_of_mem _ (Compound.mem_enclosed.mpr ⟨p, hp, hcs⟩))
    -- trimming what is between the parentheses leaves the compound, which is read to its end
    have hnegated : parseCompound source {} false (trim (inside before w after)) =
        .ok (w.meaning, []) := by
      rw [inside, trim_append before after w.solid_text, ← List.append_nil w.text]
      exact Compound.read hparts follows_nil source
    rw [htext, parseCompound_negation rfl hclosing hnegated, grown_negation]

theorem Compound.parseCompound_text {w : Compound} (hw : AllBalanced w.enclosed) (h : Follows rest)
    (source : String) : parseCompound source {} false (w.text ++ rest) = .ok (w.meaning, rest) :=
  Compound.read (fun p hp => p.read fun cs hcs => hw cs (mem_enclosed.mpr ⟨p, hp, hcs⟩)) h source

/-! ## Alternatives -/

/-- The alternative with the compound `c` to the right of what is there before it. -/
def joined (before : Option Selector.Complex) (joint : Combinator) (c : Selector.Compound) :
    Selector.Complex :=
  match before with
  | none => ⟨c, []⟩
  | some b => ⟨c, (joint, b.subject) :: b.context⟩

variable {before : Option Selector.Complex} {joint : Combinator} {left after : List Char}

theorem parseComplex_nil (source : String) (s : Selector.Complex) (joint : Combinator) :
    parseComplex source (some s) joint [] = .ok s := by
  rw [parseComplex.eq_def]
  rfl

/-- A step over a compound that has a `>` behind it. -/
theorem parseComplex_child (hcs : cs ≠ []) (hc : parseCompound source {} false cs = .ok (c, left))
    (hleft : trimStart left = '>' :: after) (hafter : trimStart after ≠ []) :
    parseComplex source before joint cs =
      parseComplex source (some (joined before joint c)) .child (trimStart after) := by
  rw [parseComplex.eq_def, if_neg (by simpa using hcs)]
  split
  · rename_i h
    rw [hc] at h
    cases h
  · rename_i h
    rw [hc] at h
    obtain ⟨rfl, rfl⟩ := Prod.mk.inj (Except.ok.inj h)
    dsimp only
    split
    · rename_i h
      rw [hleft] at h
      obtain ⟨-, rfl⟩ := List.cons.inj h
      rw [if_neg (by simpa using hafter)]
      rfl
    · rename_i h
      exact absurd hleft (h _)

/-- A step over a compound with blanks or nothing behind it. -/
theorem parseComplex_descendant (hcs : cs ≠ [])
    (hc : parseCompound source {} false cs = .ok (c, left)) (hleft : trimStart left = rest)
    (hrest : rest.head? ≠ some '>') (hgap : rest = [] ∨ rest.length < left.length) :
    parseComplex source before joint cs =
      parseComplex source (some (joined before joint c)) .descendant rest := by
  rw [parseComplex.eq_def, if_neg (by simpa using hcs)]
  split
  · rename_i h
    rw [hc] at h
    cases h
  · rename_i h
    rw [hc] at h
    obtain ⟨rfl, rfl⟩ := Prod.mk.inj (Except.ok.inj h)
    dsimp only
    split
    · rename_i h
      rw [hleft] at h
      rw [h] at hrest
      exact absurd rfl hrest
    · rw [hleft, if_pos (by simpa using hgap)]
      rfl

theorem Compound.text_ne_nil (c : Compound) : c.text ≠ [] := by
  obtain ⟨⟨d, hd, -⟩, -⟩ := c.solid_text
  rintro h
  rw [h] at hd
  cases hd

theorem Compound.head?_text (c : Compound) (cs : List Char) : (c.text ++ cs).head? ≠ some '>' := by
  cases c with
  | typed lead parts =>
    cases lead with
    | universal => exact nofun
    | type name =>
      intro h
      have hfirst : name.first = '>' := Option.some.inj h
      have hletter := name.begins_first
      rw [hfirst] at hletter
      cases hletter
  | untyped first rest => cases first <;> exact nofun

theorem restText_cons (j : Joint) (c : Compound) (steps : List (Joint × Compound)) :
    restText ((j, c) :: steps) = j.text ++ (c.text ++ restText steps) := by
  rw [restText, List.flatMap_cons, List.append_assoc]
  rfl

/-- Behind a compound comes nothing or what joins it to the next one. -/
theorem follows_restText (steps : List (Joint × Compound)) : Follows (restText steps) := by
  cases steps with
  | nil => exact follows_nil
  | cons step steps =>
    obtain ⟨j, c⟩ := step
    rw [restText_cons]
    cases j with
    | child before after =>
      obtain ⟨before, hbefore⟩ := before
      cases before with
      | nil =>
        rintro d hd
        exact .inr (Option.some.inj hd).symm
      | cons b bs =>
        rintro d hd
        exact .inl ((Option.some.inj hd) ▸ hbefore b List.mem_cons_self)
    | descendant gap hgap =>
      obtain ⟨gap, hblank⟩ := gap
      cases gap with
      | nil => exact absurd rfl hgap
      | cons b bs =>
        rintro d hd
        exact .inl ((Option.some.inj hd) ▸ hblank b List.mem_cons_self)

/-- Reading a compound makes what was read so far the context of the next one. -/
theorem parseComplex_step {first : Compound} (hfirst : AllBalanced first.enclosed) (source : String)
    (before : Option Selector.Complex) (joint : Combinator) (j : Joint) (c : Compound)
    (steps : List (Joint × Compound)) :
    parseComplex source before joint (first.text ++ restText ((j, c) :: steps)) =
      parseComplex source (some (joined before joint first.meaning)) j.combinator
        (c.text ++ restText steps) := by
  have hcompound := first.parseCompound_text hfirst (follows_restText ((j, c) :: steps)) source
  have hne : first.text ++ restText ((j, c) :: steps) ≠ [] := by simp [first.text_ne_nil]
  have hstops := c.solid_text.stops (restText steps)
  cases j with
  | child before after =>
    have hleft : trimStart (restText ((.child before after, c) :: steps)) =
        '>' :: (after.1 ++ (c.text ++ restText steps)) := by
      rw [restText_cons, Joint.text, List.append_assoc, List.cons_append]
      exact trimStart_append before (stops_cons.mpr (by decide))
    have hnext : c.text ++ restText steps ≠ [] := by simp [c.text_ne_nil]
    have hafter := trimStart_append after hstops
    rw [parseComplex_child hne hcompound hleft (by rwa [hafter]), hafter]
    rfl
  | descendant gap hgap =>
    have hleft : trimStart (restText ((.descendant gap hgap, c) :: steps)) =
        c.text ++ restText steps := by
      rw [restText_cons]
      exact trimStart_append gap hstops
    have hshorter : (c.text ++ restText steps).length <
        (restText ((.descendant gap hgap, c) :: steps)).length := by
      have := List.length_pos_iff.mpr hgap
      simp only [restText_cons, Joint.text, List.length_append]
      omega
    exact parseComplex_descendant hne hcompound hleft (c.head?_text _) (.inr hshorter)

/-- Written compounds are read to the end, each joined to those before it. -/
theorem parseComplex_text {first : Compound} {steps : List (Joint × Compound)}
    (hfirst : AllBalanced first.enclosed) (hsteps : ∀ step ∈ steps, AllBalanced step.2.enclosed)
    (source : String) (before : Option Selector.Complex) (joint : Combinator) :
    parseComplex source before joint (first.text ++ restText steps) =
      .ok (extended (joined before joint first.meaning) steps) := by
  induction steps generalizing first before joint with
  | nil =>
    have hcompound := first.parseCompound_text hfirst follows_nil source
    have hne : first.text ++ [] ≠ [] := by simpa using first.text_ne_nil
    exact (parseComplex_descendant hne hcompound rfl nofun (.inl rfl)).trans
      (parseComplex_nil source _ _)
  | cons step steps ih =>
    obtain ⟨j, c⟩ := step
    have hc : AllBalanced c.enclosed := hsteps (j, c) List.mem_cons_self
    rw [parseComplex_step hfirst, ih hc fun step hstep => hsteps step (List.mem_cons_of_mem _ hstep)]
    rfl

/-! ## Selectors -/

/-- An alternative is read, with the blanks around it taken off. -/
theorem Complex.parseComplex_trim (w : Complex) (hw : ∀ c ∈ w.compounds, AllBalanced c.enclosed)
    (source : String) : parseComplex source none .descendant (trim w.text) = .ok w.meaning := by
  have hsolid := solid_restText w.first.solid_text w.rest
  rw [text, trim_append w.before w.after hsolid]
  refine parseComplex_text (hw _ List.mem_cons_self) (fun step hstep => ?_) source none _
  exact hw _ (List.mem_cons_of_mem _ (List.mem_map_of_mem hstep))

/-- Alternatives are read one by one. -/
theorem mapM_parseComplex {ws : List Complex}
    (hws : ∀ w ∈ ws, ∀ c ∈ w.compounds, AllBalanced c.enclosed) (source : String) :
    (ws.map Complex.text).mapM (fun piece => parseComplex source none .descendant (trim piece)) =
      .ok (ws.map Complex.meaning) := by
  induction ws with
  | nil => rfl
  | cons w ws ih =>
    rw [List.map_cons, List.mapM_cons, w.parseComplex_trim (hws w List.mem_cons_self),
      ih fun v hv => hws v (List.mem_cons_of_mem _ hv)]
    rfl

/-- A written selector is split at the commas between its alternatives. -/
theorem split_text (w : Written) : split w.text = (w.first :: w.rest).map Complex.text := by
  rw [text, List.map_cons, ← split_joined _ _ w.first.unbroken_text]
  · rw [List.flatMap_map]
  · intro cs hcs
    obtain ⟨v, -, rfl⟩ := List.mem_map.mp hcs
    exact v.unbroken_text

/-- A written selector is read as what it means, if what negations enclose is balanced. -/
theorem parse_balanced (w : Written) (hw : AllBalanced w.enclosed) (h : w.text = source.toList) :
    parse source = .ok ⟨trimmed source, w.meaning⟩ := by
  have hbalanced : ∀ v ∈ w.first :: w.rest, ∀ c ∈ v.compounds, AllBalanced c.enclosed :=
    fun v hv c hc cs hcs =>
      hw cs (List.mem_flatMap.mpr ⟨v, hv, List.mem_flatMap.mpr ⟨c, hc, hcs⟩⟩)
  rw [parse, ← h, w.split_text, mapM_parseComplex hbalanced]
  rfl

/-- A written selector is read as what it means, if there are no parentheses in quotes. -/
theorem parse_text (w : Written) (hw : Plain w.quoted) (h : w.text = source.toList) :
    parse source = .ok ⟨trimmed source, w.meaning⟩ :=
  w.parse_balanced (balanced_enclosed hw.balanced_quotedInside) h

end Written

end ContentGrammar.Selector
