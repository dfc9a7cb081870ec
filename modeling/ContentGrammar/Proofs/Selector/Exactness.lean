import ContentGrammar.Proofs.Results
import ContentGrammar.Proofs.Selector.Quotes

/-!
# What is read was written

Whatever the reader of selectors accepts is a text of the grammar, and it is read as what it means
(`exists_written`). Together with the other direction, `parse_text`, this says that the reader and
the grammar agree on every text that has no parentheses in quotes (`parse_exact`).
-/

namespace ContentGrammar.Selector

namespace Written

variable {cs rest left : List Char} {source : String}

/-! ## Simple selectors -/

theorem exists_word {name : List Char} (h : run? isWordChar cs = some (name, rest)) :
    ∃ n : Word, cs = n.text ++ rest ∧ n.text = name := by
  obtain ⟨hcs, hne, hword⟩ := of_run? h
  cases name with
  | nil => exact absurd rfl hne
  | cons c ds =>
    refine ⟨⟨c, ds, hword c List.mem_cons_self, fun d hd => ?_⟩, hcs, rfl⟩
    exact hword d (List.mem_cons_of_mem _ hd)

theorem exists_value {content : List Char} (h : value? cs = some (content, rest)) :
    ∃ v : Value, cs = v.text ++ rest ∧ v.content = content := by
  unfold value? at h
  split at h
  · split at h
    · rename_i hdrop
      obtain ⟨rfl, rfl⟩ := Prod.mk.inj (Option.some.inj h)
      obtain ⟨hcs, hq⟩ := of_dropWhile_quote hdrop
      refine ⟨.double _ hq, ?_, rfl⟩
      rw [Value.text, List.cons_append, List.append_assoc, List.singleton_append, ← hcs]
    · cases h
  · split at h
    · rename_i hdrop
      obtain ⟨rfl, rfl⟩ := Prod.mk.inj (Option.some.inj h)
      obtain ⟨hcs, hq⟩ := of_dropWhile_quote hdrop
      refine ⟨.single _ hq, ?_, rfl⟩
      rw [Value.text, List.cons_append, List.append_assoc, List.singleton_append, ← hcs]
    · cases h
  · obtain ⟨n, hcs, hname⟩ := exists_word h
    exact ⟨.bare n, hcs, hname⟩

theorem exists_attribute {t : AttributeTest} (h : attribute? cs = some (t, rest)) :
    ∃ a : Attribute, cs = a.inner ++ ']' :: rest ∧ a.test = t := by
  obtain ⟨before, hbefore⟩ := exists_blanks_trimStart cs
  rw [attribute?] at h
  split at h
  · cases h
  · rename_i c ds hstart
    rw [hstart] at hbefore
    split at h
    · rename_i hc
      obtain ⟨after, hafter⟩ := exists_blanks_trimStart (ds.dropWhile isAttributeChar)
      have hds := (List.takeWhile_append_dropWhile (p := isAttributeChar) (l := ds)).symm
      rw [hafter] at hds
      -- the name goes on as long as there are characters of names
      let name : Name isAttributeStart isAttributeChar :=
        ⟨c, ds.takeWhile isAttributeChar, hc, fun _ hd => List.mem_takeWhile_imp hd⟩
      split at h
      · rename_i hrest
        obtain ⟨rfl, rfl⟩ := Prod.mk.inj (Option.some.inj h)
        refine ⟨⟨before, name, after, none⟩, ?_, rfl⟩
        rw [hbefore, hds, hrest]
        simp [Attribute.inner, Attribute.valueText, Name.text, name]
      · rename_i es hrest
        split at h
        · cases h
        · rename_i content fs hvalue
          obtain ⟨gap, hgap⟩ := exists_blanks_trimStart es
          obtain ⟨v, hv, rfl⟩ := exists_value hvalue
          obtain ⟨last, hlast⟩ := exists_blanks_trimStart fs
          split at h
          · rename_i hclosing
            obtain ⟨rfl, rfl⟩ := Prod.mk.inj (Option.some.inj h)
            refine ⟨⟨before, name, after, some (gap, v, last)⟩, ?_, rfl⟩
            rw [hbefore, hds, hrest, hgap, hv, hlast, hclosing]
            simp [Attribute.inner, Attribute.valueText, Name.text, name]
          · cases h
      · cases h
    · cases h

theorem exists_simple {s : Simple} (h : simple? cs = some (s, rest)) :
    (∃ lead : Lead, cs = lead.text ++ rest ∧ lead.simple = s) ∨
      ∃ p : Part, cs = p.text ++ rest ∧ p.simple? = some s := by
  unfold simple? at h
  split at h
  · cases h
  · rename_i c ds
    split at h
    · rename_i hc
      obtain ⟨rfl, rfl⟩ := Prod.mk.inj (Option.some.inj h)
      exact .inl ⟨.universal, by rw [hc]; rfl, rfl⟩
    split at h
    · rename_i hc
      obtain ⟨⟨name, rest'⟩, hrun, heq⟩ := Option.map_eq_some_iff.mp h
      obtain ⟨rfl, rfl⟩ := Prod.mk.inj heq
      obtain ⟨n, hds, rfl⟩ := exists_word hrun
      exact .inr ⟨.id n, by rw [hc, hds]; rfl, rfl⟩
    split at h
    · rename_i hc
      obtain ⟨⟨name, rest'⟩, hrun, heq⟩ := Option.map_eq_some_iff.mp h
      obtain ⟨rfl, rfl⟩ := Prod.mk.inj heq
      obtain ⟨n, hds, rfl⟩ := exists_word hrun
      exact .inr ⟨.cls n, by rw [hc, hds]; rfl, rfl⟩
    split at h
    · rename_i hc
      obtain ⟨⟨test, rest'⟩, htest, heq⟩ := Option.map_eq_some_iff.mp h
      obtain ⟨rfl, rfl⟩ := Prod.mk.inj heq
      obtain ⟨a, hds, rfl⟩ := exists_attribute htest
      refine .inr ⟨.test a, ?_, rfl⟩
      rw [hc, hds, Part.text, a.text_eq, List.cons_append, List.append_assoc,
        List.singleton_append]
    split at h
    · rename_i hc
      obtain ⟨rfl, rfl⟩ := Prod.mk.inj (Option.some.inj h)
      refine .inl ⟨.type ⟨c, ds.takeWhile isTypeChar, hc, fun _ hd => List.mem_takeWhile_imp hd⟩,
        ?_, rfl⟩
      rw [Lead.text, Name.text, List.cons_append, List.takeWhile_append_dropWhile]
    · cases h

/-! ## Compounds -/

theorem of_negation? {inside : List Char} (h : negation? cs = some inside) :
    cs = [':', 'n', 'o', 't', '('] ++ inside := by
  unfold negation? at h
  split at h
  · obtain rfl := Option.some.inj h
    rfl
  · cases h

/-- Parts that go on a compound are the parts of one if it was not begun. -/
theorem exists_of_part {c d : Selector.Compound} {begun : Bool} {p : Part} {ps : List Part}
    (hcs : cs = p.text ++ (partsText ps ++ rest)) (hd : d = grown (grown c [p]) ps) :
    (begun = true → ∃ ps : List Part, cs = partsText ps ++ rest ∧ d = grown c ps) ∧
      (begun = false → c = {} → ∃ w : Compound, cs = w.text ++ rest ∧ d = w.meaning) := by
  rw [← grown_cons] at hd
  rw [← List.append_assoc] at hcs
  refine ⟨fun _ => ⟨p :: ps, hcs, hd⟩, fun _ hempty => ⟨.untyped p ps, hcs, ?_⟩⟩
  rw [hd, hempty, Compound.meaning_eq]
  rfl

/-- What the reader takes for a compound, or for the rest of one that is begun, is written so. -/
theorem exists_compound {c d : Selector.Compound} {begun : Bool}
    (h : parseCompound source c begun cs = .ok (d, rest)) :
    (begun = true → ∃ ps : List Part, cs = partsText ps ++ rest ∧ d = grown c ps) ∧
      (begun = false → c = {} → ∃ w : Compound, cs = w.text ++ rest ∧ d = w.meaning) := by
  -- the first claim is for the parts after the first, and gives the second for all of them
  fun_induction parseCompound source c begun cs generalizing d rest with
  | case1 => cases h
  | case2 c begun cs inside hn inner after hc ih1 ih2 =>
    cases hnegated : parseCompound source {} false (trim inner) with
    | error e =>
      rw [hnegated] at h
      cases h
    | ok result =>
      obtain ⟨negated, left⟩ := result
      rw [hnegated] at h
      change (if (trim left).isEmpty then _ else _) = _ at h
      split at h
      · rename_i hleft
        obtain ⟨w, hw, rfl⟩ := (ih1 hnegated).2 rfl rfl
        obtain ⟨ps, hps, rfl⟩ := (ih2 _ h).1 rfl
        obtain ⟨before, last, hinner⟩ := exists_blanks_trim inner
        -- what is left of the inside is blank
        have hblank : ∀ e ∈ left ++ last.1, isBlank e = true := by
          intro e he
          rcases List.mem_append.mp he with he | he
          · exact blank_of_trim_isEmpty hleft e he
          · exact last.2 e he
        have hcs : cs =
            (Part.negation before w ⟨_, hblank⟩).text ++ (partsText ps ++ rest) := by
          rw [of_negation? hn, of_closing? hc, hps, hinner, hw, Part.text]
          simp
        exact exists_of_part hcs (by rw [grown_negation])
      · cases h
  | case3 c cs hn s after hs htype => cases h
  | case4 c begun cs hn s after hs htype ih =>
    obtain ⟨ps, hps, rfl⟩ := (ih h).1 rfl
    rcases exists_simple hs with ⟨lead, hcs, rfl⟩ | ⟨p, hcs, hp⟩
    · have hlead : lead.simple.isType = true := by cases lead <;> rfl
      rw [hlead, Bool.and_true] at htype
      refine ⟨fun hbegun => absurd hbegun htype, fun _ hempty => ⟨.typed lead ps, ?_, ?_⟩⟩
      · rw [Compound.text, List.append_assoc, hcs, hps]
      · have hadd : ({} : Selector.Compound).add lead.simple = { tag := lead.tag? } := by
          cases lead <;> rfl
        rw [Compound.meaning_eq, hempty, hadd]
        rfl
    · rw [hps] at hcs
      exact exists_of_part hcs (by rw [grown_simple hp])
  | case5 c cs hn hs =>
    obtain ⟨rfl, rfl⟩ := Prod.mk.inj (Except.ok.inj h)
    exact ⟨fun _ => ⟨[], rfl, (grown_nil c).symm⟩, fun hbegun => absurd hbegun (by decide)⟩
  | case6 => cases h

/-! ## Alternatives -/

/-- What the reader takes for the rest of an alternative is written so: either nothing is left, or
there are further compounds. -/
theorem exists_steps {before : Option Selector.Complex} {joint : Combinator} {s : Selector.Complex}
    (h : parseComplex source before joint cs = .ok s) : (cs = [] ∧ before = some s) ∨
      ∃ (first : Compound) (steps : List (Joint × Compound)) (after : Blanks),
        cs = first.text ++ restText steps ++ after.1 ∧
          s = extended (joined before joint first.meaning) steps := by
  fun_induction parseComplex source before joint cs with
  | case1 => cases h
  | case2 joint cs hcs before =>
    obtain rfl := Except.ok.inj h
    exact .inl ⟨List.isEmpty_iff.mp hcs, rfl⟩
  | case3 => cases h
  | case4 => cases h
  | case5 before joint cs hcs c left hc next after hleft after' hafter ih =>
    -- a `>` between blanks joins the compound to the next one
    obtain ⟨w, hw, rfl⟩ := (exists_compound hc).2 rfl rfl
    rcases ih h with ⟨hnil, -⟩ | ⟨first, steps, last, hnext, rfl⟩
    · exact absurd (List.isEmpty_iff.mpr hnil) hafter
    · obtain ⟨gap, hgap⟩ := exists_blanks_trimStart left
      obtain ⟨gap', hgap'⟩ := exists_blanks_trimStart after
      refine .inr ⟨w, (.child gap gap', first) :: steps, last, ?_, rfl⟩
      rw [hw, hgap, hleft, hgap', show trimStart after = _ from hnext, restText_cons, Joint.text]
      simp
  | case6 before joint cs hcs c left hc next hleft hgap ih =>
    obtain ⟨w, hw, rfl⟩ := (exists_compound hc).2 rfl rfl
    obtain ⟨gap, hsplit⟩ := exists_blanks_trimStart left
    rcases ih h with ⟨hnil, hs⟩ | ⟨first, steps, last, hnext, rfl⟩
    · obtain rfl := Option.some.inj hs
      refine .inr ⟨w, [], gap, ?_, rfl⟩
      rw [hnil, List.append_nil] at hsplit
      rw [hw, hsplit]
      simp [restText]
    -- without blanks nothing would join the next compound to this one, and reading it would fail
    · have hne : gap.1 ≠ [] := by
        intro hnil
        rw [hnil, List.nil_append] at hsplit
        rw [← hsplit, hsplit, hnext] at hgap
        simp [first.text_ne_nil] at hgap
      refine .inr ⟨w, (.descendant gap hne, first) :: steps, last, ?_, rfl⟩
      rw [hw, hsplit, hnext, restText_cons, Joint.text]
      simp
  | case7 => cases h

theorem exists_alternative {piece : List Char} {s : Selector.Complex}
    (h : parseComplex source none .descendant (trim piece) = .ok s) :
    ∃ w : Complex, piece = w.text ∧ s = w.meaning := by
  obtain ⟨before, after, hpiece⟩ := exists_blanks_trim piece
  rcases exists_steps h with ⟨-, hnone⟩ | ⟨first, steps, last, htrim, rfl⟩
  · cases hnone
  · have hblank : ∀ c ∈ last.1 ++ after.1, isBlank c = true := by
      intro c hc
      exact (List.mem_append.mp hc).elim (last.2 c) (after.2 c)
    refine ⟨⟨before, first, steps, ⟨_, hblank⟩⟩, ?_, rfl⟩
    rw [hpiece, htrim, Complex.text]
    simp

theorem exists_alternatives {pieces : List (List Char)} {ss : List Selector.Complex}
    (h : pieces.mapM (fun piece => parseComplex source none .descendant (trim piece)) = .ok ss) :
    ∃ ws : List Complex, pieces = ws.map Complex.text ∧ ss = ws.map Complex.meaning := by
  have hall := forall₂_of_mapM h
  clear h
  induction hall with
  | nil => exact ⟨[], rfl, rfl⟩
  | cons hs _ ih =>
    obtain ⟨w, rfl, rfl⟩ := exists_alternative hs
    obtain ⟨ws, rfl, rfl⟩ := ih
    exact ⟨w :: ws, rfl, rfl⟩

/-- Whatever is read as a selector is written so. -/
theorem exists_written {s : Selector} (h : parse source = .ok s) :
    ∃ w : Written, w.text = source.toList ∧ s = ⟨trimmed source, w.meaning⟩ := by
  rw [parse] at h
  cases hss : (split source.toList).mapM fun piece =>
      parseComplex source none .descendant (trim piece) with
  | error e =>
    rw [hss] at h
    cases h
  | ok ss =>
    rw [hss] at h
    obtain rfl := Except.ok.inj h
    obtain ⟨ws, hws, rfl⟩ := exists_alternatives hss
    obtain ⟨first, others, hsplit, hsource⟩ := of_split source.toList
    rw [hsplit] at hws
    cases ws with
    | nil => cases hws
    | cons w ws =>
      obtain ⟨rfl, rfl⟩ := List.cons.inj hws
      refine ⟨⟨w, ws⟩, ?_, rfl⟩
      rw [hsource, text, List.flatMap_map]

end Written

/-- The reader and the grammar agree. A text is read as a selector if and only if it is a text of the
grammar, and then as what it means there, with whatever blanks and quotes it is written; and each way
to write the alternatives that were read is read as these again. This is said of texts in which no
value in quotes has a parenthesis, since the end of a negation is looked for without regard to
quotes. -/
theorem parse_exact (source : String)
    (hplain : ∀ w : Written, w.text = source.toList → Written.Plain w.quoted) :
    (∀ s, parse source = .ok s ↔
      ∃ w : Written, w.text = source.toList ∧ s = ⟨trimmed source, w.meaning⟩) ∧
    ∀ s, parse source = .ok s → ∀ w : Written, w.meaning = s.alternatives →
      parse (String.ofList w.text) =
        .ok ⟨trimmed (String.ofList w.text), s.alternatives⟩ := by
  refine ⟨fun s => ⟨Written.exists_written, ?_⟩, ?_⟩
  · rintro ⟨w, htext, rfl⟩
    exact w.parse_text (hplain w htext) htext
  -- what else has the meaning has the same values in quotes, so no parentheses there either
  · intro s hs w hmeaning
    obtain ⟨v, htext, rfl⟩ := Written.exists_written hs
    have hw : Written.Plain w.quoted := (hplain v htext).of_meaning hmeaning
    rw [w.parse_text hw String.toList_ofList.symm, hmeaning]

/-- A comma in quotes does not separate alternatives, and a negation may be written with blanks. -/
theorem parse_exact_negation :
    let source := "UL > .x:not( [title='a, b'] ), *"
    (∀ w : Written, w.text = source.toList → Written.Plain w.quoted) ∧
    parse source = .ok ⟨source,
      [⟨{ classes := ["x"], negations := [{ attributes := [⟨"title", some "a, b"⟩] }] },
        [(.child, { tag := some "ul" })]⟩, ⟨{}, []⟩]⟩ := by
  intro source
  have hplain : ∀ w : Written, w.text = source.toList → Written.Plain w.quoted := by
    intro w hw
    rw [← w.quotesFrom_text, hw]
    show ∀ v ∈ Written.quotesFrom none source.toList, '(' ∉ v ∧ ')' ∉ v
    decide
  let blank : Written.Blanks := ⟨[' '], by simp [isBlank]⟩
  let nothing : Written.Blanks := ⟨[], List.forall_mem_nil _⟩
  let test : Written.Attribute :=
    ⟨nothing, ⟨'t', ['i', 't', 'l', 'e'], rfl, List.all_eq_true.mp rfl⟩, nothing,
      some (nothing, .single ['a', ',', ' ', 'b'] (by decide), nothing)⟩
  let w : Written :=
    ⟨⟨nothing, .typed (.type ⟨'U', ['L'], rfl, List.all_eq_true.mp rfl⟩) [],
      [(.child blank blank, .untyped (.cls ⟨'x', [], rfl, List.forall_mem_nil _⟩)
        [.negation blank (.untyped (.test test) []) blank])], nothing⟩,
      [⟨blank, .typed .universal [], [], nothing⟩]⟩
  have htext : w.text = source.toList := by decide
  have hsource : trimmed source = source := by decide
  have hmeaning : w.meaning =
      [⟨{ classes := ["x"], negations := [{ attributes := [⟨"title", some "a, b"⟩] }] },
        [(.child, { tag := some "ul" })]⟩, ⟨{}, []⟩] := by
    have hul : Ascii.lower (String.ofList ['U', 'L']) = "ul" := by decide
    have htitle : Ascii.lower (String.ofList ['t', 'i', 't', 'l', 'e']) = "title" := by decide
    rw [← hul, ← htitle]
    rfl
  have hparse := ((parse_exact source hplain).1 _).mpr ⟨w, htext, rfl⟩
  rw [hsource, hmeaning] at hparse
  exact ⟨hplain, hparse⟩

end ContentGrammar.Selector
