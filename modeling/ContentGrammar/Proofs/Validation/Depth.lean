import ContentGrammar.Proofs.Validation.Namesakes

/-!
# How deep the targets of an exclusion reach

A target that is a tag or a selector reaches every depth: an element of that kind is found in a child
however far down it is. Text that is forbidden is found among the children only. A text further down
is no breach (`not_text_reported_at_depth`), though an exclusion is said to be about what is inside
of its children as well. `text_reported_as_child` says what an exclusion of text comes down to.
-/

namespace ContentGrammar

variable {p : Place} {pattern : Pattern} {spans : List Span} {mark : Nat} {x : Exclusion}
  {forbidden : List Forbidden} {c q : Place} {name : String}

/-- Whether a child is a text, or is or contains a forbidden element. -/
def Shows (forbidden : List Forbidden) (c : Place) : Prop :=
  c.IsText ∨ ∃ q, c.Contains q ∧ Forbids forbidden q

/-! ## Names of children that a region took -/

theorem Place.Took.mem (h : p.Took spans mark c) : c ∈ p.content := by
  obtain ⟨span, -, -, i, -, -, hget⟩ := h
  exact List.mem_of_getElem? hget

/-- An exclusion that is not restricted is about the names of the children that its regions took. -/
theorem concerns_iff_exists_took (hrun : pattern.run? (tokensOf p.content) = some spans)
    (hfree : x.inTransparent = false) :
    Concerns spans (tokensOf p.content) mark x name ↔
      ∃ c, p.Took spans mark c ∧ c.node.name = name := by
  refine ⟨Concerns.exists_took, ?_⟩
  rintro ⟨c, ⟨span, hspan, hmark, i, hstart, hstop, hget⟩, rfl⟩
  have hfits := (Pattern.derivation_of_run? hrun).span_bounds span hspan
  have hlength : i < (tokensOf p.content).length := by omega
  have hnames : ((tokensOf p.content).map Token.name)[i]? = p.row[i]? := by
    rw [names_tokensOf_content]
  rw [Place.row, List.getElem?_map, List.getElem?_map, hget, List.getElem?_eq_getElem hlength]
    at hnames
  refine ⟨⟨span, hspan, hmark, by omega, i, _, hstart, hstop, ?_, Option.some.inj hnames⟩, ?_⟩
  · exact List.getElem?_eq_getElem hlength
  · exact fun hrestricted => absurd (hrestricted.symm.trans hfree) Bool.noConfusion

/-! ## Children with forbidden text -/

theorem isText_or_isElement (hc : c ∈ p.content) : c.IsText ∨ c.node.isElement = true := by
  obtain ⟨n, above⟩ := c
  cases n with
  | document ns => cases (List.mem_filter.mp hc).2
  | text id content => exact .inl ⟨id, content, rfl⟩
  | element head ns => exact .inr rfl

/-- There is nothing in a text but the text itself. -/
theorem Place.IsText.not_forbids (hc : c.IsText) (hq : c.Contains q) : ¬ Forbids forbidden q := by
  obtain ⟨id, content, hnode⟩ := hc
  obtain rfl | ⟨c', hc', -⟩ := Relation.ReflTransGen.cases_head hq
  · rintro ⟨helement, -⟩
    rw [hnode] at helement
    cases helement
  · rw [Place.children, hnode] at hc'
    cases hc'

/-- Where text is forbidden, a child offends if it is a text or if a forbidden element is in it. -/
theorem offends_iff_shows (htext : .text ∈ forbidden) (hc : c ∈ p.content) :
    Offends forbidden c ↔ Shows forbidden c := by
  constructor
  · rintro (⟨htext', -⟩ | ⟨-, hq⟩)
    · exact .inl htext'
    · exact .inr hq
  · rintro (htext' | ⟨q, hq, hforbids⟩)
    · exact .inl ⟨htext', htext⟩
    · refine .inr ⟨(isText_or_isElement hc).resolve_left fun htext' => ?_, q, hq, hforbids⟩
      exact htext'.not_forbids hq hforbids

/-! ## What is reported of an exclusion of text -/

/-- Of an exclusion that forbids text, and is not restricted to what is taken over, a breach is
reported for each child in its regions that is a text, or that is or contains an element forbidden
by another target. And that is all: a breach is reported just when there is such a child with the
name of one in the regions, whatever texts are further down. -/
theorem text_reported_as_child (hrun : pattern.run? (tokensOf p.content) = some spans)
    (hx : exclusionOf? spans mark = some x) (htext : .text ∈ x.forbidden)
    (hfree : x.inTransparent = false) :
    (∀ c, p.Took spans mark c → Shows x.forbidden c →
      ∃ b ∈ breaches spans (tokensOf p.content) p.content, b.mark = mark) ∧
    ((∃ b ∈ breaches spans (tokensOf p.content) p.content, b.mark = mark) ↔
      ∃ c ∈ p.content, (∃ c', p.Took spans mark c' ∧ c'.node.name = c.node.name) ∧
        Shows x.forbidden c) := by
  have hreported : (∃ b ∈ breaches spans (tokensOf p.content) p.content, b.mark = mark) ↔
      ∃ c ∈ p.content, (∃ c', p.Took spans mark c' ∧ c'.node.name = c.node.name) ∧
        Shows x.forbidden c := by
    rw [exists_breach_iff hx]
    refine exists_congr fun c => and_congr_right fun hc => ?_
    rw [concerns_iff_exists_took hrun hfree, offends_iff_shows htext hc]
  refine ⟨fun c htook hshows => ?_, hreported⟩
  exact hreported.mpr ⟨c, htook.mem, ⟨c, htook, rfl⟩, hshows⟩

/-! ### A text in a child and one in a grandchild -/

/-- An exclusion of text. -/
def noText : Exclusion := ⟨["b"], [.text], false⟩

/-- The pattern of `b` or a text, without text. -/
def noTextPattern : Pattern :=
  .labeled (.exclusion 0 noText) (.token (.oneOf (.ofList ["#text", "b"])))

theorem text_reported_as_child_alone :
    let text : Node := .text 2 "x"
    let p : Place := ⟨.element ⟨1, "p", [], none⟩ [text], []⟩
    let spans : List Span := [⟨.exclusion 0 noText, 0, 1⟩]
    noTextPattern.run? (tokensOf p.content) = some spans ∧ exclusionOf? spans 0 = some noText ∧
      .text ∈ noText.forbidden ∧ noText.inTransparent = false ∧
      p.Took spans 0 ⟨text, [⟨1, "p", [], none⟩]⟩ ∧
      Shows noText.forbidden ⟨text, [⟨1, "p", [], none⟩]⟩ ∧
      ∃ b ∈ breaches spans (tokensOf p.content) p.content, b.mark = 0 := by
  intro text p spans
  have hrun : noTextPattern.run? (tokensOf p.content) = some spans := by cbv
  have htook : p.Took spans 0 ⟨text, [⟨1, "p", [], none⟩]⟩ :=
    ⟨_, List.mem_cons_self, List.mem_cons_self, 0, by decide, by decide, rfl⟩
  have hshows : Shows noText.forbidden ⟨text, [⟨1, "p", [], none⟩]⟩ := .inl ⟨2, "x", rfl⟩
  have hx : exclusionOf? spans 0 = some noText := rfl
  obtain ⟨hreported, -⟩ := text_reported_as_child hrun hx List.mem_cons_self rfl
  exact ⟨hrun, rfl, List.mem_cons_self, rfl, htook, hshows, hreported _ htook hshows⟩

/-- Not every child in the regions of an exclusion of text that has a text somewhere inside of it is
reported: a text in a `b` is not. -/
theorem not_text_reported_at_depth :
    ¬ ∀ (p : Place) (pattern : Pattern) (spans : List Span) (mark : Nat) (x : Exclusion),
      pattern.run? (tokensOf p.content) = some spans → exclusionOf? spans mark = some x →
      .text ∈ x.forbidden → x.inTransparent = false → ∀ c, p.Took spans mark c →
      (∃ q, c.Contains q ∧ q.IsText ∧ q.node.isContent = true) →
      ∃ b ∈ breaches spans (tokensOf p.content) p.content, b.mark = mark := by
  intro hall
  let bold : Place := ⟨.element ⟨2, "b", [], none⟩ [.text 3 "x"], [⟨1, "p", [], none⟩]⟩
  let p : Place := ⟨.element ⟨1, "p", [], none⟩ [bold.node], []⟩
  let spans : List Span := [⟨.exclusion 0 noText, 0, 1⟩]
  have hrun : noTextPattern.run? (tokensOf p.content) = some spans := by cbv
  have htook : p.Took spans 0 bold :=
    ⟨_, List.mem_cons_self, List.mem_cons_self, 0, by decide, by decide, rfl⟩
  obtain ⟨b, hb, -⟩ := hall p noTextPattern spans 0 noText hrun rfl List.mem_cons_self rfl bold htook
    ⟨_, .single List.mem_cons_self, ⟨3, "x", rfl⟩, by decide⟩
  have hnone : breaches spans (tokensOf p.content) p.content = [] := by cbv
  rw [hnone] at hb
  cases hb

end ContentGrammar
