import ContentGrammar.Proofs.Exclusion.Breaches
import ContentGrammar.Proofs.Validation.Form

/-!
# Which child a violation names

A violation of an exclusion comes from a breach: from the regions of a match of the content, and
from the first child that is concerned and offends (`Spec.Reported`, `mem_check_iff`). A child is
concerned by its name. So the child that is reported has the name of one that a region of the
exclusion took (`reported_child_has_namesake`), but it need not be that one itself
(`not_reported_child_took`): where two children have one name and only one of them is in a region,
either may be reported.
-/

namespace ContentGrammar

/-- Whether one of the regions under the exclusion of a mark took a child. -/
def Place.Took (p : Place) (spans : List Span) (mark : Nat) (c : Place) : Prop :=
  ∃ span ∈ spans, mark ∈ span.label.marks ∧
    ∃ i, span.start ≤ i ∧ i < span.stop ∧ p.content[i]? = some c

/-- Whether a violation is what is said about a breach: the regions are those of the match of the
content of `p` against a model that applies to it, and the breach is one of theirs. -/
structure Spec.Reported (s : Spec) (rules : List Rule) (d : Document) (v : Violation) (p : Place)
    (spans : List Span) (b : Breach) : Prop where
  place : p ∈ d.elements
  matched : ∃ m pattern, (v.source, m) ∈ s.sourcesOf rules p ∧
    s.patternOf m p.above = .ok pattern ∧ pattern.run? (tokensOf p.content) = some spans
  breach : b ∈ breaches spans (tokensOf p.content) p.content
  violation : v = ⟨p.node.id, p.node.name, p.node.head.position, v.source,
    .forbidden b.child.node.id b.child.node.name b.culprit.node.name b.exclusion.render⟩

variable {s : Spec} {settings : Settings} {d : Document} {p : Place} {source : Source}
  {r : Except ModelError Pattern} {v : Violation} {spans : List Span} {mark : Nat} {x : Exclusion}
  {name : String}

/-! ## Violations come from breaches -/

theorem Outcome.mem_ofResult_iff : v ∈ (ofResult p source r).violations ∧ v.fault ≠ .form ↔
    ∃ pattern spans, r = .ok pattern ∧ pattern.run? (tokensOf p.content) = some spans ∧
      ∃ b ∈ breaches spans (tokensOf p.content) p.content,
        v = ⟨p.node.id, p.node.name, p.node.head.position, source, .forbidden b.child.node.id
          b.child.node.name b.culprit.node.name b.exclusion.render⟩ := by
  cases r with
  | error e =>
    constructor
    · rintro ⟨hv, -⟩
      cases hv
    · rintro ⟨pattern, spans, hpattern, -⟩
      cases hpattern
  | ok pattern =>
    rw [ofResult, ofPattern]
    dsimp only
    cases hrun : pattern.run? (tokensOf p.content) with
    | none =>
      constructor
      · rintro ⟨hv, hfault⟩
        -- where no row is taken, nothing but the form is at fault
        rw [List.mem_singleton.mp hv] at hfault
        exact absurd rfl hfault
      · rintro ⟨pattern', spans, hpattern, hsome, -⟩
        cases hpattern
        rw [hrun] at hsome
        cases hsome
    | some spans =>
      constructor
      · rintro ⟨hv, -⟩
        obtain ⟨b, hb, rfl⟩ := List.mem_map.mp hv
        exact ⟨pattern, spans, rfl, hrun, b, hb, rfl⟩
      · rintro ⟨pattern', spans', hpattern, hsome, b, hb, rfl⟩
        cases hpattern
        obtain rfl : spans = spans' := Option.some.inj (hrun.symm.trans hsome)
        refine ⟨List.mem_map.mpr ⟨b, hb, rfl⟩, fun hform => ?_⟩
        cases hform

/-- The violations in a report, apart from those of the form, are what is said about breaches. -/
theorem Document.mem_check_iff (hd : d.Numbered) (s : Spec) (settings : Settings) :
    v ∈ (d.check s settings).violations ∧ v.fault ≠ .form ↔
      ∃ p spans b, s.Reported settings.rules d v p spans b := by
  rw [check_eq hd]
  simp only [Spec.outcomeAt, Outcome.flatten, List.mem_flatMap, List.mem_map, Spec.found]
  constructor
  · rintro ⟨⟨p, hp, o, ⟨⟨source, m⟩, hsource, rfl⟩, hv⟩, hfault⟩
    obtain ⟨pattern, spans, hpattern, hrun, b, hb, rfl⟩ := Outcome.mem_ofResult_iff.mp ⟨hv, hfault⟩
    exact ⟨p, spans, b, hp, ⟨m, pattern, hsource, hpattern, hrun⟩, hb, rfl⟩
  · rintro ⟨p, spans, b, hp, ⟨m, pattern, hsource, hpattern, hrun⟩, hb, hv⟩
    obtain ⟨hmem, hfault⟩ :=
      Outcome.mem_ofResult_iff.mpr ⟨pattern, spans, hpattern, hrun, b, hb, hv⟩
    exact ⟨⟨p, hp, _, ⟨_, hsource, rfl⟩, hmem⟩, hfault⟩

/-! ### Two children of one name, the second of which is reported -/

/-- A paragraph takes a `b` that has no `i` in it and then a `b` of any kind. -/
def twoBolds : Spec :=
  ⟨Dictionary.empty.insert "p"
      ⟨.sequence [.excluding (.tag "b") [.category "#c"], .tag "b"], []⟩,
    Dictionary.empty.insert "#c" (.singleton "i")⟩

/-- The exclusion in that model. -/
def noItalic : Exclusion := ⟨["b"], [.tag "i"], false⟩

/-- The pattern of that model. -/
def twoBoldsPattern : Pattern :=
  .sequence [.labeled (.exclusion 0 noItalic) (.token (.oneOf (.singleton "b"))),
    .token (.oneOf (.singleton "b"))]

/-- A paragraph in which only the second `b` has an `i` in it. -/
def secondItalic : List Markup :=
  [.element "p" .empty [.element "b" .empty [] none,
    .element "b" .empty [.element "i" .empty [] none] none] none]

namespace SecondItalic

def italic : Place :=
  ⟨.element ⟨4, "i", [], none⟩ [], [⟨3, "b", [], none⟩, ⟨1, "p", [], none⟩]⟩

def second : Place := ⟨.element ⟨3, "b", [], none⟩ [italic.node], [⟨1, "p", [], none⟩]⟩

def first : Place := ⟨.element ⟨2, "b", [], none⟩ [], [⟨1, "p", [], none⟩]⟩

def paragraph : Place := ⟨.element ⟨1, "p", [], none⟩ [first.node, second.node], []⟩

/-- What is reported about the paragraph. -/
def violation : Violation := ⟨1, "p", none, .spec, .forbidden 3 "b" "i" "b excluding i"⟩

/-- The region of the exclusion has the first `b` only, and yet the breach is in the second one. -/
theorem reported : twoBolds.Reported [] (.ofMarkup secondItalic) violation paragraph
    [⟨.exclusion 0 noItalic, 0, 1⟩] ⟨0, noItalic, second, italic⟩ := by
  have hrun : twoBoldsPattern.run? [.element "b", .element "b"] =
      some [⟨.exclusion 0 noItalic, 0, 1⟩] := by cbv
  constructor
  case place => exact List.mem_cons_self
  case matched =>
    exact ⟨_, twoBoldsPattern, Spec.mem_sourcesOf_spec.mpr ⟨_, rfl, rfl⟩, rfl, hrun⟩
  case breach => exact List.mem_singleton.mpr rfl
  case violation => rfl

theorem not_took : ¬ paragraph.Took [⟨.exclusion 0 noItalic, 0, 1⟩] 0 second := by
  rintro ⟨span, hspan, -, i, -, hi, hget⟩
  obtain rfl := List.mem_singleton.mp hspan
  obtain rfl : i = 0 := Nat.lt_one_iff.mp hi
  have hid : (paragraph.content[0]?).map (·.node.id) = some 3 := by
    rw [hget]
    rfl
  exact absurd hid (by decide)

theorem mem_violations :
    violation ∈ ((Document.ofMarkup secondItalic).check twoBolds {}).violations :=
  ((Document.mem_check_iff (Document.numbered_ofMarkup secondItalic) twoBolds {}).mpr
    ⟨_, _, _, reported⟩).1

end SecondItalic

/-! ## The name of the child -/

/-- A name that is concerned is the name of a child that a region took. -/
theorem Concerns.exists_took (h : Concerns spans (tokensOf p.content) mark x name) :
    ∃ c, p.Took spans mark c ∧ c.node.name = name := by
  obtain ⟨⟨span, hspan, hmark, hstop, i, t, hi, hlt, ht, rfl⟩, -⟩ := h
  have hlength : i < p.content.length := by
    rw [length_tokensOf_content] at hstop
    omega
  have hget : p.content[i]? = some p.content[i] := List.getElem?_eq_getElem hlength
  refine ⟨p.content[i], ⟨span, hspan, hmark, i, hi, hlt, hget⟩, ?_⟩
  -- tokens and children have the same names, one by one
  have hnames : ((tokensOf p.content).map Token.name)[i]? = p.row[i]? := by
    rw [names_tokensOf_content]
  rw [Place.row, List.getElem?_map, List.getElem?_map, ht, hget] at hnames
  exact (Option.some.inj hnames).symm

/-- Whatever spec, rules and document, each violation that is not one of the form is what is said
about a breach, and about whatever breach it is said, the child that it names has the name of one
that a region of the exclusion took. So a child is never reported for an exclusion whose regions
took none of its name. -/
theorem reported_child_has_namesake (s : Spec) (settings : Settings) (forest : List Markup)
    (report : Report) (h : (Document.ofMarkup forest).validate s settings = .ok report) :
    ∀ v ∈ report.violations, v.fault ≠ .form →
      (∃ p spans b, s.Reported settings.rules (.ofMarkup forest) v p spans b) ∧
      ∀ p spans b, s.Reported settings.rules (.ofMarkup forest) v p spans b →
        ∃ c, p.Took spans b.mark c ∧ c.node.name = b.child.node.name := by
  intro v hv hfault
  obtain ⟨-, rfl⟩ := Document.validate_ok_iff.mp h
  constructor
  · exact (Document.mem_check_iff (Document.numbered_ofMarkup forest) s settings).mp ⟨hv, hfault⟩
  · intro p spans b hreported
    exact (isBreach_of_mem hreported.breach).concerned.exists_took

theorem reported_child_has_namesake_second :
    (Document.ofMarkup secondItalic).validate twoBolds {} =
      .ok ((Document.ofMarkup secondItalic).check twoBolds {}) ∧
    SecondItalic.violation ∈ ((Document.ofMarkup secondItalic).check twoBolds {}).violations ∧
    SecondItalic.violation.fault ≠ .form ∧
    (∃ p spans b, twoBolds.Reported [] (.ofMarkup secondItalic) SecondItalic.violation p spans b) ∧
    ∀ p spans b, twoBolds.Reported [] (.ofMarkup secondItalic) SecondItalic.violation p spans b →
      ∃ c, p.Took spans b.mark c ∧ c.node.name = b.child.node.name :=
  ⟨rfl, SecondItalic.mem_violations, nofun,
    reported_child_has_namesake twoBolds {} secondItalic _ rfl _ SecondItalic.mem_violations nofun⟩

/-- The child that is reported need not be one that a region of the exclusion took. -/
theorem not_reported_child_took :
    ¬ ∀ (s : Spec) (settings : Settings) (forest : List Markup) (report : Report),
      (Document.ofMarkup forest).validate s settings = .ok report →
      ∀ v ∈ report.violations, ∀ p spans b,
        s.Reported settings.rules (.ofMarkup forest) v p spans b → p.Took spans b.mark b.child := by
  intro h
  have htook := h twoBolds {} secondItalic _ rfl _ SecondItalic.mem_violations _ _ _
    SecondItalic.reported
  exact SecondItalic.not_took htook

end ContentGrammar
