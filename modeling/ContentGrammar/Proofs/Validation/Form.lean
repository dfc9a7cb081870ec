import ContentGrammar.Proofs.Validation.Outcomes

/-!
# The form of the content

Validation reports an element just when its content has not the form that is asked for. For each
element and each model that applies to it there are three cases (`Spec.Verdict`): the model cannot
be used at that place, which is a warning; it can be used, but the names of the content are not in
its language, which is a single violation; or they are in its language, and nothing is said about
the form. `validate_faithful` states that the report consists of these findings and of no others.
-/

namespace ContentGrammar

/-- The names of what counts as content of a place. -/
def Place.row (p : Place) : List String := p.content.map (·.node.name)

theorem Node.name_token? {n : Node} {t : Token} (h : n.token? = some t) : t.name = n.name := by
  cases n with
  | document ns => cases h
  | text id content =>
    rw [token?] at h
    split at h
    · cases h
    · obtain rfl := Option.some.inj h
      rfl
  | element head ns =>
    obtain rfl := Option.some.inj h
    rfl

theorem names_tokensOf_content (p : Place) : (tokensOf p.content).map Token.name = p.row := by
  rw [Place.row, Place.content, tokensOf]
  induction p.children with
  | nil => rfl
  | cons q qs ih =>
    rw [List.filter_cons]
    split
    · rename_i hq
      obtain ⟨t, ht⟩ := Option.isSome_iff_exists.mp hq
      rw [List.filterMap_cons, ht, List.map_cons, List.map_cons, Node.name_token? ht, ih]
    · exact ih

/-- What is to be found about a place with respect to a model: if the model has no pattern there, a
warning with the reason; if the content is no row that the model permits, the violation that it has
not the form of the model, and nothing else; and if it is one, no warning and no such violation. -/
def Spec.Verdict (s : Spec) (p : Place) (x : Source × Model) (o : Outcome) : Prop :=
  match s.patternOf x.2 p.above with
  | .error e => o = ⟨[], [⟨p.node.id, p.node.name, p.node.head.position, e⟩]⟩
  | .ok _ =>
    (p.row ∉ s.languageOf x.2 p.above →
      o = ⟨[⟨p.node.id, p.node.name, p.node.head.position, x.1, .form⟩], []⟩) ∧
    (p.row ∈ s.languageOf x.2 p.above →
      o.warnings = [] ∧ ∀ v ∈ o.violations, v.fault ≠ .form)

theorem Spec.verdict_found (s : Spec) (p : Place) (x : Source × Model) :
    s.Verdict p x (s.found p x) := by
  rw [Verdict, found]
  cases hq : s.patternOf x.2 p.above with
  | error e => rfl
  | ok q =>
    have hmem : (q.run? (tokensOf p.content)).isSome ↔ p.row ∈ s.languageOf x.2 p.above := by
      rw [run?_patternOf_isSome_iff hq, names_tokensOf_content]
    rw [Outcome.ofResult, Outcome.ofPattern]
    dsimp only
    cases hr : q.run? (tokensOf p.content) with
    | none =>
      rw [hr] at hmem
      refine ⟨fun _ => rfl, fun h => ?_⟩
      cases hmem.mpr h
    | some spans =>
      rw [hr] at hmem
      refine ⟨fun h => absurd (hmem.mp rfl) h, fun _ => ⟨rfl, fun v hv hform => ?_⟩⟩
      obtain ⟨b, -, rfl⟩ := List.mem_map.mp hv
      cases hform

/-- A report that says of each element, for each model that applies to it, what is to be said, and
nothing else. -/
structure Report.Faithful (s : Spec) (rules : List Rule) (d : Document) (r : Report) : Prop where
  elements : r.elements = d.elements.length
  violations : r.violations = d.elements.flatMap fun p =>
    (s.sourcesOf rules p).flatMap fun x => (s.found p x).violations
  warnings : r.warnings = d.elements.flatMap fun p =>
    (s.sourcesOf rules p).flatMap fun x => (s.found p x).warnings
  /-- The spec applies to a place if it has the tag, with the model that is active there. -/
  ofSpec : ∀ p ∈ d.elements, ∀ m, (.spec, m) ∈ s.sourcesOf rules p ↔
    ∃ t, s.tag? p.node.name = some t ∧ m = t.activeModel p.node.head p.above
  /-- A rule applies to a place if its tag is the name there, whatever the case of the letters. -/
  ofRule : ∀ p ∈ d.elements, ∀ i m, (.rule i, m) ∈ s.sourcesOf rules p ↔
    ∃ r, rules[i]? = some r ∧ Ascii.lower r.tag = Ascii.lower p.node.name ∧ m = r.model
  once : ∀ p ∈ d.elements, ((s.sourcesOf rules p).map (·.1)).Nodup
  verdict : ∀ p ∈ d.elements, ∀ x ∈ s.sourcesOf rules p, s.Verdict p x (s.found p x)
  /-- A violation names the element and the source it is about. -/
  named : ∀ p ∈ d.elements, ∀ x ∈ s.sourcesOf rules p, ∀ v ∈ (s.found p x).violations,
    v.element = p.node.id ∧ v.tag = p.node.name ∧ v.position = p.node.head.position ∧
      v.source = x.1

theorem Spec.nodup_sources {s : Spec} {rules : List Rule} {p : Place} :
    ((s.sourcesOf rules p).map (·.1)).Nodup := by
  refine List.pairwise_map.mpr (pairwise_sourcesOf.imp fun h heq => ?_)
  rcases h with ⟨hx, hy⟩ | ⟨i, j, hx, hy, hlt⟩
  · exact hy (heq ▸ hx)
  · rw [hx, hy] at heq
    exact Nat.ne_of_lt hlt (Source.rule.inj heq)

theorem Document.check_faithful {d : Document} (hd : d.Numbered) (s : Spec)
    (settings : Settings) : (d.check s settings).Faithful s settings.rules d := by
  rw [check_eq hd]
  constructor
  case elements => rfl
  case violations =>
    show (d.elements.flatMap fun p => ((s.sourcesOf _ p).map (s.found p)).flatMap _) = _
    simp only [List.flatMap_map]
  case warnings =>
    show (d.elements.flatMap fun p => ((s.sourcesOf _ p).map (s.found p)).flatMap _) = _
    simp only [List.flatMap_map]
  case ofSpec => exact fun p _ m => Spec.mem_sourcesOf_spec
  case ofRule => exact fun p _ i m => Spec.mem_sourcesOf_rule
  case once => exact fun p _ => Spec.nodup_sources
  case verdict => exact fun p _ x _ => s.verdict_found p x
  case named => exact fun p _ x _ v hv => Outcome.of_mem_violations hv

/-- Whatever spec and document, and whatever rules that name known categories only, validation gives
a report, and the report is faithful. -/
theorem validate_faithful (s : Spec) (settings : Settings) (forest : List Markup)
    (h : s.checkRules settings.rules = .ok ()) :
    ∃ report, (Document.ofMarkup forest).validate s settings = .ok report ∧
      report.Faithful s settings.rules (Document.ofMarkup forest) := by
  refine ⟨_, ?_, Document.check_faithful (Document.numbered_ofMarkup forest) s settings⟩
  rw [Document.validate, h]
  rfl

/-- A paragraph with a text in it, with a model of the spec and a rule for its tag. -/
theorem validate_faithful_paragraph :
    Spec.checkRules ⟨Dictionary.empty.insert "p" ⟨.text, []⟩, .empty⟩ [⟨"P", .any⟩] = .ok () ∧
    ∃ report, (Document.ofMarkup [.element "p" .empty [.text "x"] none]).validate
        ⟨Dictionary.empty.insert "p" ⟨.text, []⟩, .empty⟩ { rules := [⟨"P", .any⟩] } = .ok report ∧
      report.Faithful ⟨Dictionary.empty.insert "p" ⟨.text, []⟩, .empty⟩ [⟨"P", .any⟩]
        (Document.ofMarkup [.element "p" .empty [.text "x"] none]) :=
  ⟨rfl, validate_faithful ⟨Dictionary.empty.insert "p" ⟨.text, []⟩, .empty⟩
    { rules := [⟨"P", .any⟩] } [.element "p" .empty [.text "x"] none] rfl⟩

end ContentGrammar
