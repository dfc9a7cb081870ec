import ContentGrammar.Proofs.Spec.Requests
import ContentGrammar.Proofs.Validation.Marks
import ContentGrammar.Proofs.Validation.Outcomes

/-!
# Elements checked by several workers

To check an element is to ask a memo for some patterns, `requestsAt`, and to match the content of the
element against them, `outcomeOf`. `Checks` describes all the ways in which a worker can check
elements one after the other, whatever marks are given out by its memo. None of them finds anything
else than `outcomeAt` (`checks_eq`).

* `workers_report` — however the elements are shared out to workers, what they find, collected in
  document order, makes up the report that a single worker gives, and that report is in order.
-/

namespace ContentGrammar

namespace Spec

/-- What the check of a place asks for: its own pattern if the spec has its tag, then those of the
rules for it. -/
def requestsAt (s : Spec) (rules : List Rule) (p : Place) : List Request :=
  (s.tag? p.node.name).toList.map (fun _ => .ofPlace p) ++
    (rulesFor rules p.node.name).map fun r => .ofModel p r.2.model

/-- What is found about a place with the answers to its requests. -/
def outcomeOf (s : Spec) (rules : List Rule) (p : Place)
    (results : List (Except ModelError Pattern)) : Outcome :=
  .flatten (List.zipWith (fun x r => .ofResult p x.1 r) (s.sourcesOf rules p) results)

/-- How a worker may check places one after the other, with whatever marks. -/
inductive Checks (s : Spec) (rules : List Rule) : Memo → List Place → List Outcome → Memo → Prop
  | nil {memo} : Checks s rules memo [] [] memo
  | cons {memo p results memo' ps outcomes memo''} :
      s.Run memo (s.requestsAt rules p) results memo' → Checks s rules memo' ps outcomes memo'' →
      Checks s rules memo (p :: ps) (s.outcomeOf rules p results :: outcomes) memo''

variable {s : Spec} {d : Document} {rules : List Rule} {memo memo' : Memo} {p : Place}
  {ps : List Place}

/-! ## What is asked for -/

theorem place_of_mem_requestsAt {request : Request} (h : request ∈ s.requestsAt rules p) :
    request.place = p := by
  rcases List.mem_append.mp h with h | h
  · obtain ⟨t, -, rfl⟩ := List.mem_map.mp h
    rfl
  · obtain ⟨r, -, rfl⟩ := List.mem_map.mp h
    rfl

/-- The requests are for the patterns of the models that apply to the place. -/
theorem map_expected_requestsAt : (s.requestsAt rules p).map s.expected =
    (s.sourcesOf rules p).map fun x => s.patternOf x.2 p.above := by
  rw [requestsAt, sourcesOf, List.map_append, List.map_append, List.map_map, List.map_map,
    List.map_map, List.map_map]
  congr 1
  refine List.map_congr_left fun t ht => ?_
  have hmodel : s.modelOf p.node.head p.above = t.activeModel p.node.head p.above := by
    rw [modelOf, show s.tag? p.node.head.name = some t from Option.mem_toList.mp ht]
  show s.patternAt p = _
  rw [patternAt, hmodel]
  rfl

/-- Answers that are right except for their marks find what there is to find. -/
theorem outcomeOf_alike {results : List (Except ModelError Pattern)}
    (h : List.Forall₂ AlikeResult ((s.requestsAt rules p).map s.expected) results) :
    s.outcomeOf rules p results = s.outcomeAt rules p := by
  rw [map_expected_requestsAt] at h
  rw [outcomeOf, outcomeAt]
  congr 1
  generalize s.sourcesOf rules p = xs at h ⊢
  induction xs generalizing results with
  | nil => rfl
  | cons x xs ih =>
    rw [List.map_cons] at h
    cases h with
    | cons hx hxs =>
      rw [List.zipWith_cons_cons, List.map_cons, ih hxs, Outcome.ofResult_alike hx, found]

/-- A worker finds about each place what there is to find about it. -/
theorem checks_eq (hd : d.Numbered) (hm : Memo.Fits s d memo) (hps : ∀ p ∈ ps, p ∈ d.places)
    {outcomes : List Outcome} (h : s.Checks rules memo ps outcomes memo') :
    outcomes = ps.map (s.outcomeAt rules) := by
  induction h with
  | nil => rfl
  | cons hrun _ ih =>
    have hp := hps _ List.mem_cons_self
    obtain ⟨halike, hfits⟩ := run_spec hd hm (fun r hr => place_of_mem_requestsAt hr ▸ hp) hrun
    rw [List.map_cons, outcomeOf_alike halike, ih hfits fun q hq => hps q (List.mem_cons_of_mem _ hq)]

/-! ## Checking is asking -/

/-- Requests are answered one after the other, each with what the ones before have left in the memo.
-/
theorem answers_append (memo : Memo) (rs rs' : List Request) : s.answers memo (rs ++ rs') =
    ((s.answers memo rs).1 ++ (s.answers (s.answers memo rs).2 rs').1,
      (s.answers (s.answers memo rs).2 rs').2) := by
  induction rs generalizing memo with
  | nil => rfl
  | cons r rs ih =>
    rw [List.cons_append, answers, answers]
    dsimp only
    rw [ih]
    rfl

/-- The check against the spec is one request at most, and what is found with its answer. -/
theorem checkSpec_eq (memo : Memo) (p : Place) : s.checkSpec memo p =
    (.flatten (List.zipWith (fun x r => .ofResult p x.1 r)
      ((s.tag? p.node.name).toList.map fun t =>
        (Source.spec, t.activeModel p.node.head p.above))
      (s.answers memo ((s.tag? p.node.name).toList.map fun _ => .ofPlace p)).1),
      (s.answers memo ((s.tag? p.node.name).toList.map fun _ => .ofPlace p)).2) := by
  rw [checkSpec]
  cases s.tag? p.node.name with
  | none => rfl
  | some t => exact Prod.ext (Outcome.flatten_singleton _).symm rfl

/-- The check against rules is a request for each rule, and what is found with the answers. -/
theorem checkRulesAt_eq (memo : Memo) (p : Place) (rs : List (Nat × Rule)) :
    s.checkRulesAt memo p rs =
      (.flatten (List.zipWith (fun x r => .ofResult p x.1 r)
        (rs.map fun r => (Source.rule r.1, r.2.model))
        (s.answers memo (rs.map fun r => .ofModel p r.2.model)).1),
        (s.answers memo (rs.map fun r => .ofModel p r.2.model)).2) := by
  induction rs generalizing memo with
  | nil => rfl
  | cons r rs ih =>
    rw [checkRulesAt]
    dsimp only
    rw [ih]
    rfl

theorem length_answers (memo : Memo) (rs : List Request) :
    (s.answers memo rs).1.length = rs.length := by
  induction rs generalizing memo with
  | nil => rfl
  | cons r rs ih => exact congrArg (· + 1) (ih _)

/-- Checking an element is making its requests and looking at the content with the answers. -/
theorem checkNode_eq (memo : Memo) (p : Place) : s.checkNode rules memo p =
    (s.outcomeOf rules p (s.answers memo (s.requestsAt rules p)).1,
      (s.answers memo (s.requestsAt rules p)).2) := by
  rw [checkNode, checkSpec_eq]
  dsimp only
  rw [checkRulesAt_eq]
  dsimp only
  rw [Outcome.flatten_append, ← List.zipWith_append, outcomeOf, sourcesOf, requestsAt,
    answers_append]
  rw [length_answers, List.length_map, List.length_map]

/-- What `checkNodes` does is one of the ways to check. -/
theorem checks_checkNodes (s : Spec) (rules : List Rule) (memo : Memo) (ps : List Place) :
    ∃ memo', s.Checks rules memo ps (s.checkNodes rules memo ps) memo' := by
  induction ps generalizing memo with
  | nil => exact ⟨memo, .nil⟩
  | cons p ps ih =>
    rw [checkNodes, checkNode_eq]
    obtain ⟨memo', h⟩ := ih (s.answers memo (s.requestsAt rules p)).2
    exact ⟨memo', .cons (run_answers s memo _) h⟩

end Spec

/-! ## Collecting -/

/-- Elements that a worker has checked, in the order in which it checked them, and what it found
about each. -/
structure Share where
  places : List Place
  outcomes : List Outcome

/-- What workers have found, in the order of the given places. -/
def collect (shares : List Share) (ps : List Place) : List Outcome :=
  let found := shares.flatMap fun w => (w.places.map (·.node.id)).zip w.outcomes
  ps.filterMap fun p => found.lookup p.node.id

/-- What is recorded of a place is found by its number if no other place has that. -/
theorem lookup_of_mem {α : Type} {f : Place → α} {ps : List Place} {p : Place} (hp : p ∈ ps)
    (hid : ∀ q ∈ ps, q.node.id = p.node.id → q = p) :
    (ps.map fun q => (q.node.id, f q)).lookup p.node.id = some (f p) := by
  induction ps with
  | nil => cases hp
  | cons q ps ih =>
    rw [List.map_cons, List.lookup_cons]
    by_cases h : q.node.id = p.node.id
    · rw [hid q List.mem_cons_self h, beq_self_eq_true]
    · have hmem : p ∈ ps := (List.mem_cons.mp hp).resolve_left fun heq => h (heq ▸ rfl)
      rw [beq_false_of_ne (Ne.symm h)]
      exact ih hmem fun r hr => hid r (List.mem_cons_of_mem _ hr)

theorem filterMap_of_forall_some {α β : Type} {f : α → Option β} {g : α → β} {xs : List α}
    (h : ∀ x ∈ xs, f x = some (g x)) : xs.filterMap f = xs.map g := by
  rw [← List.filterMap_eq_map]
  exact List.filterMap_congr h

variable {s : Spec} {d : Document} {rules : List Rule}

/-- Whoever has checked an element and whenever, what is collected is what there is to find, in
document order. -/
theorem collect_eq (hd : d.Numbered) {shares : List Share}
    (hshares : (shares.flatMap (·.places)).Perm d.elements)
    (hchecks : ∀ w ∈ shares, ∃ memo, s.Checks rules ∅ w.places w.outcomes memo) :
    collect shares d.elements = d.elements.map (s.outcomeAt rules) := by
  have hmem : ∀ p, p ∈ shares.flatMap (·.places) → p ∈ d.places := fun p hp =>
    List.mem_of_mem_filter (hshares.mem_iff.mp hp)
  -- each worker finds what there is to find, whatever marks its memo gives out
  have hfound : (shares.flatMap fun w => (w.places.map (·.node.id)).zip w.outcomes) =
      (shares.flatMap (·.places)).map fun p => (p.node.id, s.outcomeAt rules p) := by
    rw [List.map_flatMap]
    refine List.flatMap_congr fun w hw => ?_
    obtain ⟨memo, h⟩ := hchecks w hw
    rw [Spec.checks_eq hd Spec.fits_empty
      (fun p hp => hmem p (List.mem_flatMap.mpr ⟨w, hw, hp⟩)) h, List.zip_map']
  rw [collect, hfound]
  refine filterMap_of_forall_some fun p hp => lookup_of_mem (hshares.mem_iff.mpr hp) ?_
  intro q hq hid
  exact hd.eq_of_id (hmem q hq) (hmem p (hshares.mem_iff.mpr hp)) hid

/-! ## Order -/

/-- The order of sources: the spec, then the rules by their numbers. -/
def Source.Before : Source → Source → Prop
  | .spec, .rule _ => True
  | .rule i, .rule j => i < j
  | _, .spec => False

/-- A report whose findings are in the order of the elements, and for one element in the order of the
sources that they are about. -/
structure Report.InOrder (s : Spec) (rules : List Rule) (d : Document) (r : Report) : Prop where
  violations : r.violations.Pairwise fun v w =>
    v.element < w.element ∨
      v.element = w.element ∧ (v.source = w.source ∨ v.source.Before w.source)
  warnings : r.warnings.Pairwise fun v w => v.element ≤ w.element
  violationsOf : ∀ p ∈ d.elements, r.violations.filter (fun v => v.element == p.node.id) =
    (s.sourcesOf rules p).flatMap fun x => (s.found p x).violations
  warningsOf : ∀ p ∈ d.elements, r.warnings.filter (fun w => w.element == p.node.id) =
    (s.sourcesOf rules p).flatMap fun x => (s.found p x).warnings
  sources : ∀ p ∈ d.elements, (s.sourcesOf rules p).Pairwise fun x y => x.1.Before y.1

/-- The models that apply to a place come from the spec first, and then from rules in their order.
-/
theorem Spec.before_sourcesOf (s : Spec) (rules : List Rule) (p : Place) :
    (s.sourcesOf rules p).Pairwise fun x y => x.1.Before y.1 := by
  refine pairwise_sourcesOf.imp fun {x y} h => ?_
  rcases h with ⟨hx, hy⟩ | ⟨i, j, hx, hy, hlt⟩
  · rw [hx]
    cases hsource : y.1 with
    | spec => exact absurd hsource hy
    | rule j => trivial
  · rw [hx, hy]
    exact hlt

/-- Of findings that belong to places, those of one place. -/
theorem filter_flatMap {α : Type} {ps : List Place} {f : Place → List α} {element : α → Nat}
    (hps : ps.Pairwise fun p q => p.node.id < q.node.id)
    (hf : ∀ p, ∀ a ∈ f p, element a = p.node.id) {p : Place} (hp : p ∈ ps) :
    (ps.flatMap f).filter (fun a => element a == p.node.id) = f p := by
  -- the findings of other places have other numbers
  have hothers : ∀ qs : List Place, (∀ q ∈ qs, q.node.id ≠ p.node.id) →
      (qs.flatMap f).filter (fun a => element a == p.node.id) = [] := by
    intro qs hqs
    refine List.filter_eq_nil_iff.mpr fun a ha => ?_
    obtain ⟨q, hq, ha⟩ := List.mem_flatMap.mp ha
    rw [hf q a ha, beq_iff_eq]
    exact hqs q hq
  obtain ⟨before, after, rfl⟩ := List.append_of_mem hp
  obtain ⟨-, hafter, hbefore⟩ := List.pairwise_append.mp hps
  rw [List.flatMap_append, List.flatMap_cons, List.filter_append, List.filter_append,
    hothers before fun q hq => Nat.ne_of_lt (hbefore q hq p List.mem_cons_self),
    hothers after fun q hq => Nat.ne_of_gt ((List.pairwise_cons.mp hafter).1 q hq),
    List.nil_append, List.append_nil]
  exact List.filter_eq_self.mpr fun a ha => beq_iff_eq.mpr (hf p a ha)

theorem Spec.outcomeAt_violations (s : Spec) (rules : List Rule) (p : Place) :
    (s.outcomeAt rules p).violations =
      (s.sourcesOf rules p).flatMap fun x => (s.found p x).violations := by
  rw [outcomeAt, Outcome.flatten]
  exact List.flatMap_map ..

theorem Spec.outcomeAt_warnings (s : Spec) (rules : List Rule) (p : Place) :
    (s.outcomeAt rules p).warnings =
      (s.sourcesOf rules p).flatMap fun x => (s.found p x).warnings := by
  rw [outcomeAt, Outcome.flatten]
  exact List.flatMap_map ..

/-- For one place, what is found about the spec comes first, and then what is found about the rules.
-/
theorem Spec.ordered_violations (s : Spec) (rules : List Rule) (p : Place) :
    (s.outcomeAt rules p).violations.Pairwise fun v w =>
      v.source = w.source ∨ v.source.Before w.source := by
  rw [outcomeAt_violations]
  refine List.pairwise_flatMap.mpr ⟨fun x _ => ?_, (s.before_sourcesOf rules p).imp ?_⟩
  · refine List.pairwise_of_forall_mem_list fun v hv w hw => .inl ?_
    rw [(Outcome.of_mem_violations hv).2.2.2, (Outcome.of_mem_violations hw).2.2.2]
  · intro x y h v hv w hw
    rw [(Outcome.of_mem_violations hv).2.2.2, (Outcome.of_mem_violations hw).2.2.2]
    exact .inr h

/-- The findings of a check are in order. -/
theorem Document.check_inOrder (hd : d.Numbered) (s : Spec) (settings : Settings) :
    (d.check s settings).InOrder s settings.rules d := by
  rw [check_eq hd]
  constructor
  case violations =>
    refine List.pairwise_flatMap.mpr ⟨fun p _ => ?_, hd.pairwise_elements.imp ?_⟩
    · refine (s.ordered_violations settings.rules p).imp_of_mem fun hv hw h => .inr ⟨?_, h⟩
      rw [Spec.element_of_mem_violations hv, Spec.element_of_mem_violations hw]
    · intro p q hlt v hv w hw
      rw [Spec.element_of_mem_violations hv, Spec.element_of_mem_violations hw]
      exact .inl hlt
  case warnings =>
    refine List.pairwise_flatMap.mpr ⟨fun p _ => ?_, hd.pairwise_elements.imp ?_⟩
    · refine List.pairwise_of_forall_mem_list fun v hv w hw => ?_
      rw [Spec.element_of_mem_warnings hv, Spec.element_of_mem_warnings hw]
    · intro p q hlt v hv w hw
      rw [Spec.element_of_mem_warnings hv, Spec.element_of_mem_warnings hw]
      exact Nat.le_of_lt hlt
  case violationsOf =>
    intro p hp
    rw [← Spec.outcomeAt_violations]
    exact filter_flatMap hd.pairwise_elements (fun p v => Spec.element_of_mem_violations) hp
  case warningsOf =>
    intro p hp
    rw [← Spec.outcomeAt_warnings]
    exact filter_flatMap hd.pairwise_elements (fun p w => Spec.element_of_mem_warnings) hp
  case sources => exact fun p _ => s.before_sourcesOf settings.rules p

/-- Whatever share of the elements each worker gets, in whatever order, and whatever marks its own
memo gives out, the outcomes in document order make up the report of a single worker that goes through
the document with one memo. A worker that checks its share in turn is one of these workers, and checking in batches
gives the same report as well. The findings in that report are in the order of the elements, and for
one element those about the spec come first and then those about the rules in their order. -/
theorem workers_report (s : Spec) (rules : List Rule) (forest : List Markup) :
    (∀ shares : List Share,
      (shares.flatMap (·.places)).Perm (Document.ofMarkup forest).elements →
      (∀ w ∈ shares, ∃ memo, s.Checks rules ∅ w.places w.outcomes memo) →
      Report.ofOutcomes (Document.ofMarkup forest).elements.length
          (collect shares (Document.ofMarkup forest).elements) =
        (Document.ofMarkup forest).check s { rules := rules }) ∧
    (∀ ps, ∃ memo, s.Checks rules ∅ ps (s.checkNodes rules ∅ ps) memo) ∧
    (Document.ofMarkup forest).check s { rules := rules, parallel := true } =
      (Document.ofMarkup forest).check s { rules := rules } ∧
    ((Document.ofMarkup forest).check s { rules := rules }).InOrder s rules
      (Document.ofMarkup forest) := by
  have hd := Document.numbered_ofMarkup forest
  have helements : ∀ p ∈ (Document.ofMarkup forest).elements, p ∈ (Document.ofMarkup forest).places :=
    fun p hp => List.mem_of_mem_filter hp
  refine ⟨fun shares hshares hchecks => ?_, s.checks_checkNodes rules ∅, ?_,
    Document.check_inOrder hd s { rules := rules }⟩
  · -- one worker with all the elements finds the same about each
    rw [collect_eq hd hshares hchecks, Document.check, if_neg Bool.false_ne_true,
      Spec.checkNodes_eq hd Spec.valid_empty helements]
  · rw [Document.check_eq hd, Document.check_eq hd]

/-- Two paragraphs, the second one checked by the first worker. -/
theorem workers_report_paragraphs :
    let s : Spec := ⟨Dictionary.empty.insert "p" ⟨.transparent, []⟩, .empty⟩
    let d := Document.ofMarkup [.element "p" .empty [] none, .element "p" .empty [.text "x"] none]
    let shares := d.elements.reverse.map fun p => Share.mk [p] (s.checkNodes [] ∅ [p])
    (shares.flatMap (·.places)).Perm d.elements ∧
    (∀ w ∈ shares, ∃ memo, s.Checks [] ∅ w.places w.outcomes memo) ∧
    Report.ofOutcomes d.elements.length (collect shares d.elements) = d.check s {} := by
  intro s d shares
  obtain ⟨hreport, hchecks, -⟩ := workers_report s []
    [.element "p" .empty [] none, .element "p" .empty [.text "x"] none]
  have hperm : (shares.flatMap (·.places)).Perm d.elements := by
    rw [List.flatMap_map, List.flatMap_singleton']
    exact List.reverse_perm _
  have hshares : ∀ w ∈ shares, ∃ memo, s.Checks [] ∅ w.places w.outcomes memo := by
    intro w hw
    obtain ⟨p, -, rfl⟩ := List.mem_map.mp hw
    exact hchecks [p]
  exact ⟨hperm, hshares, hreport shares hperm hshares⟩

end ContentGrammar
