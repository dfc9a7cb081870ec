import ContentGrammar.Proofs.Spec.Inheritance
import ContentGrammar.Validation

/-!
# What is found, without memo and order

What is found about a place depends on the place alone: it is checked against the models that apply
to it, `sourcesOf`, each with the pattern that it has there. So elements can be checked in any
batches, with any memo that holds patterns of places (`checkNodes_eq`, `checkBatches_eq`), and since
they come in the order of their numbers, putting the findings in order changes nothing (`check_eq`).
-/

namespace ContentGrammar

namespace Outcome

/-- What is found in several goes, one after the other. -/
def flatten (os : List Outcome) : Outcome :=
  ⟨os.flatMap (·.violations), os.flatMap (·.warnings)⟩

theorem append_flatten (o : Outcome) (os : List Outcome) :
    o.append (flatten os) = flatten (o :: os) := rfl

/-- Outcomes can be put together in parts. -/
theorem flatten_append (os others : List Outcome) :
    (flatten os).append (flatten others) = flatten (os ++ others) := by
  rw [append, flatten, flatten, flatten, List.flatMap_append, List.flatMap_append]

theorem flatten_singleton (o : Outcome) : flatten [o] = o := by
  rw [flatten, List.flatMap_singleton, List.flatMap_singleton]

/-- Each finding names the place and the model it is about. -/
theorem of_mem_violations {p : Place} {source : Source} {r : Except ModelError Pattern}
    {v : Violation} (h : v ∈ (ofResult p source r).violations) :
    v.element = p.node.id ∧ v.tag = p.node.name ∧ v.position = p.node.head.position ∧
      v.source = source := by
  cases r with
  | error e => cases h
  | ok q =>
    rw [ofResult, ofPattern] at h
    dsimp only at h
    split at h
    · obtain rfl := List.mem_singleton.mp h
      exact ⟨rfl, rfl, rfl, rfl⟩
    · obtain ⟨b, -, rfl⟩ := List.mem_map.mp h
      exact ⟨rfl, rfl, rfl, rfl⟩

/-- Each warning names the place that it is about. -/
theorem of_mem_warnings {p : Place} {source : Source} {r : Except ModelError Pattern}
    {w : Warning} (h : w ∈ (ofResult p source r).warnings) :
    w.element = p.node.id ∧ w.tag = p.node.name ∧ w.position = p.node.head.position := by
  cases r with
  | error e =>
    obtain rfl := List.mem_singleton.mp h
    exact ⟨rfl, rfl, rfl⟩
  | ok q =>
    rw [ofResult, ofPattern] at h
    dsimp only at h
    split at h <;> cases h

end Outcome

namespace Spec

/-- The models that a place is checked against and where they are from: the one that the spec has
for it, if it has one, and those of the rules for its tag, in the order of the rules. -/
def sourcesOf (s : Spec) (rules : List Rule) (p : Place) : List (Source × Model) :=
  (s.tag? p.node.name).toList.map (fun t => (.spec, t.activeModel p.node.head p.above)) ++
    (rulesFor rules p.node.name).map fun r => (.rule r.1, r.2.model)

/-- What is found about a place with respect to one model. -/
def found (s : Spec) (p : Place) (x : Source × Model) : Outcome :=
  .ofResult p x.1 (s.patternOf x.2 p.above)

/-- What is found about a place. -/
def outcomeAt (s : Spec) (rules : List Rule) (p : Place) : Outcome :=
  .flatten ((s.sourcesOf rules p).map (s.found p))

variable {s : Spec} {d : Document} {rules : List Rule} {memo : Memo} {p : Place}
  {ps : List Place}

/-! ## Sources -/

/-- The rules for a name are those that apply to it, with their numbers. -/
theorem mem_rulesFor {name : String} {i : Nat} {r : Rule} :
    (i, r) ∈ rulesFor rules name ↔ rules[i]? = some r ∧ r.appliesTo name = true := by
  rw [rulesFor, List.mem_filter, List.mem_map]
  refine and_congr_left fun _ => ?_
  constructor
  · rintro ⟨⟨r', j⟩, hmem, heq⟩
    obtain ⟨rfl, rfl⟩ := Prod.mk.inj heq
    exact List.mem_zipIdx_iff_getElem?.mp hmem
  · intro hr
    exact ⟨(r, i), List.mem_zipIdx_iff_getElem?.mpr hr, rfl⟩

/-- The spec has a model for a place if it declares the tag, and it is the one that is active there.
-/
theorem mem_sourcesOf_spec {m : Model} : (.spec, m) ∈ s.sourcesOf rules p ↔
    ∃ t, s.tag? p.node.name = some t ∧ m = t.activeModel p.node.head p.above := by
  rw [sourcesOf, List.mem_append, List.mem_map, List.mem_map]
  constructor
  · rintro (⟨t, ht, heq⟩ | ⟨r, -, heq⟩)
    · exact ⟨t, Option.mem_toList.mp ht, (Prod.mk.inj heq).2.symm⟩
    · cases (Prod.mk.inj heq).1
  · rintro ⟨t, ht, rfl⟩
    exact .inl ⟨t, Option.mem_toList.mpr ht, rfl⟩

/-- A rule has a model for a place if its tag is that of the place, whatever the case of letters. -/
theorem mem_sourcesOf_rule {i : Nat} {m : Model} : (.rule i, m) ∈ s.sourcesOf rules p ↔
    ∃ r, rules[i]? = some r ∧ Ascii.lower r.tag = Ascii.lower p.node.name ∧ m = r.model := by
  rw [sourcesOf, List.mem_append, List.mem_map, List.mem_map]
  constructor
  · rintro (⟨t, -, heq⟩ | ⟨⟨j, r⟩, hr, heq⟩)
    · cases (Prod.mk.inj heq).1
    · obtain ⟨hi, rfl⟩ := Prod.mk.inj heq
      obtain rfl := Source.rule.inj hi
      obtain ⟨hget, happlies⟩ := mem_rulesFor.mp hr
      exact ⟨r, hget, Ascii.same_iff.mp happlies, rfl⟩
  · rintro ⟨r, hget, happlies, rfl⟩
    exact .inr ⟨(i, r), mem_rulesFor.mpr ⟨hget, Ascii.same_iff.mpr happlies⟩, rfl⟩

theorem pairwise_rulesFor {name : String} :
    (rulesFor rules name).Pairwise fun a b => a.1 < b.1 := by
  refine List.Pairwise.filter _ (List.pairwise_map.mpr ?_)
  have hindices := List.pairwise_lt_range' (s := 0) (n := rules.length)
  rw [← List.zipIdx_map_snd 0 rules] at hindices
  exact List.pairwise_map.mp hindices

/-- The spec comes first, and the rules in the order of their numbers; none comes twice. -/
theorem pairwise_sourcesOf : (s.sourcesOf rules p).Pairwise fun x y =>
    (x.1 = .spec ∧ y.1 ≠ .spec) ∨ ∃ i j, x.1 = .rule i ∧ y.1 = .rule j ∧ i < j := by
  rw [sourcesOf]
  refine List.pairwise_append.mpr ⟨?_, ?_, ?_⟩
  · cases s.tag? p.node.name with
    | none => exact .nil
    | some t => exact List.pairwise_singleton _ _
  · exact List.pairwise_map.mpr <| pairwise_rulesFor.imp fun h => .inr ⟨_, _, rfl, rfl, h⟩
  · intro x hx y hy
    obtain ⟨t, -, rfl⟩ := List.mem_map.mp hx
    obtain ⟨r, -, rfl⟩ := List.mem_map.mp hy
    exact .inl ⟨rfl, nofun⟩

/-! ## Checking places -/

/-- The check against the spec finds what there is to find, and leaves a memo that is right. -/
theorem checkSpec_spec (hd : d.Numbered) (hm : Memo.Valid s d memo) (hp : p ∈ d.places) :
    (s.checkSpec memo p).1 = .flatten (((s.tag? p.node.name).toList.map fun t =>
        (Source.spec, t.activeModel p.node.head p.above)).map (s.found p)) ∧
      Memo.Valid s d (s.checkSpec memo p).2 := by
  rw [checkSpec]
  cases ht : s.tag? p.node.name with
  | none => exact ⟨rfl, hm⟩
  | some t =>
    obtain ⟨hresult, hvalid⟩ := patternFor_spec hd hm hp
    have hmodel : s.modelOf p.node.head p.above = t.activeModel p.node.head p.above := by
      rw [modelOf, show s.tag? p.node.head.name = some t from ht]
    refine ⟨?_, hvalid⟩
    show Outcome.ofResult p .spec (s.patternFor memo p.node.head p.above).1 = _
    rw [hresult, patternAt, hmodel]
    exact (Outcome.flatten_singleton _).symm

/-- The check against rules finds what there is to find, and leaves a memo that is right. -/
theorem checkRulesAt_spec (hd : d.Numbered) (hm : Memo.Valid s d memo) (hp : p ∈ d.places)
    (rs : List (Nat × Rule)) :
    (s.checkRulesAt memo p rs).1 =
        .flatten ((rs.map fun r => (Source.rule r.1, r.2.model)).map (s.found p)) ∧
      Memo.Valid s d (s.checkRulesAt memo p rs).2 := by
  induction rs generalizing memo with
  | nil => exact ⟨rfl, hm⟩
  | cons r rs ih =>
    obtain ⟨hresult, hvalid⟩ := compileAt_spec hd hm hp r.2.model
    obtain ⟨hothers, hvalid⟩ := ih hvalid
    refine ⟨?_, hvalid⟩
    rw [List.map_cons, List.map_cons, ← Outcome.append_flatten, ← hothers, found, ← hresult]
    rfl

/-- What is found about a place does not depend on the memo. -/
theorem checkNode_spec (hd : d.Numbered) (hm : Memo.Valid s d memo) (hp : p ∈ d.places) :
    (s.checkNode rules memo p).1 = s.outcomeAt rules p ∧
      Memo.Valid s d (s.checkNode rules memo p).2 := by
  obtain ⟨hspec, hvalid⟩ := checkSpec_spec hd hm hp
  obtain ⟨hrules, hvalid⟩ := checkRulesAt_spec hd hvalid hp (rulesFor rules p.node.name)
  refine ⟨?_, hvalid⟩
  rw [outcomeAt, sourcesOf, List.map_append, ← Outcome.flatten_append, ← hspec, ← hrules]
  rfl

/-- Going from place to place with one memo finds at each place what there is to find. -/
theorem checkNodes_eq (hd : d.Numbered) (hm : Memo.Valid s d memo) (hps : ∀ p ∈ ps, p ∈ d.places) :
    s.checkNodes rules memo ps = ps.map (s.outcomeAt rules) := by
  induction ps generalizing memo with
  | nil => rfl
  | cons p ps ih =>
    obtain ⟨hfound, hvalid⟩ := checkNode_spec hd hm (hps p List.mem_cons_self)
    have hothers := ih hvalid fun q hq => hps q (List.mem_cons_of_mem _ hq)
    rw [List.map_cons, ← hfound, ← hothers]
    rfl

/-- Batches, each checked with a memo of its own, give what is found one place after the other. -/
theorem checkBatches_eq (hd : d.Numbered) {batches : List (List Place)}
    (hps : ∀ batch ∈ batches, ∀ p ∈ batch, p ∈ d.places) :
    s.checkBatches rules batches = batches.flatten.map (s.outcomeAt rules) := by
  induction batches with
  | nil => rfl
  | cons batch batches ih =>
    have hothers := ih fun b hb => hps b (List.mem_cons_of_mem _ hb)
    rw [List.flatten_cons, List.map_append, ← hothers,
      ← checkNodes_eq hd valid_empty (hps batch List.mem_cons_self)]
    rfl

end Spec

/-- Nothing is left out between batches. -/
theorem flatten_batchesOf {α : Type} (size : Nat) (xs : List α) :
    (batchesOf size xs).flatten = xs := by
  induction xs using batchesOf.induct size with
  | case1 => rw [batchesOf]; rfl
  | case2 x rest ih =>
    rw [batchesOf, List.flatten_cons, ih, List.cons_append, List.take_append_drop]

/-! ## Reports -/

namespace Spec

variable {s : Spec} {rules : List Rule} {p : Place}

theorem element_of_mem_violations {v : Violation} (h : v ∈ (s.outcomeAt rules p).violations) :
    v.element = p.node.id := by
  obtain ⟨o, ho, hv⟩ := List.mem_flatMap.mp h
  obtain ⟨x, -, rfl⟩ := List.mem_map.mp ho
  exact (Outcome.of_mem_violations hv).1

theorem element_of_mem_warnings {w : Warning} (h : w ∈ (s.outcomeAt rules p).warnings) :
    w.element = p.node.id := by
  obtain ⟨o, ho, hw⟩ := List.mem_flatMap.mp h
  obtain ⟨x, -, rfl⟩ := List.mem_map.mp ho
  exact (Outcome.of_mem_warnings hw).1

end Spec

/-- Findings that belong to places, gathered in the order of the places, are in order already. -/
theorem mergeSort_flatMap {α : Type} {ps : List Place} {f : Place → List α} {element : α → Nat}
    (hps : ps.Pairwise fun p q => p.node.id < q.node.id)
    (hf : ∀ p, ∀ a ∈ f p, element a = p.node.id) :
    ((ps.flatMap f).mergeSort fun a b => element a ≤ element b) = ps.flatMap f := by
  refine List.mergeSort_of_pairwise (List.pairwise_flatMap.mpr ⟨fun p _ => ?_, ?_⟩)
  · refine List.pairwise_of_forall_mem_list fun a ha b hb => ?_
    rw [decide_eq_true_eq, hf p a ha, hf p b hb]
  · refine hps.imp fun hlt a ha b hb => ?_
    rw [decide_eq_true_eq, hf _ a ha, hf _ b hb]
    exact Nat.le_of_lt hlt

namespace Document

variable {d : Document}

/-- The report lists what is found about the elements in document order, whether they are checked
one after the other or in batches. -/
theorem check_eq (hd : d.Numbered) (s : Spec) (settings : Settings) :
    d.check s settings = ⟨d.elements.length,
      d.elements.flatMap fun p => (s.outcomeAt settings.rules p).violations,
      d.elements.flatMap fun p => (s.outcomeAt settings.rules p).warnings⟩ := by
  have hplaces : ∀ p ∈ d.elements, p ∈ d.places := fun p hp => List.mem_of_mem_filter hp
  have houtcomes : (if settings.parallel then
        s.checkBatches settings.rules (batchesOf batchSize d.elements)
      else s.checkNodes settings.rules ∅ d.elements) =
      d.elements.map (s.outcomeAt settings.rules) := by
    cases settings.parallel with
    | false =>
      rw [if_neg Bool.false_ne_true]
      exact Spec.checkNodes_eq hd Spec.valid_empty hplaces
    | true =>
      -- the batches in a row are the elements again
      rw [if_pos rfl, Spec.checkBatches_eq hd, flatten_batchesOf]
      intro batch hbatch p hp
      refine hplaces p ?_
      rw [← flatten_batchesOf batchSize d.elements]
      exact List.mem_flatten.mpr ⟨batch, hbatch, hp⟩
  rw [check, houtcomes, Report.ofOutcomes, List.flatMap_map, List.flatMap_map,
    mergeSort_flatMap hd.pairwise_elements fun p v hv => Spec.element_of_mem_violations hv,
    mergeSort_flatMap hd.pairwise_elements fun p w hw => Spec.element_of_mem_warnings hw]

/-- There is a report just when the rules are in order. -/
theorem validate_ok_iff {s : Spec} {settings : Settings} {report : Report} :
    d.validate s settings = .ok report ↔
      s.checkRules settings.rules = .ok () ∧ report = d.check s settings := by
  rw [validate]
  cases s.checkRules settings.rules with
  | error e => exact ⟨nofun, nofun⟩
  | ok u => exact ⟨fun h => ⟨rfl, (Except.ok.inj h).symm⟩, fun ⟨_, h⟩ => congrArg _ h.symm⟩

end Document

end ContentGrammar
