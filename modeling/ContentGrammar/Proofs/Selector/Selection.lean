import ContentGrammar.Proofs.Document.Ancestry
import ContentGrammar.Proofs.Document.Attributes
import ContentGrammar.Proofs.Text.Words

/-!
# What a selector selects

An alternative of a selector is about several elements, one for each of its compounds: the node itself
and others around it, each of which is the parent or some ancestor of the one before, as the combinator
between them says (`Complex.Fulfilled`). The elements are sought from the node outwards, and all that
may come into question are tried; `selects_iff` says that they are found if there are any.
-/

namespace ContentGrammar.Selector

/-! ## Compounds -/

/-- What a test of an attribute asks of an element. -/
def AttributeTest.Describes (t : AttributeTest) (h : Head) : Prop :=
  match t.value with
  | none => ∃ value, FirstNamed h.attributes t.name value
  | some value => FirstNamed h.attributes t.name value

namespace Compound

mutual

/-- What a compound asks of an element: its name, its `id`, that certain words are in its `class`, what
is asked of attributes, and that none of the compounds in negations describes it. -/
def Describes : Compound → Head → Prop
  | ⟨tag, ids, classes, attributes, negations⟩, h =>
    (∀ t ∈ tag, Ascii.lower h.name = Ascii.lower t) ∧
      (∀ id ∈ ids, FirstNamed h.attributes "id" id) ∧
      (∀ w ∈ classes, ∃ value, FirstNamed h.attributes "class" value ∧ IsWord w value) ∧
      (∀ t ∈ attributes, t.Describes h) ∧
      NoneDescribes negations h

/-- Whether none of several compounds describes an element. -/
def NoneDescribes : List Compound → Head → Prop
  | [], _ => True
  | c :: cs, h => ¬ c.Describes h ∧ NoneDescribes cs h

end

end Compound

theorem AttributeTest.holds_iff {t : AttributeTest} {h : Head} :
    t.holds h = true ↔ t.Describes h := by
  rw [holds, Describes]
  cases t.value with
  | none => simp [Head.hasAttribute, Option.isSome_iff_exists, Head.attribute?_eq_some_iff]
  | some value => rw [beq_iff_eq, Head.attribute?_eq_some_iff]

theorem contains_words_iff {w : String} {h : Head} :
    (words ((h.attribute? "class").getD "")).contains w = true ↔
      ∃ value, FirstNamed h.attributes "class" value ∧ IsWord w value := by
  simp only [List.contains_iff_mem, mem_words, ← Head.attribute?_eq_some_iff]
  cases h.attribute? "class" with
  | none =>
    -- without a `class` there are no words
    have hnone : ¬ IsWord w "" := fun hw => nomatch mem_words.mpr hw
    simp [hnone]
  | some value => simp

mutual

theorem Compound.fits_iff : (c : Compound) → (h : Head) → (c.fits h = true ↔ c.Describes h)
  | ⟨tag, ids, classes, attributes, negations⟩, h => by
    simp only [fits, Describes, Bool.and_eq_true, and_assoc, Option.all_eq_true, List.all_eq_true,
      Ascii.same_iff, beq_iff_eq, Head.attribute?_eq_some_iff, contains_words_iff,
      AttributeTest.holds_iff, Bool.not_eq_true', anyFits_eq_false_iff negations h]
    rfl

theorem Compound.anyFits_eq_false_iff : (cs : List Compound) → (h : Head) →
    (anyFits cs h = false ↔ NoneDescribes cs h)
  | [], h => by simp [anyFits, NoneDescribes]
  | c :: cs, h => by
    rw [anyFits, NoneDescribes, Bool.or_eq_false_iff, anyFits_eq_false_iff cs h,
      ← Bool.not_eq_true, fits_iff c h]

end

/-! ## Alternatives -/

/-- How the element of a compound stands around the element of the compound to its right. -/
def Combinator.Joins : Combinator → Place → Place → Prop
  | .child, outer, inner => outer.IsParentOf inner
  | .descendant, outer, inner => outer.IsAncestorOf inner

/-- What a compound and the combinator behind it ask of the element that a step outwards leads to. -/
structure Leads (d : Document) (step : Combinator × Compound) (outer inner : Place) : Prop where
  mem : outer ∈ d.places
  element : outer.node.isElement = true
  describes : step.2.Describes outer.node.head
  joins : step.1.Joins outer inner

/-- Elements as an alternative asks for them: first the node itself, and then one for each compound of
the context. -/
structure Complex.Fulfilled (s : Complex) (d : Document) (n : Nat → Place) : Prop where
  element : (n 0).node.isElement = true
  describes : s.subject.Describes (n 0).node.head
  leads : ∀ i step, s.context[i]? = some step → Leads d step (n (i + 1)) (n i)

variable {d : Document} {p q : Place}

/-- A row of steps from a place on is a first step and a row of steps from where it leads to. -/
theorem exists_row_iff {α β : Type} {R : α → β → β → Prop} {step : α} {rest : List α} {b : β} :
    (∃ n : Nat → β, n 0 = b ∧ ∀ i a, (step :: rest)[i]? = some a → R a (n (i + 1)) (n i)) ↔
      ∃ c, R step c b ∧ ∃ n : Nat → β, n 0 = c ∧
        ∀ i a, rest[i]? = some a → R a (n (i + 1)) (n i) := by
  constructor
  · rintro ⟨n, rfl, hn⟩
    exact ⟨n 1, hn 0 step rfl, fun i => n (i + 1), rfl, fun i a ha => hn (i + 1) a ha⟩
  · rintro ⟨c, hc, n, rfl, hn⟩
    refine ⟨fun i => i.casesOn b n, rfl, fun i a ha => ?_⟩
    cases i with
    | zero => exact Option.some.inj ha ▸ hc
    | succ i => exact hn i a ha

/-- A step outwards goes to the parent or to one of the ancestors, whichever it is. -/
theorem contextFits_cons_iff (hd : d.Numbered) (hp : p ∈ d.places) {combinator : Combinator}
    {c : Compound} {rest : List (Combinator × Compound)} :
    contextFits ((combinator, c) :: rest) p.above = true ↔
      ∃ q, Leads d (combinator, c) q p ∧ contextFits rest q.above = true := by
  cases combinator with
  | child =>
    have hfits : contextFits ((.child, c) :: rest) p.above = true ↔ ∃ h around,
        p.above = h :: around ∧ c.Describes h ∧ contextFits rest around = true := by
      cases p.above with
      | nil => simp [contextFits]
      | cons h around => simp [contextFits, Compound.fits_iff]
    simp only [hfits, hd.above_eq_cons_iff hp]
    constructor
    · rintro ⟨h, around, ⟨q, hq, hparent, rfl, rfl⟩, hdescribes, hrest⟩
      exact ⟨q, ⟨hq, hparent.1, hdescribes, hparent⟩, hrest⟩
    · rintro ⟨q, ⟨hq, -, hdescribes, hparent⟩, hrest⟩
      exact ⟨_, _, ⟨q, hq, hparent, rfl, rfl⟩, hdescribes, hrest⟩
  | descendant =>
    have hfits : contextFits ((.descendant, c) :: rest) p.above = true ↔ ∃ h around,
        (h, around) ∈ outward p.above ∧ c.Describes h ∧ contextFits rest around = true := by
      simp [contextFits, Compound.fits_iff]
    simp only [hfits, Document.mem_outward_above_iff hp]
    constructor
    · rintro ⟨h, around, ⟨q, hq, hancestor, rfl, rfl⟩, hdescribes, hrest⟩
      exact ⟨q, ⟨hq, hancestor.1, hdescribes, hancestor⟩, hrest⟩
    · rintro ⟨q, ⟨hq, -, hdescribes, hancestor⟩, hrest⟩
      exact ⟨_, _, ⟨q, hq, hancestor, rfl, rfl⟩, hdescribes, hrest⟩

/-- Whatever choices there are on the way outwards, a way is found if there is one. -/
theorem contextFits_iff (hd : d.Numbered) {context : List (Combinator × Compound)}
    (hp : p ∈ d.places) : contextFits context p.above = true ↔ ∃ n : Nat → Place, n 0 = p ∧
      ∀ i step, context[i]? = some step → Leads d step (n (i + 1)) (n i) := by
  induction context generalizing p with
  | nil => simpa [contextFits] using ⟨fun _ => p, rfl⟩
  | cons step rest ih =>
    rw [exists_row_iff, contextFits_cons_iff hd hp]
    exact exists_congr fun q => and_congr_right fun hq => ih hq.mem

theorem Complex.fits_iff (hd : d.Numbered) (s : Complex) (hp : p ∈ d.places)
    (helement : p.node.isElement = true) : s.fits p.node.head p.above = true ↔
      ∃ n : Nat → Place, n 0 = p ∧ s.Fulfilled d n := by
  rw [fits, Bool.and_eq_true, Compound.fits_iff, contextFits_iff hd hp]
  constructor
  · rintro ⟨hdescribes, n, rfl, hn⟩
    exact ⟨n, rfl, helement, hdescribes, hn⟩
  · rintro ⟨n, rfl, hn⟩
    exact ⟨hn.describes, n, rfl, hn.leads⟩

/-- A node of a document is selected just if there are elements as one of the alternatives asks for
them, the node itself being the first. So nothing but an element is ever selected. -/
theorem selects_iff_fulfilled (s : Selector) (forest : List Markup) {p : Place}
    (hp : p ∈ (Document.ofMarkup forest).places) :
    (s.selects p = true ↔ ∃ a ∈ s.alternatives, ∃ n : Nat → Place,
      n 0 = p ∧ a.Fulfilled (Document.ofMarkup forest) n) ∧
    (p.node.isElement = false → s.selects p = false) := by
  rw [selects]
  cases helement : p.node.isElement with
  | false =>
    refine ⟨⟨nofun, ?_⟩, fun _ => rfl⟩
    rintro ⟨a, -, n, rfl, hn⟩
    rw [hn.element] at helement
    cases helement
  | true =>
    refine ⟨?_, nofun⟩
    rw [Bool.true_and, selectsElement, List.any_eq_true]
    refine exists_congr fun a => and_congr_right fun _ => ?_
    exact a.fits_iff (Document.numbered_ofMarkup forest) hp helement

/-- `a > b c` selects the `c`, for which the nearest `b` around it is the wrong one to choose. -/
theorem selects_iff_fulfilled_farther :
    let s : Selector := ⟨"a > b c", [⟨{ tag := some "c" },
      [(.descendant, { tag := some "b" }), (.child, { tag := some "a" })]⟩]⟩
    let around (name : String) (m : Markup) : Markup := .element name .empty [m] none
    let d := Document.ofMarkup [around "a" (around "b" (around "b" (.element "c" .empty [] none)))]
    ∃ p ∈ d.places, p.node.name = "c" ∧ s.selects p = true ∧
      ∃ a ∈ s.alternatives, ∃ n : Nat → Place, n 0 = p ∧ a.Fulfilled d n := by
  intro s around d
  have hlast : d.places[4]? = some ⟨.element ⟨4, "c", [], none⟩ [],
      [⟨3, "b", [], none⟩, ⟨2, "b", [], none⟩, ⟨1, "a", [], none⟩]⟩ := rfl
  have hp := List.mem_of_getElem? hlast
  have hselects : s.selects ⟨.element ⟨4, "c", [], none⟩ [],
      [⟨3, "b", [], none⟩, ⟨2, "b", [], none⟩, ⟨1, "a", [], none⟩]⟩ = true := by decide
  exact ⟨_, hp, rfl, hselects, (selects_iff_fulfilled s _ hp).1.mp hselects⟩

end ContentGrammar.Selector
