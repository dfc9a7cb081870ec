import ContentGrammar.Proofs.Document.Likeness
import ContentGrammar.Proofs.Spec.Faces
import ContentGrammar.Proofs.Validation.Outcomes

/-!
# What is found in documents that are alike

Each part of a check takes places that are alike to results that are related in the same way: which
elements are forbidden, the culprits, the breaches, and what is found (`outcomeAt_like`). So documents
that are alike have the same report, in which the numbers are renamed (`check_like`). The rules may
differ in the case of letters in their tags.
-/

namespace ContentGrammar

/-! ## Findings with other numbers -/

/-- A fault with the numbers of nodes renamed. -/
def Fault.renumber (f : Nat → Nat) : Fault → Fault
  | .form => .form
  | .forbidden child childName culpritName exclusion =>
    .forbidden (f child) childName culpritName exclusion

/-- A violation with the numbers of nodes renamed. -/
def Violation.renumber (f : Nat → Nat) (v : Violation) : Violation :=
  { v with element := f v.element, fault := v.fault.renumber f }

/-- A warning with the numbers of nodes renamed. -/
def Warning.renumber (f : Nat → Nat) (w : Warning) : Warning := { w with element := f w.element }

namespace Outcome

/-- What is found, with the numbers of nodes renamed. -/
def renumber (f : Nat → Nat) (o : Outcome) : Outcome :=
  ⟨o.violations.map (Violation.renumber f), o.warnings.map (Warning.renumber f)⟩

theorem renumber_flatten (f : Nat → Nat) (os : List Outcome) :
    (flatten os).renumber f = flatten (os.map (renumber f)) := by
  simp only [renumber, flatten, List.map_flatMap, List.flatMap_map]

end Outcome

/-- A report with the numbers of nodes renamed. -/
def Report.renumber (f : Nat → Nat) (r : Report) : Report :=
  { r with
    violations := r.violations.map (Violation.renumber f)
    warnings := r.warnings.map (Warning.renumber f) }

/-! ## Related results -/

section Related

variable {α β γ δ : Type} {R : α → β → Prop} {S : γ → δ → Prop} {xs : List α} {ys : List β}

theorem rel_head? (h : List.Forall₂ R xs ys) : Option.Rel R xs.head? ys.head? := by
  cases h with
  | nil => exact .none
  | cons hxy _ => exact .some hxy

theorem rel_map_option {x : Option α} {y : Option β} {g : α → γ} {k : β → δ}
    (h : Option.Rel R x y) (hgk : ∀ {a b}, R a b → S (g a) (k b)) :
    Option.Rel S (x.map g) (y.map k) := by
  cases h with
  | none => exact .none
  | some hab => exact .some (hgk hab)

theorem map_eq_map_of_rel {g : α → γ} {k : β → γ} (h : List.Forall₂ R xs ys)
    (hgk : ∀ {a b}, R a b → k b = g a) : ys.map k = xs.map g := by
  induction h with
  | nil => rfl
  | cons hab _ ih => rw [List.map_cons, List.map_cons, hgk hab, ih]

/-- What related items are taken to is renamed as a whole if each part is. -/
theorem flatMap_eq_map_of_rel {g : α → List γ} {k : β → List δ} {t : γ → δ}
    (h : List.Forall₂ R xs ys) (hgk : ∀ {a b}, R a b → k b = (g a).map t) :
    ys.flatMap k = (xs.flatMap g).map t := by
  induction h with
  | nil => rfl
  | cons hab _ ih => rw [List.flatMap_cons, List.flatMap_cons, List.map_append, hgk hab, ih]

end Related

/-! ## Culprits and breaches -/

variable {f : Nat → Nat} {p q : Place}

theorem Place.Like.selects (h : p.Like f q) (s : Selector) : s.selects p = s.selects q := by
  rw [Selector.selects, Selector.selects, h.node.isElement,
    Selector.selectsElement_congr h.node.resembles h.above]

/-- Places that are alike are forbidden alike. -/
theorem Place.Like.forbids (h : p.Like f q) (x : Forbidden) : x.forbids p = x.forbids q := by
  cases x with
  | text => rfl
  | tag name => rw [Forbidden.forbids, Forbidden.forbids, h.name]
  | selector s => exact h.selects s

/-- The culprits in places that are alike are alike. -/
theorem culprit?_like (h : p.Like f q) (forbidden : List Forbidden) :
    Option.Rel (Place.Like f) (culprit? forbidden p) (culprit? forbidden q) := by
  have hfind : ∀ ps : List Place,
      ps.find? (fun c => c.node.isElement && forbidden.any (·.forbids c)) =
        ((ps.filter (·.node.isElement)).filter fun c => forbidden.any (·.forbids c)).head? := by
    intro ps
    rw [← List.head?_filter, List.filter_filter]
    simp only [Bool.and_comm]
  obtain ⟨n, above⟩ := p
  obtain ⟨m, above'⟩ := q
  obtain ⟨hnode, habove⟩ := h
  dsimp only at hnode habove
  rw [culprit?, culprit?]
  cases hnode with
  | document hs => exact .none
  | text id content =>
    dsimp only
    split
    · exact .some ⟨.text id content, habove⟩
    · exact .none
  | element hhead hid hposition hs =>
    dsimp only
    rw [hfind, hfind]
    have helements := Node.Like.elements (.element hhead hid hposition hs) habove
    refine rel_head? (List.rel_filter (fun a b hab => ?_) helements)
    -- the same elements inside the two places are forbidden
    show forbidden.any (·.forbids a) = true ↔ forbidden.any (·.forbids b) = true
    simp only [hab.forbids]

/-- A breach `c` is the breach `b` at a child that is alike. -/
structure Breach.Like (f : Nat → Nat) (b c : Breach) : Prop where
  exclusion : b.exclusion = c.exclusion
  child : b.child.Like f c.child
  culprit : b.culprit.Like f c.culprit

theorem breach?_like {ps qs : List Place} (h : List.Forall₂ (Place.Like f) ps qs)
    (spans : List Span) (ts : List Token) (mark : Nat) (x : Exclusion) :
    Option.Rel (Breach.Like f) (breach? spans ts ps mark x) (breach? spans ts qs mark x) := by
  rw [breach?, breach?, ← List.head?_filterMap, ← List.head?_filterMap]
  refine rel_head? (List.rel_filterMap (fun a b hab => ?_) (List.rel_filter (fun a b hab => ?_) h))
  · exact rel_map_option (culprit?_like hab x.forbidden) fun hculprit => ⟨rfl, hab, hculprit⟩
  · show (candidates spans ts mark x).contains a.node.name = true ↔
      (candidates spans ts mark x).contains b.node.name = true
    rw [hab.name]

/-- The breaches at places that are alike are alike, in the same order. -/
theorem breaches_like {ps qs : List Place} (h : List.Forall₂ (Place.Like f) ps qs)
    (spans : List Span) (ts : List Token) :
    List.Forall₂ (Breach.Like f) (breaches spans ts ps) (breaches spans ts qs) := by
  rw [breaches, breaches]
  refine List.rel_filterMap (R := Eq) (fun e e' he => ?_) (List.forall₂_same.mpr fun _ _ => rfl)
  subst he
  exact breach?_like h spans ts e.1 e.2

theorem child_of_mem_breaches {spans : List Span} {ts : List Token} {ps : List Place} {b : Breach}
    (h : b ∈ breaches spans ts ps) : b.child ∈ ps := by
  obtain ⟨x, -, hx⟩ := List.mem_filterMap.mp h
  obtain ⟨c, hc, hb⟩ := List.exists_of_findSome?_eq_some hx
  obtain ⟨culprit, -, rfl⟩ := Option.map_eq_some_iff.mp hb
  exact List.mem_of_mem_filter hc

/-! ## What is found -/

namespace Outcome

/-- What a pattern tells about places that are alike. -/
theorem ofPattern_like (h : p.Like f q) (hp : p.node.isContent = true) (source : Source)
    (pattern : Pattern) :
    ofPattern q source pattern = (ofPattern p source pattern).renumber f := by
  have hid : q.node.head.id = f p.node.head.id := h.node.id hp
  have hname : q.node.head.name = p.node.head.name := h.name.symm
  rw [ofPattern, ofPattern, ← tokensOf_like h.content, hid, hname, h.node.position]
  dsimp only
  cases pattern.run? (tokensOf p.content) with
  | none => rfl
  | some spans =>
    have hbreaches := breaches_like h.content spans (tokensOf p.content)
    -- a child has a number that is renamed since it counts as content
    have hchildren := (List.forall₂_and_left (p := fun b => b.child ∈ p.content) _ _).mpr
      ⟨fun b hb => child_of_mem_breaches hb, hbreaches⟩
    dsimp only [renumber]
    rw [List.map_map]
    congr 1
    refine map_eq_map_of_rel hchildren fun {b c} h => ?_
    obtain ⟨hb, hbc⟩ := h
    have hchild : c.child.node.id = f b.child.node.id :=
      hbc.child.node.id (List.mem_filter.mp hb).2
    rw [hchild, ← hbc.child.name, ← hbc.culprit.name, ← hbc.exclusion]
    rfl

theorem ofResult_like (h : p.Like f q) (hp : p.node.isContent = true) (source : Source)
    (r : Except ModelError Pattern) :
    ofResult q source r = (ofResult p source r).renumber f := by
  cases r with
  | ok pattern => exact ofPattern_like h hp source pattern
  | error e =>
    rw [ofResult, ofResult, h.node.id hp, ← h.name, h.node.position]
    rfl

end Outcome

/-- Whether two rules put the same model on the elements of the same names. -/
structure Rule.Like (r r' : Rule) : Prop where
  appliesTo : r.appliesTo = r'.appliesTo
  model : r.model = r'.model

/-- The rules of one list are like those of the other one by one. -/
abbrev AllAlike : List Rule → List Rule → Prop := List.Forall₂ Rule.Like

theorem AllAlike.refl (rules : List Rule) : AllAlike rules rules :=
  List.forall₂_same.mpr fun _ _ => ⟨rfl, rfl⟩

/-- The same models, with the same numbers, are put on the elements of a name. -/
theorem map_rulesFor_like {rules rules' : List Rule} (h : AllAlike rules rules') (name : String) :
    (rulesFor rules' name).map (fun r => (Source.rule r.1, r.2.model)) =
      (rulesFor rules name).map fun r => (Source.rule r.1, r.2.model) := by
  have hindices : ∀ start, List.Forall₂ (fun x y : Rule × Nat => x.1.Like y.1 ∧ x.2 = y.2)
      (rules.zipIdx start) (rules'.zipIdx start) := by
    induction h with
    | nil => exact fun _ => .nil
    | cons hr _ ih => exact fun start => .cons ⟨hr, rfl⟩ (ih (start + 1))
  rw [rulesFor, rulesFor]
  have hnumbered : List.Forall₂ (fun x y : Nat × Rule => x.1 = y.1 ∧ x.2.Like y.2)
      (rules.zipIdx.map fun e => (e.2, e.1)) (rules'.zipIdx.map fun e => (e.2, e.1)) :=
    List.rel_map (fun x y hxy => ⟨hxy.2, hxy.1⟩) (hindices 0)
  refine map_eq_map_of_rel (List.rel_filter (fun x y hxy => ?_) hnumbered) fun {x y} hxy => ?_
  · show x.2.appliesTo name = true ↔ y.2.appliesTo name = true
    rw [hxy.2.appliesTo]
  · rw [hxy.1, hxy.2.model]

namespace Spec

variable {s : Spec} {rules rules' : List Rule}

/-- The same sources apply to places that are alike. -/
theorem sourcesOf_like (h : p.Like f q) (hrules : AllAlike rules rules') :
    s.sourcesOf rules' q = s.sourcesOf rules p := by
  rw [sourcesOf, sourcesOf, map_rulesFor_like hrules, h.name]
  simp only [TagSpec.activeModel_congr h.node.resembles h.above]

/-- What is found about places that are alike is the same, with the numbers renamed. -/
theorem outcomeAt_like (h : p.Like f q) (hp : p.node.isContent = true)
    (hrules : AllAlike rules rules') :
    s.outcomeAt rules' q = (s.outcomeAt rules p).renumber f := by
  rw [outcomeAt, outcomeAt, Outcome.renumber_flatten, List.map_map, sourcesOf_like h hrules]
  congr 1
  refine List.map_congr_left fun x _ => ?_
  show s.found q x = (s.found p x).renumber f
  rw [found, found, ← patternOf_congr h.above]
  exact Outcome.ofResult_like h hp x.1 _

theorem checkRules_like (s : Spec) (h : AllAlike rules rules') :
    s.checkRules rules' = s.checkRules rules := by
  induction h with
  | nil => rfl
  | cons hr _ ih =>
    show (do checkModel s.categories _; s.checkRules _) = (do checkModel s.categories _; s.checkRules _)
    rw [hr.model, ih]

end Spec

/-! ## Reports -/

namespace Document

variable {d e : Document}

theorem elements_of_like (h : Node.AllLike f d.children e.children) :
    List.Forall₂ (Place.Like f) d.elements e.elements :=
  Node.AllLike.elements h .nil

/-- Documents that are alike have the same report, in which the numbers are renamed, whether their
elements are checked one after the other or in batches. -/
theorem check_like (hd : d.Numbered) (he : e.Numbered) (h : Node.AllLike f d.children e.children)
    (s : Spec) {settings settings' : Settings} (hrules : AllAlike settings.rules settings'.rules) :
    e.check s settings' = (d.check s settings).renumber f := by
  have helements := elements_of_like h
  -- only elements are checked, and their numbers are renamed
  have hall := (List.forall₂_and_left (p := fun p : Place => p.node.isElement = true) _ _).mpr
    ⟨fun p hp => (List.mem_filter.mp hp).2, helements⟩
  have houtcomes : ∀ {p q : Place}, p.node.isElement = true ∧ p.Like f q →
      s.outcomeAt settings'.rules q = (s.outcomeAt settings.rules p).renumber f :=
    fun hpq => Spec.outcomeAt_like hpq.2 (Place.isContent_of_isElement hpq.1) hrules
  rw [check_eq hd, check_eq he, Report.renumber, helements.length_eq]
  congr 1
  · exact flatMap_eq_map_of_rel hall fun hpq => congrArg Outcome.violations (houtcomes hpq)
  · exact flatMap_eq_map_of_rel hall fun hpq => congrArg Outcome.warnings (houtcomes hpq)

/-- Documents that are alike are validated alike: with the same error, or with reports in which the
numbers are renamed. -/
theorem validate_like (hd : d.Numbered) (he : e.Numbered)
    (h : Node.AllLike f d.children e.children) (s : Spec) {settings settings' : Settings}
    (hrules : AllAlike settings.rules settings'.rules) :
    e.validate s settings' = (d.validate s settings).map (Report.renumber f) := by
  rw [validate, validate, Spec.checkRules_like s hrules, check_like hd he h s hrules]
  cases s.checkRules settings.rules <;> rfl

end Document

end ContentGrammar
