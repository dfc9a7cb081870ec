import ContentGrammar.Proofs.Validation.Likeness

/-!
# Findings are local

What is found about an element depends on the names and attributes of the elements around it and on
its own tree, and on nothing else in the document. Two elements that agree in these, of one document
or of two, have the same findings but for numbers, and these are moved by the difference between the
numbers of the two elements (`findings_local`).
-/

namespace ContentGrammar

variable {f : Nat → Nat} {p q : Place}

/-! ## The numbers in findings -/

/-- The numbers of nodes in a fault. -/
def Fault.numbers : Fault → List Nat
  | .form => []
  | .forbidden child _ _ _ => [child]

namespace Outcome

/-- The numbers of nodes in what is found. -/
def numbers (o : Outcome) : List Nat :=
  (o.violations.flatMap fun v => v.element :: v.fault.numbers) ++ o.warnings.map (·.element)

/-- The numbers in what is found about a place are its own and those of nodes of its content. -/
theorem of_mem_numbers {source : Source} {r : Except ModelError Pattern} {n : Nat}
    (h : n ∈ (ofResult p source r).numbers) : n = p.node.id ∨ ∃ c ∈ p.content, c.node.id = n := by
  rw [numbers, List.mem_append, List.mem_flatMap, List.mem_map] at h
  rcases h with ⟨v, hv, hn⟩ | ⟨w, hw, rfl⟩
  · rcases List.mem_cons.mp hn with rfl | hn
    · exact .inl (of_mem_violations hv).1
    · cases r with
      | error e => cases hv
      | ok pattern =>
        rw [ofResult, ofPattern] at hv
        dsimp only at hv
        split at hv
        · obtain rfl := List.mem_singleton.mp hv
          cases hn
        · obtain ⟨b, hb, rfl⟩ := List.mem_map.mp hv
          obtain rfl := List.mem_singleton.mp hn
          -- what is named besides the element is one of its children
          exact .inr ⟨b.child, child_of_mem_breaches hb, rfl⟩
  · exact .inl (of_mem_warnings hw).1

theorem mem_numbers_flatten {os : List Outcome} {n : Nat} :
    n ∈ (flatten os).numbers ↔ ∃ o ∈ os, n ∈ o.numbers := by
  simp only [numbers, flatten, List.mem_append, List.mem_flatMap, List.mem_map]
  constructor
  · rintro (⟨v, ⟨o, ho, hv⟩, hn⟩ | ⟨w, ⟨o, ho, hw⟩, rfl⟩)
    · exact ⟨o, ho, .inl ⟨v, hv, hn⟩⟩
    · exact ⟨o, ho, .inr ⟨w, hw, rfl⟩⟩
  · rintro ⟨o, ho, ⟨v, hv, hn⟩ | ⟨w, hw, rfl⟩⟩
    · exact .inl ⟨v, ⟨o, ho, hv⟩, hn⟩
    · exact .inr ⟨w, ⟨o, ho, hw⟩, rfl⟩

end Outcome

namespace Spec

variable {s : Spec} {rules : List Rule}

/-- What is found about a place renumbered is what is found about the place, renumbered. -/
theorem outcomeAt_renumbered (h : p.Renumbered f q) (hp : p.node.isContent = true) :
    s.outcomeAt rules q = (s.outcomeAt rules p).renumber f :=
  outcomeAt_like h.like hp (AllAlike.refl rules)

theorem of_mem_outcomeAt {n : Nat} (h : n ∈ (s.outcomeAt rules p).numbers) :
    n = p.node.id ∨ ∃ c ∈ p.content, c.node.id = n := by
  obtain ⟨o, ho, hn⟩ := Outcome.mem_numbers_flatten.mp h
  obtain ⟨x, -, rfl⟩ := List.mem_map.mp ho
  exact Outcome.of_mem_numbers hn

theorem mem_ids_of_mem_outcomeAt {n : Nat} (h : n ∈ (s.outcomeAt rules p).numbers) :
    n ∈ p.node.ids := by
  rcases of_mem_outcomeAt h with rfl | ⟨c, hc, rfl⟩
  · exact List.mem_of_mem_head? (Node.head?_ids p.node)
  · obtain ⟨m, hm, rfl⟩ := List.mem_map.mp (List.mem_of_mem_filter hc)
    exact Node.id_mem_ids_of_mem_children hm

end Spec

/-- Two elements, of the same document or of two, with the same tree and with the same names and
attributes around them: checked each with an empty memo, they have the same violations and warnings
in the same order, where every number of a node is moved by as much as the numbers of the two
elements differ. -/
theorem findings_local (s : Spec) (rules : List Rule) (forest forest' : List Markup) (p q : Place)
    (hp : p ∈ (Document.ofMarkup forest).elements) (hq : q ∈ (Document.ofMarkup forest').elements)
    (htree : p.node.tree = q.node.tree)
    (habove : p.above.map Head.face = q.above.map Head.face) :
    (s.checkNode rules ∅ q).1 =
        (s.checkNode rules ∅ p).1.renumber (moved p.node.id q.node.id) ∧
      ∀ n ∈ (s.checkNode rules ∅ p).1.numbers,
        (moved p.node.id q.node.id n : Int) - n = q.node.id - p.node.id := by
  have hnumbered := Document.numbered_ofMarkup forest
  have hnumbered' := Document.numbered_ofMarkup forest'
  obtain ⟨hplace, helement⟩ := List.mem_filter.mp hp
  have hplace' := List.mem_of_mem_filter hq
  have hrenumbered : p.Renumbered (moved p.node.id q.node.id) q :=
    ⟨hnumbered.eq_renumber hnumbered' hplace hplace' htree, sameFaces_iff.mpr habove⟩
  rw [(Spec.checkNode_spec hnumbered Spec.valid_empty hplace).1,
    (Spec.checkNode_spec hnumbered' Spec.valid_empty hplace').1]
  refine ⟨Spec.outcomeAt_renumbered hrenumbered (Place.isContent_of_isElement helement), ?_⟩
  intro n hn
  have hids := Spec.mem_ids_of_mem_outcomeAt hn
  rw [hnumbered.ids_of_mem hplace, List.mem_range'_1] at hids
  simp only [moved]
  omega

/-- A paragraph of which the model cannot be used, where it stands alone and where another element
precedes it. -/
theorem findings_local_beside :
    let s : Spec := ⟨Dictionary.empty.insert "p" ⟨.category "#flow", []⟩, .empty⟩
    let paragraph := Markup.element "p" .empty [.text "x"] none
    let p : Place := ⟨.element ⟨1, "p", [], none⟩ [.text 2 "x"], []⟩
    let q : Place := ⟨.element ⟨2, "p", [], none⟩ [.text 3 "x"], []⟩
    p ∈ (Document.ofMarkup [paragraph]).elements ∧
    q ∈ (Document.ofMarkup [.element "b" .empty [] none, paragraph]).elements ∧
    p.node.tree = q.node.tree ∧ p.above.map Head.face = q.above.map Head.face ∧
    (s.checkNode [] ∅ p).1 = ⟨[], [⟨1, "p", none, .unknownCategory "#flow"⟩]⟩ ∧
    (s.checkNode [] ∅ q).1 = ⟨[], [⟨2, "p", none, .unknownCategory "#flow"⟩]⟩ := by
  intro s paragraph p q
  have hp : p ∈ (Document.ofMarkup [paragraph]).elements := List.mem_singleton.mpr rfl
  have hq : q ∈ (Document.ofMarkup [.element "b" .empty [] none, paragraph]).elements :=
    List.mem_cons_of_mem _ (List.mem_singleton.mpr rfl)
  have hfound : (s.checkNode [] ∅ p).1 = ⟨[], [⟨1, "p", none, .unknownCategory "#flow"⟩]⟩ :=
    (Spec.checkNode_spec (Document.numbered_ofMarkup [paragraph]) Spec.valid_empty
      (List.mem_of_mem_filter hp)).1.trans rfl
  have hmoved := (findings_local s [] [paragraph] _ p q hp hq rfl rfl).1
  rw [hfound] at hmoved
  exact ⟨hp, hq, rfl, rfl, hfound, hmoved⟩

end ContentGrammar
