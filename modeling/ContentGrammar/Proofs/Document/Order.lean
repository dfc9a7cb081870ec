import Mathlib.Logic.Relation
import ContentGrammar.Proofs.Document.Renumbering

/-!
# Document order

A place contains itself and all places that are come to from it by going from a place to one of its
children. `Place.withDescendants` lists what a place contains (`mem_withDescendants`) and does so in
document order: what is found first in the list is the place itself or is first in the first child
that has it (`find?_withDescendants`).
-/

namespace ContentGrammar

namespace Place

/-- Whether `q` is `p` or is somewhere inside of it. -/
abbrev Contains : Place → Place → Prop := Relation.ReflTransGen fun p q => q ∈ p.children

/-- Whether `q` is the first place in `p`, in document order, that satisfies `P`: it is `p` itself,
or `p` does not satisfy `P` and `q` is the first one in a child before which there is none. -/
inductive FirstIn (P : Place → Prop) : Place → Place → Prop
  | self {p : Place} : P p → FirstIn P p p
  | inside {p q c : Place} {before after : List Place} : ¬ P p →
      p.children = before ++ c :: after → (∀ b ∈ before, ∀ r, b.Contains r → ¬ P r) →
      FirstIn P c q → FirstIn P p q

variable {p q : Place} {P : Place → Prop}

/-- What is first in a place is contained in it and satisfies what it is sought for. -/
theorem FirstIn.spec (h : FirstIn P p q) : p.Contains q ∧ P q := by
  induction h with
  | self hp => exact ⟨.refl, hp⟩
  | inside _ hchildren _ _ ih =>
    have hc : _ ∈ _ := hchildren ▸ List.mem_append_right _ List.mem_cons_self
    exact ⟨.head hc ih.1, ih.2⟩

/-- Induction over a place, with the claim for all of its children. -/
theorem induct {motive : Place → Prop} (step : ∀ p, (∀ c ∈ p.children, motive c) → motive p)
    (p : Place) : motive p := by
  obtain ⟨n, above⟩ := p
  have hchildren : ∀ {ns : List Node} {around : List Head},
      (∀ n ∈ ns, ∀ above, motive ⟨n, above⟩) →
      ∀ c ∈ ns.map fun n => (⟨n, around⟩ : Place), motive c := by
    intro ns around ih c hc
    obtain ⟨n, hn, rfl⟩ := List.mem_map.mp hc
    exact ih n hn _
  induction n generalizing above with
  | document ns ih => exact step _ (hchildren ih)
  | text id content => exact step _ nofun
  | element head ns ih => exact step _ (hchildren ih)

theorem withDescendants_eq (p : Place) :
    p.withDescendants = p :: p.children.flatMap withDescendants := by
  obtain ⟨n, above⟩ := p
  have hall : ∀ (ns : List Node) (above : List Head),
      Node.placesAll above ns = (ns.map fun n => (⟨n, above⟩ : Place)).flatMap withDescendants := by
    intro ns above
    rw [Node.placesAll_eq_flatMap, List.flatMap_map]
    rfl
  cases n with
  | document ns => exact congrArg _ (hall ns above)
  | text id content => rfl
  | element head ns => exact congrArg _ (hall ns (head :: above))

theorem mem_withDescendants : q ∈ p.withDescendants ↔ p.Contains q := by
  induction p using induct with
  | step p ih =>
    rw [withDescendants_eq, List.mem_cons, List.mem_flatMap]
    constructor
    · rintro (rfl | ⟨c, hc, hq⟩)
      · exact .refl
      · exact .head hc ((ih c hc).mp hq)
    · intro h
      rcases Relation.ReflTransGen.cases_head h with rfl | ⟨c, hc, hq⟩
      · exact .inl rfl
      · exact .inr ⟨c, hc, (ih c hc).mpr hq⟩

theorem find?_withDescendants_eq_none {P : Place → Bool} :
    p.withDescendants.find? P = none ↔ ∀ q, p.Contains q → ¬ P q = true := by
  simp only [List.find?_eq_none, mem_withDescendants]

/-- What is found first in the list is the first place in document order. -/
theorem find?_withDescendants {P : Place → Bool} :
    p.withDescendants.find? P = some q ↔ FirstIn (fun r => P r = true) p q := by
  induction p using induct with
  | step p ih =>
    rw [withDescendants_eq]
    by_cases hp : P p = true
    · rw [List.find?_cons_of_pos hp]
      constructor
      · intro h
        cases h
        exact .self hp
      · intro h
        cases h with
        | self _ => rfl
        | inside hnot => exact absurd hp hnot
    · rw [List.find?_cons_of_neg hp, List.find?_flatMap, List.findSome?_eq_some_iff]
      constructor
      · rintro ⟨before, c, after, hchildren, hc, hbefore⟩
        have hmem : c ∈ p.children := hchildren ▸ List.mem_append_right _ List.mem_cons_self
        refine .inside hp hchildren (fun b hb => ?_) ((ih c hmem).mp hc)
        exact find?_withDescendants_eq_none.mp (hbefore b hb)
      · intro h
        cases h with
        | self hself => exact absurd hself hp
        | inside _ hchildren hbefore hc =>
          have hmem : _ ∈ p.children := hchildren ▸ List.mem_append_right _ List.mem_cons_self
          refine ⟨_, _, _, hchildren, (ih _ hmem).mpr hc, fun b hb => ?_⟩
          exact find?_withDescendants_eq_none.mpr (hbefore b hb)

theorem sublist_flatMap_withDescendants (ps : List Place) :
    ps.Sublist (ps.flatMap withDescendants) := by
  induction ps with
  | nil => exact .slnil
  | cons p ps ih =>
    rw [List.flatMap_cons, p.withDescendants_eq, List.cons_append]
    exact (ih.trans (List.sublist_append_right _ _)).cons_cons p

end Place

theorem Document.root_mem_places (d : Document) : d.root ∈ d.places :=
  Place.mem_withDescendants.mpr .refl

/-- The children of a place of a document are places of the document. -/
theorem Document.mem_places_of_mem_children {d : Document} {p c : Place} (hp : p ∈ d.places)
    (hc : c ∈ p.children) : c ∈ d.places :=
  Place.mem_withDescendants.mpr (.tail (Place.mem_withDescendants.mp hp) hc)

end ContentGrammar
