import ContentGrammar.Proofs.Document.Order
import ContentGrammar.Selector.Basic

/-!
# What is around a place

A place carries the elements around it. In a document they are what there is around it in the tree:
the nearest one is its parent if that is an element (`Document.Numbered.above_eq_cons_iff`), and all of
them are the elements that it is inside of (`mem_outward_above_iff`).
-/

namespace ContentGrammar

open Selector (outward)

theorem Selector.mem_iff_exists_outward {above : List Head} {e : Head} :
    e ∈ above ↔ ∃ around, (e, around) ∈ outward above := by
  induction above with
  | nil => simp [outward]
  | cons e' rest ih => simp [outward, ih, exists_or]

namespace Place

/-- Whether `q` is an element with `p` directly inside. -/
def IsParentOf (q p : Place) : Prop := q.node.isElement = true ∧ p ∈ q.children

/-- Whether `q` is an element with `p` inside at whatever depth. -/
def IsAncestorOf (q p : Place) : Prop :=
  q.node.isElement = true ∧ Relation.TransGen (fun outer inner => inner ∈ outer.children) q p

variable {p q c : Place}

theorem above_of_mem_children (h : c ∈ p.children) : c.above = p.aboveChildren := by
  obtain ⟨n, -, rfl⟩ := List.mem_map.mp h
  rfl

theorem aboveChildren_of_isElement (h : p.node.isElement = true) :
    p.aboveChildren = p.node.head :: p.above := by
  obtain ⟨n, above⟩ := p
  cases n with
  | document ns | text id content => cases h
  | element head ns => rfl

theorem aboveChildren_of_not_isElement (h : ¬ p.node.isElement = true) :
    p.aboveChildren = p.above := by
  obtain ⟨n, above⟩ := p
  cases n with
  | document ns | text id content => rfl
  | element head ns => exact absurd rfl h

/-- Around what is in a place there is the place itself, if it is an element, and what is around it. -/
theorem outward_above_of_mem_children (h : c ∈ p.children) {e : Head × List Head} :
    e ∈ outward c.above ↔
      (p.node.isElement = true ∧ e = (p.node.head, p.above)) ∨ e ∈ outward p.above := by
  rw [above_of_mem_children h]
  by_cases helement : p.node.isElement = true
  · rw [aboveChildren_of_isElement helement, outward, List.mem_cons]
    exact or_congr_left (and_iff_right helement).symm
  · rw [aboveChildren_of_not_isElement helement]
    exact ⟨.inr, fun h => h.resolve_left fun h => helement h.1⟩

theorem IsParentOf.above (h : q.IsParentOf p) : p.above = q.node.head :: q.above := by
  rw [above_of_mem_children h.2, aboveChildren_of_isElement h.1]

theorem IsAncestorOf.mem_outward (h : q.IsAncestorOf p) :
    (q.node.head, q.above) ∈ outward p.above := by
  obtain ⟨helement, hinside⟩ := h
  induction hinside with
  | single hp => exact (outward_above_of_mem_children hp).mpr (.inl ⟨helement, rfl⟩)
  | tail _ hp ih => exact (outward_above_of_mem_children hp).mpr (.inr ih)

end Place

namespace Document

variable {d : Document} {p : Place} {h : Head} {around : List Head}

/-- A place of a document is the root or is a child of another place. -/
theorem eq_root_or_mem_children (hp : p ∈ d.places) :
    p = d.root ∨ ∃ q ∈ d.places, p ∈ q.children := by
  rcases Relation.ReflTransGen.cases_tail (Place.mem_withDescendants.mp hp) with heq | ⟨q, hq, hp⟩
  · exact .inl heq
  · exact .inr ⟨q, Place.mem_withDescendants.mpr hq, hp⟩

/-- The elements listed around a place are those that the place is inside of. -/
theorem mem_outward_above_iff (hp : p ∈ d.places) :
    (h, around) ∈ outward p.above ↔
      ∃ q ∈ d.places, q.IsAncestorOf p ∧ q.node.head = h ∧ q.above = around := by
  constructor
  · have hinside := Place.mem_withDescendants.mp hp
    induction hinside with
    | refl => exact nofun
    | @tail b p hb hchild ih =>
      have hmem := Place.mem_withDescendants.mpr hb
      rw [Place.outward_above_of_mem_children hchild]
      rintro (⟨helement, heq⟩ | hmore)
      · obtain ⟨rfl, rfl⟩ := Prod.mk.inj heq
        exact ⟨b, hmem, ⟨helement, .single hchild⟩, rfl, rfl⟩
      · obtain ⟨q, hq, ⟨helement, hinside⟩, hhead, haround⟩ := ih hmem hmore
        exact ⟨q, hq, ⟨helement, .tail hinside hchild⟩, hhead, haround⟩
  · rintro ⟨q, -, hq, rfl, rfl⟩
    exact hq.mem_outward

/-- Only the root of a numbered document is not an element and yet has something in it. -/
theorem Numbered.isElement_or_eq_root (hd : d.Numbered) {q : Place} (hq : q ∈ d.places)
    (hp : p ∈ q.children) : q.node.isElement = true ∨ q = d.root := by
  have hroot := d.root_mem_places
  obtain ⟨n, above⟩ := q
  cases n with
  | document ns => exact .inr (hd.eq_of_id hq hroot rfl)
  | text id content => cases hp
  | element head ns => exact .inl rfl

/-- The nearest element around a place is its parent, if that is an element. -/
theorem Numbered.above_eq_cons_iff (hd : d.Numbered) (hp : p ∈ d.places) :
    p.above = h :: around ↔
      ∃ q ∈ d.places, q.IsParentOf p ∧ q.node.head = h ∧ q.above = around := by
  constructor
  · intro habove
    rcases eq_root_or_mem_children hp with rfl | ⟨q, hq, hchild⟩
    · cases habove
    · rcases hd.isElement_or_eq_root hq hchild with helement | rfl
      · have hparent : q.IsParentOf p := ⟨helement, hchild⟩
        rw [hparent.above] at habove
        obtain ⟨rfl, rfl⟩ := List.cons.inj habove
        exact ⟨q, hq, hparent, rfl, rfl⟩
      · rw [Place.above_of_mem_children hchild] at habove
        cases habove
  · rintro ⟨q, -, hq, rfl, rfl⟩
    exact hq.above

end Document

end ContentGrammar
