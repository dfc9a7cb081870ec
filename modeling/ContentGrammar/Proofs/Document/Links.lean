import ContentGrammar.Proofs.Document.Ancestry
import ContentGrammar.Proofs.Document.Attributes
import ContentGrammar.Proofs.Document.Filling

/-!
# Following the links of a table

Where a table has the entries of the places of a document (`Arena.Tabulates`), its links lead from the
number of a place to the numbers of what is around and inside the place.
-/

namespace ContentGrammar

/-! ## Places and their numbers -/

namespace Document.Numbered

variable {d : Document} {p q : Place}

/-- What is inside a place has the numbers that follow the one of the place. -/
theorem ids_inside (hd : d.Numbered) (hp : p ∈ d.places) :
    (p.children.flatMap Place.withDescendants).map (·.node.id) =
      List.range' (p.node.id + 1) (p.children.flatMap Place.withDescendants).length := by
  have hids := hd.ids_of_mem hp
  rw [← p.node.ids_places p.above, List.length_map] at hids
  change p.withDescendants.map _ = List.range' _ p.withDescendants.length at hids
  rw [p.withDescendants_eq, List.length_cons, List.range'_succ] at hids
  exact (List.cons.inj hids).2

/-- What is inside has a larger number. -/
theorem lt_of_mem_children (hd : d.Numbered) (hq : q ∈ d.places) (hp : p ∈ q.children) :
    q.node.id < p.node.id := by
  have hmem : p ∈ q.children.flatMap Place.withDescendants :=
    List.mem_flatMap.mpr ⟨p, hp, Place.mem_withDescendants.mpr .refl⟩
  have hid := List.mem_map_of_mem (f := fun r => r.node.id) hmem
  rw [hd.ids_inside hq, List.mem_range'_1] at hid
  exact hid.1

theorem pairwise_children (hd : d.Numbered) (hp : p ∈ d.places) :
    (p.children.map (·.node.id)).Pairwise (· < ·) := by
  refine List.Pairwise.sublist ((Place.sublist_flatMap_withDescendants p.children).map _) ?_
  rw [hd.ids_inside hp]
  exact List.pairwise_lt_range'

/-- There are no more elements around a place than numbers before it. -/
theorem length_above_le (hd : d.Numbered) (hp : p ∈ d.places) : p.above.length ≤ p.node.id := by
  induction habove : p.above generalizing p with
  | nil => exact Nat.zero_le _
  | cons h around ih =>
    obtain ⟨q, hq, hparent, -, haround⟩ := (hd.above_eq_cons_iff hp).mp habove
    have := ih hq haround
    have := hd.lt_of_mem_children hq hparent.2
    rw [List.length_cons, ← haround] at *
    omega

end Document.Numbered

namespace Arena

/-- Whether a table has the entries of the places of a document, each at the number of the place. -/
structure Tabulates (a : Arena) (d : Document) : Prop where
  numbered : d.Numbered
  entries : a.entries.toList = d.places.map Place.entry

/-- Whether the table has a link from a node to another directly inside. -/
def Links (a : Arena) (n m : Nat) : Prop := m ∈ a.children n

namespace Tabulates

variable {a : Arena} {d : Document} {p q : Place} {n x : Nat}

theorem size (h : a.Tabulates d) : a.entries.size = d.places.length := by
  rw [← Array.length_toList, h.entries, List.length_map]

theorem getElem? (h : a.Tabulates d) (hp : p ∈ d.places) : a.entries[p.node.id]? = some p.entry := by
  obtain ⟨i, hi⟩ := List.mem_iff_getElem?.mp hp
  have hid : p.node.id = i := by
    have hids := congrArg (·[i]?) h.numbered
    have hlt := (List.getElem?_eq_some_iff.mp hi).choose
    simp only [List.getElem?_map, hi, Option.map_some, List.getElem?_range hlt] at hids
    exact Option.some.inj hids
  rw [hid, ← Array.getElem?_toList, h.entries, List.getElem?_map, hi, Option.map_some]

/-- Every number of the table is that of a place. -/
theorem exists_place (h : a.Tabulates d) (hn : n < a.entries.size) :
    ∃ p ∈ d.places, p.node.id = n := by
  rw [h.size] at hn
  have hmem : n ∈ d.places.map (·.node.id) := h.numbered ▸ List.mem_range.mpr hn
  exact List.mem_map.mp hmem

theorem id_lt (h : a.Tabulates d) (hp : p ∈ d.places) : p.node.id < a.entries.size :=
  (Array.getElem?_eq_some_iff.mp (h.getElem? hp)).choose

/-! ## One link -/

/-- The links to the inside are the numbers of what is directly inside, in order. -/
theorem children (h : a.Tabulates d) (hp : p ∈ d.places) :
    a.children p.node.id = p.children.map (·.node.id) := by
  rw [Arena.children, h.getElem? hp, Place.children, List.map_map]
  obtain ⟨n, above⟩ := p
  cases n <;> rfl

theorem links_iff (h : a.Tabulates d) (hp : p ∈ d.places) :
    a.Links p.node.id x ↔ ∃ q ∈ p.children, q.node.id = x := by
  rw [Links, h.children hp, List.mem_map]

theorem lt_size_of_links (h : a.Links n x) : n < a.entries.size := by
  by_contra hn
  rw [Links, Arena.children, Array.getElem?_eq_none (Nat.not_lt.mp hn)] at h
  cases h

theorem isElement (h : a.Tabulates d) (hp : p ∈ d.places) :
    a.isElement p.node.id = p.node.isElement := by
  rw [Arena.isElement, h.getElem? hp]
  obtain ⟨n, above⟩ := p
  cases n <;> rfl

theorem lt_size_of_isElement (h : a.isElement n = true) : n < a.entries.size := by
  by_contra hn
  rw [Arena.isElement, Array.getElem?_eq_none (Nat.not_lt.mp hn)] at h
  cases h

/-- The number of what is around is that of the place that a place is directly inside of. -/
theorem numberAround_of_mem_children (h : a.Tabulates d) (hq : q ∈ d.places) (hp : p ∈ q.children) :
    numberAround p.above = q.node.id := by
  rw [Place.above_of_mem_children hp]
  rcases h.numbered.isElement_or_eq_root hq hp with helement | rfl
  · rw [Place.aboveChildren_of_isElement helement]
    rfl
  · rfl

/-- The link to the outside is the number of what is directly around. -/
theorem parent? (h : a.Tabulates d) (hq : q ∈ d.places) (hp : p ∈ q.children) :
    a.parent? p.node.id = some q.node.id := by
  have hmem := Document.mem_places_of_mem_children hq hp
  rw [Arena.parent?, h.getElem? hmem, ← h.numberAround_of_mem_children hq hp]
  have hlt := h.numbered.lt_of_mem_children hq hp
  obtain ⟨n, above⟩ := p
  cases n with
  | document ns => exact absurd hlt (Nat.not_lt_zero _)
  | text id content | element head ns => rfl

/-- The element around a place is the first of those above it, if there is one. -/
theorem parentElement? (h : a.Tabulates d) (hp : p ∈ d.places) :
    a.parentElement? p.node.id = (p.above.map Head.id).head? := by
  rw [Arena.parentElement?]
  rcases Document.eq_root_or_mem_children hp with rfl | ⟨q, hq, hchild⟩
  · have hroot := h.getElem? hp
    rw [Arena.parent?, hroot]
    rfl
  · rw [h.parent? hq hchild, Option.filter_some, h.isElement hq, Place.above_of_mem_children hchild]
    by_cases helement : q.node.isElement = true
    · rw [if_pos helement, Place.aboveChildren_of_isElement helement]
      rfl
    · obtain rfl := (h.numbered.isElement_or_eq_root hq hchild).resolve_left helement
      rfl

/-! ## Rows of links -/

theorem stacked_eq (ns stack : List Nat) : stacked ns stack = ns ++ stack := by
  rw [stacked, List.foldl_reverse]
  induction ns with
  | nil => rfl
  | cons n ns ih => rw [List.foldr_cons, ih, List.cons_append]

/-- From a stack on, what is visited is each place with what is inside, up to so many. -/
theorem visit (h : a.Tabulates d) (fuel : Nat) {ps : List Place} (hps : ∀ p ∈ ps, p ∈ d.places) :
    a.visit fuel (ps.map (·.node.id)) =
      ((ps.flatMap Place.withDescendants).map (·.node.id)).take fuel := by
  induction fuel generalizing ps with
  | zero => rfl
  | succ fuel ih =>
    cases ps with
    | nil => rfl
    | cons p ps =>
      have hp := hps p List.mem_cons_self
      -- the stack goes on with the children, and then with what was there
      have hnext : ∀ q ∈ p.children ++ ps, q ∈ d.places := by
        intro q hq
        rcases List.mem_append.mp hq with hq | hq
        · exact Document.mem_places_of_mem_children hp hq
        · exact hps q (List.mem_cons_of_mem _ hq)
      rw [List.map_cons, Arena.visit, stacked_eq, h.children hp, ← List.map_append, ih hnext,
        List.flatMap_cons, p.withDescendants_eq, List.flatMap_append]
      rfl

/-- No more steps are needed than the table has entries. -/
theorem visit_children (h : a.Tabulates d) (hp : p ∈ d.places) {fuel : Nat}
    (hfuel : a.entries.size ≤ fuel) : a.visit fuel (stacked (a.children p.node.id) []) =
      (p.children.flatMap Place.withDescendants).map (·.node.id) := by
  have hplaces : p.withDescendants.length ≤ d.places.length := (Node.infix_places hp).length_le
  rw [p.withDescendants_eq, List.length_cons, ← h.size] at hplaces
  have hchildren : ∀ c ∈ p.children, c ∈ d.places :=
    fun c => Document.mem_places_of_mem_children hp
  rw [stacked_eq, List.append_nil, h.children hp, h.visit fuel hchildren]
  refine List.take_of_length_le ?_
  rw [List.length_map]
  omega

theorem descendants (h : a.Tabulates d) (hp : p ∈ d.places) : a.descendants p.node.id =
    (p.children.flatMap Place.withDescendants).map (·.node.id) :=
  h.visit_children hp (Nat.le_refl _)

/-- Going up passes the elements above a place from the inside to the outside. -/
theorem climb (h : a.Tabulates d) (fuel : Nat) (hp : p ∈ d.places) :
    a.climb fuel p.node.id = (p.above.map Head.id).take fuel := by
  induction fuel generalizing p with
  | zero => rfl
  | succ fuel ih =>
    rw [Arena.climb, h.parentElement? hp]
    cases habove : p.above with
    | nil => rfl
    | cons e around =>
      obtain ⟨q, hq, -, rfl, rfl⟩ := (h.numbered.above_eq_cons_iff hp).mp habove
      exact congrArg (q.node.id :: ·) (ih hq)

theorem climb_of_le (h : a.Tabulates d) (hp : p ∈ d.places) {fuel : Nat}
    (hfuel : a.entries.size ≤ fuel) : a.climb fuel p.node.id = p.above.map Head.id := by
  have := h.numbered.length_above_le hp
  have := h.id_lt hp
  rw [h.climb fuel hp, List.take_of_length_le]
  rw [List.length_map]
  omega

theorem ancestors (h : a.Tabulates d) (hp : p ∈ d.places) :
    a.ancestors p.node.id = p.above.map Head.id :=
  h.climb_of_le hp (Nat.le_refl _)

theorem lt_of_links (h : a.Tabulates d) (hlink : a.Links n x) : n < x := by
  obtain ⟨p, hp, rfl⟩ := h.exists_place (lt_size_of_links hlink)
  obtain ⟨q, hq, rfl⟩ := (h.links_iff hp).mp hlink
  exact h.numbered.lt_of_mem_children hp hq

theorem lt_of_transGen_links (h : a.Tabulates d) (hlinks : Relation.TransGen a.Links n x) :
    n < x := by
  induction hlinks with
  | single hlink => exact h.lt_of_links hlink
  | tail _ hlink ih => exact Nat.lt_trans ih (h.lt_of_links hlink)

theorem mem_of_inside (hp : p ∈ d.places)
    (hq : Relation.TransGen (fun outer inner => inner ∈ outer.children) p q) : q ∈ d.places := by
  induction hq with
  | single hchild => exact Document.mem_places_of_mem_children hp hchild
  | tail _ hchild ih => exact Document.mem_places_of_mem_children ih hchild

/-- By links one comes from a place to just what is inside of it. -/
theorem transGen_links_iff (h : a.Tabulates d) (hp : p ∈ d.places) :
    Relation.TransGen a.Links p.node.id x ↔
      ∃ q, Relation.TransGen (fun outer inner => inner ∈ outer.children) p q ∧ q.node.id = x := by
  constructor
  · intro hx
    induction hx with
    | single hlink =>
      obtain ⟨q, hq, rfl⟩ := (h.links_iff hp).mp hlink
      exact ⟨q, .single hq, rfl⟩
    | tail _ hlink ih =>
      obtain ⟨r, hr, rfl⟩ := ih
      obtain ⟨q, hq, rfl⟩ := (h.links_iff (mem_of_inside hp hr)).mp hlink
      exact ⟨q, .tail hr hq, rfl⟩
  · rintro ⟨q, hinside, rfl⟩
    induction hinside with
    | single hchild => exact .single ((h.links_iff hp).mpr ⟨_, hchild, rfl⟩)
    | tail hr hchild ih =>
      exact .tail ih ((h.links_iff (mem_of_inside hp hr)).mpr ⟨_, hchild, rfl⟩)

/-- What is visited from a node is what links to the inside lead to. -/
theorem mem_descendants_iff (h : a.Tabulates d) (hn : n < a.entries.size) :
    x ∈ a.descendants n ↔ Relation.TransGen a.Links n x := by
  obtain ⟨p, hp, rfl⟩ := h.exists_place hn
  rw [h.descendants hp, h.transGen_links_iff hp, List.mem_map]
  simp only [List.mem_flatMap, Place.mem_withDescendants, Relation.TransGen.head'_iff]

/-- What is passed on the way up are the elements from which links to the inside lead here. -/
theorem mem_ancestors_iff (h : a.Tabulates d) (hn : n < a.entries.size) :
    x ∈ a.ancestors n ↔ a.isElement x = true ∧ Relation.TransGen a.Links x n := by
  obtain ⟨p, hp, rfl⟩ := h.exists_place hn
  rw [h.ancestors hp, List.mem_map]
  constructor
  · rintro ⟨e, he, rfl⟩
    obtain ⟨around, houtward⟩ := Selector.mem_iff_exists_outward.mp he
    obtain ⟨q, hq, hancestor, rfl, -⟩ := (Document.mem_outward_above_iff hp).mp houtward
    exact ⟨(h.isElement hq).trans hancestor.1, (h.transGen_links_iff hq).mpr ⟨p, hancestor.2, rfl⟩⟩
  · rintro ⟨helement, hlinks⟩
    obtain ⟨q, hq, rfl⟩ := h.exists_place (lt_size_of_isElement helement)
    obtain ⟨r, hinside, hid⟩ := (h.transGen_links_iff hq).mp hlinks
    obtain rfl := h.numbered.eq_of_id (mem_of_inside hq hinside) hp hid
    have hancestor : q.IsAncestorOf r := ⟨(h.isElement hq).symm.trans helement, hinside⟩
    exact ⟨q.node.head, Selector.mem_iff_exists_outward.mpr ⟨_, hancestor.mem_outward⟩, rfl⟩

/-- On the way up the numbers get smaller. -/
theorem pairwise_ancestors (h : a.Tabulates d) (hn : n < a.entries.size) :
    (a.ancestors n).Pairwise (· > ·) := by
  obtain ⟨p, hp, rfl⟩ := h.exists_place hn
  rw [h.ancestors hp]
  induction habove : p.above generalizing p with
  | nil => exact .nil
  | cons e around ih =>
    obtain ⟨q, hq, -, rfl, rfl⟩ := (h.numbered.above_eq_cons_iff hp).mp habove
    refine .cons (fun x hx => ?_) (ih q hq (h.id_lt hq) rfl)
    -- what is around `q` has links that lead to it
    change x ∈ q.above.map Head.id at hx
    rw [← h.ancestors hq, h.mem_ancestors_iff (h.id_lt hq)] at hx
    exact h.lt_of_transGen_links hx.2

end Tabulates

end Arena

end ContentGrammar
