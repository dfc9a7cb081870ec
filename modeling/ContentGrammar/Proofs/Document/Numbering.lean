import Mathlib.Data.List.Nodup
import ContentGrammar.Document.Basic

/-!
# The numbers of nodes

The nodes of a document are numbered in document order without gaps (`ids_places`), so a number
stands for one place (`Numbered.eq_of_id`) and the elements come in the order of their numbers.
Whatever is around a place are places of elements themselves (`mem_places_above`).
-/

namespace ContentGrammar

/-- Induction over markup, with the claim for all nodes of a list at once. -/
@[induction_eliminator]
theorem Markup.induct {motive : Markup → Prop} (text : ∀ content, motive (.text content))
    (element : ∀ name attributes children position, (∀ m ∈ children, motive m) →
      motive (.element name attributes children position)) (m : Markup) : motive m :=
  match m with
  | .text content => text content
  | .element name attributes children position =>
    element name attributes children position fun n _ => induct text element n

namespace Node

/-- Induction over a node, with the claim for all nodes of a list at once. -/
@[induction_eliminator]
theorem induct {motive : Node → Prop}
    (document : ∀ ns, (∀ n ∈ ns, motive n) → motive (.document ns))
    (text : ∀ id content, motive (.text id content))
    (element : ∀ head ns, (∀ n ∈ ns, motive n) → motive (.element head ns)) (n : Node) :
    motive n :=
  match n with
  | .document ns => document ns fun m _ => induct document text element m
  | .text id content => text id content
  | .element head ns => element head ns fun m _ => induct document text element m

/-! ## Numbers -/

theorem numberAll_cons {start : Nat} {m : Markup} {ms : List Markup} :
    numberAll start (m :: ms) =
      ((number start m).1 :: (numberAll (number start m).2 ms).1,
        (numberAll (number start m).2 ms).2) := rfl

/-- What an element shows of itself when it has the number `start`. -/
def headOf (start : Nat) (name : String) (attributes : Dictionary String)
    (position : Option Position) : Head :=
  ⟨start, Ascii.lower name, attributes.entries.map fun a => (Ascii.lower a.1, a.2), position⟩

theorem numberAll_element {start : Nat} {name : String} {attributes : Dictionary String}
    {children ms : List Markup} {position : Option Position} :
    numberAll start (.element name attributes children position :: ms) =
      (.element (headOf start name attributes position) (numberAll (start + 1) children).1 ::
        (numberAll (numberAll (start + 1) children).2 ms).1,
        (numberAll (numberAll (start + 1) children).2 ms).2) := rfl

theorem ids_numberAll {ms : List Markup}
    (h : ∀ m ∈ ms, ∀ start above, ∃ k, (number start m).2 = start + k ∧
      ((number start m).1.places above).map (·.node.id) = List.range' start k)
    (start : Nat) (above : List Head) : ∃ k, (numberAll start ms).2 = start + k ∧
      (placesAll above (numberAll start ms).1).map (·.node.id) = List.range' start k := by
  induction ms generalizing start with
  | nil => exact ⟨0, rfl, rfl⟩
  | cons m ms ih =>
    obtain ⟨j, hj, hfirst⟩ := h m List.mem_cons_self start above
    -- the others are numbered from where the first node has left off
    obtain ⟨k, hk, hrest⟩ := ih (fun n hn => h n (List.mem_cons_of_mem _ hn)) (start + j)
    refine ⟨j + k, ?_, ?_⟩
    · rw [numberAll_cons, hj, hk, Nat.add_assoc]
    · rw [numberAll_cons, hj, placesAll, List.map_append, hfirst, hrest, List.range'_append_1]

/-- The numbers given out to a node and what it contains are those from `start` on. -/
theorem ids_number (m : Markup) (start : Nat) (above : List Head) :
    ∃ k, (number start m).2 = start + k ∧
      ((number start m).1.places above).map (·.node.id) = List.range' start k := by
  induction m generalizing start above with
  | text content => exact ⟨1, rfl, rfl⟩
  | element name attributes children position ih =>
    rw [number]
    dsimp only
    obtain ⟨k, hk, hids⟩ := ids_numberAll ih (start + 1) (⟨start, Ascii.lower name,
      attributes.entries.map fun a => (Ascii.lower a.1, a.2), position⟩ :: above)
    refine ⟨k + 1, by omega, ?_⟩
    rw [places, List.map_cons, hids, List.range'_succ]
    rfl

/-! ## What is around a place -/

theorem mem_placesAll {ns : List Node} {above : List Head} {p : Place} :
    p ∈ placesAll above ns ↔ ∃ n ∈ ns, p ∈ n.places above := by
  induction ns with
  | nil => simp [placesAll]
  | cons n ns ih => simp [placesAll, ih]

/-- The nearest element around a place inside a node is one of the places inside it, or one that is
around the node already. -/
theorem mem_places_above {n : Node} {above : List Head} {p : Place} (h : p ∈ n.places above) :
    p.above = above ∨
      ∃ q ∈ n.places above, q.node.isElement = true ∧ p.above = q.node.head :: q.above := by
  induction n generalizing above with
  | document ns ih =>
    rw [places] at h ⊢
    rcases List.mem_cons.mp h with rfl | h
    · exact .inl rfl
    · obtain ⟨n, hn, hp⟩ := mem_placesAll.mp h
      rcases ih n hn hp with habove | ⟨q, hq, helem, habove⟩
      · exact .inl habove
      · exact .inr ⟨q, List.mem_cons_of_mem _ (mem_placesAll.mpr ⟨n, hn, hq⟩), helem, habove⟩
  | text id content =>
    rw [places] at h
    obtain rfl := List.mem_singleton.mp h
    exact .inl rfl
  | element head ns ih =>
    rw [places] at h ⊢
    rcases List.mem_cons.mp h with rfl | h
    · exact .inl rfl
    · obtain ⟨n, hn, hp⟩ := mem_placesAll.mp h
      rcases ih n hn hp with habove | ⟨q, hq, helem, habove⟩
      · exact .inr ⟨_, List.mem_cons_self, rfl, habove⟩
      · exact .inr ⟨q, List.mem_cons_of_mem _ (mem_placesAll.mpr ⟨n, hn, hq⟩), helem, habove⟩

end Node

namespace Document

/-- Whether the nodes are numbered in document order without gaps. -/
def Numbered (d : Document) : Prop :=
  d.places.map (·.node.id) = List.range d.places.length

/-- A document that was read is numbered. -/
theorem numbered_ofMarkup (forest : List Markup) : (ofMarkup forest).Numbered := by
  obtain ⟨k, -, hids⟩ := Node.ids_numberAll (fun m _ => Node.ids_number m) 1 []
  have hplaces : (ofMarkup forest).places.map (·.node.id) = List.range (k + 1) := by
    rw [List.range_eq_range', List.range'_succ, Nat.zero_add, ← hids]
    rfl
  have hlength := congrArg List.length hplaces
  rw [List.length_map, List.length_range] at hlength
  rw [Numbered, hplaces, hlength]

variable {d : Document}

/-- A number stands for one place. -/
theorem Numbered.eq_of_id (h : d.Numbered) {p q : Place} (hp : p ∈ d.places) (hq : q ∈ d.places)
    (hid : p.node.id = q.node.id) : p = q := by
  have hnodup : (d.places.map (·.node.id)).Nodup := h ▸ List.nodup_range
  exact List.inj_on_of_nodup_map hnodup hp hq hid

theorem Numbered.pairwise_elements (h : d.Numbered) :
    d.elements.Pairwise fun p q => p.node.id < q.node.id := by
  have hids : (d.places.map (·.node.id)).Pairwise (· < ·) := h ▸ List.pairwise_lt_range
  exact (List.pairwise_map.mp hids).filter _

/-- The nearest element around a place is a place of the document. -/
theorem exists_place_of_above {p : Place} (hp : p ∈ d.places) {e : Head} {around : List Head}
    (h : p.above = e :: around) :
    ∃ q ∈ d.places, q.node.isElement = true ∧ q.node.head = e ∧ q.above = around := by
  rcases Node.mem_places_above hp with habove | ⟨q, hq, helem, habove⟩
  · rw [show d.root.above = [] from rfl, h] at habove
    cases habove
  · rw [h] at habove
    obtain ⟨rfl, rfl⟩ := List.cons.inj habove
    exact ⟨q, hq, helem, rfl, rfl⟩

end Document

end ContentGrammar
