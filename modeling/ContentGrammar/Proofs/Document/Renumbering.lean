import Mathlib.Data.List.Forall2
import ContentGrammar.Document.Content
import ContentGrammar.Proofs.Document.Numbering

/-!
# Renumbering

Two nodes have the same tree if they differ in their numbers alone. What a node contains is numbered
from the number of the node on (`Numbered.ids_of_mem`), so of two nodes of documents with the same
tree one comes from the other by adding the difference of their numbers (`eq_renumber`).

A place `q` is a place `p` renumbered if its node is that of `p` with other numbers, and the elements
around it have the names and attributes of those around `p` (`Place.Renumbered`).
-/

namespace ContentGrammar

/-- What a head shows to selectors and conditions: its name and its attributes. -/
def Head.face (h : Head) : String × List (String × String) := (h.name, h.attributes)

/-- Each element of one list has the face of the element at the same place of the other. -/
abbrev SameFaces : List Head → List Head → Prop := List.Forall₂ fun h h' => h.face = h'.face

theorem sameFaces_iff {above above' : List Head} :
    SameFaces above above' ↔ above.map Head.face = above'.map Head.face := by
  rw [← List.forall₂_eq_eq_eq, List.forall₂_map_left_iff, List.forall₂_map_right_iff]

namespace Node

mutual

/-- A node with its numbers renamed. -/
def renumber (f : Nat → Nat) : Node → Node
  | .document ns => .document (renumberAll f ns)
  | .text id content => .text (f id) content
  | .element head ns => .element { head with id := f head.id } (renumberAll f ns)

/-- Several nodes with their numbers renamed. -/
def renumberAll (f : Nat → Nat) : List Node → List Node
  | [] => []
  | n :: ns => n.renumber f :: renumberAll f ns

end

/-- The tree of a node: its kinds, names, texts, attributes and positions, but no numbers. -/
def tree (n : Node) : Node := n.renumber fun _ => 0

mutual

/-- The numbers of a node and of what it contains, in document order. -/
def ids : Node → List Nat
  | .document ns => 0 :: idsAll ns
  | .text id _ => [id]
  | .element head ns => head.id :: idsAll ns

/-- The numbers of several nodes and of what they contain. -/
def idsAll : List Node → List Nat
  | [] => []
  | n :: ns => n.ids ++ idsAll ns

end

variable {n m : Node} {f : Nat → Nat} {above : List Head} {p : Place}

theorem ids_places (n : Node) (above : List Head) : (n.places above).map (·.node.id) = n.ids := by
  have hall : ∀ {ns : List Node},
      (∀ n ∈ ns, ∀ above, (n.places above).map (·.node.id) = n.ids) → ∀ above,
      (placesAll above ns).map (·.node.id) = idsAll ns := by
    intro ns hns above
    induction ns with
    | nil => rfl
    | cons n ns ih =>
      rw [placesAll, List.map_append, hns n List.mem_cons_self,
        ih fun m hm => hns m (List.mem_cons_of_mem _ hm), idsAll]
  induction n generalizing above with
  | document ns ih => exact congrArg (0 :: ·) (hall ih _)
  | text id content => rfl
  | element head ns ih => exact congrArg (head.id :: ·) (hall ih _)

theorem length_ids_renumber (f : Nat → Nat) (n : Node) :
    (n.renumber f).ids.length = n.ids.length := by
  have hall : ∀ {ns : List Node}, (∀ n ∈ ns, (n.renumber f).ids.length = n.ids.length) →
      (idsAll (renumberAll f ns)).length = (idsAll ns).length := by
    intro ns hns
    induction ns with
    | nil => rfl
    | cons n ns ih =>
      rw [renumberAll, idsAll, idsAll, List.length_append, List.length_append,
        hns n List.mem_cons_self, ih fun m hm => hns m (List.mem_cons_of_mem _ hm)]
  induction n with
  | document ns ih => exact congrArg (· + 1) (hall ih)
  | text id content => rfl
  | element head ns ih => exact congrArg (· + 1) (hall ih)

theorem length_ids_of_tree (h : n.tree = m.tree) : n.ids.length = m.ids.length := by
  rw [← length_ids_renumber (fun _ => 0) n, ← length_ids_renumber (fun _ => 0) m]
  exact congrArg (·.ids.length) h

/-- Of two nodes with the same tree, one comes from the other by renaming numbers. -/
theorem eq_renumber_of_ids (htree : n.tree = m.tree) (hids : m.ids = n.ids.map f) :
    m = n.renumber f := by
  have hall : ∀ {ns ms : List Node},
      (∀ n ∈ ns, ∀ m : Node, n.tree = m.tree → m.ids = n.ids.map f → m = n.renumber f) →
      renumberAll (fun _ => 0) ns = renumberAll (fun _ => 0) ms →
      idsAll ms = (idsAll ns).map f → ms = renumberAll f ns := by
    intro ns ms hns htrees hids
    induction ns generalizing ms with
    | nil =>
      cases ms with
      | nil => rfl
      | cons m ms => cases htrees
    | cons n ns ih =>
      cases ms with
      | nil => cases htrees
      | cons m ms =>
        obtain ⟨htree, htrees⟩ := List.cons.inj htrees
        rw [idsAll, idsAll, List.map_append] at hids
        -- the first nodes have equally many numbers, so both lists come apart at the same place
        have hlength : m.ids.length = (n.ids.map f).length := by
          rw [List.length_map]
          exact (length_ids_of_tree htree).symm
        obtain ⟨hfirst, hrest⟩ := List.append_inj hids hlength
        rw [renumberAll, ← hns n List.mem_cons_self m htree hfirst,
          ← ih (fun n hn => hns n (List.mem_cons_of_mem _ hn)) htrees hrest]
  induction n generalizing m with
  | document ns ih =>
    cases m with
    | document ms =>
      rw [renumber, hall ih (Node.document.inj htree) (List.cons.inj hids).2]
    | text id content => cases htree
    | element head ms => cases htree
  | text id content =>
    cases m with
    | document ms => cases htree
    | text id' content' =>
      obtain ⟨-, rfl⟩ := Node.text.inj htree
      rw [renumber, (List.cons.inj hids).1]
    | element head ms => cases htree
  | element head ns ih =>
    cases m with
    | document ms => cases htree
    | text id content => cases htree
    | element head' ms =>
      obtain ⟨hhead, htrees⟩ := Node.element.inj htree
      obtain ⟨hid, hids⟩ := List.cons.inj hids
      rw [renumber, ← hall ih htrees hids]
      congr 1
      obtain ⟨id', name', attributes', position'⟩ := head'
      obtain ⟨-, rfl, rfl, rfl⟩ := Head.mk.inj hhead
      exact congrArg (Head.mk · _ _ _) hid

/-! ## The numbers of what a place contains -/

theorem placesAll_eq_flatMap (above : List Head) (ns : List Node) :
    placesAll above ns = ns.flatMap (places above) := by
  induction ns with
  | nil => rfl
  | cons n ns ih => rw [placesAll, ih, List.flatMap_cons]

theorem infix_placesAll {ns : List Node} (h : n ∈ ns) (above : List Head) :
    n.places above <:+: placesAll above ns := by
  obtain ⟨before, after, rfl⟩ := List.append_of_mem h
  rw [placesAll_eq_flatMap, List.flatMap_append, List.flatMap_cons, ← List.append_assoc]
  exact List.infix_append _ _ _

/-- The places inside a place are next to each other. -/
theorem infix_places (h : p ∈ n.places above) :
    p.node.places p.above <:+: n.places above := by
  induction n generalizing above with
  | document ns ih =>
    rw [places] at h
    rcases List.mem_cons.mp h with rfl | h
    · exact List.infix_rfl
    · obtain ⟨n, hn, hp⟩ := mem_placesAll.mp h
      rw [places]
      exact ((ih n hn hp).trans (infix_placesAll hn above)).trans (List.infix_cons List.infix_rfl)
  | text id content =>
    rw [places] at h
    obtain rfl := List.mem_singleton.mp h
    exact List.infix_rfl
  | element head ns ih =>
    rw [places] at h
    rcases List.mem_cons.mp h with rfl | h
    · exact List.infix_rfl
    · obtain ⟨n, hn, hp⟩ := mem_placesAll.mp h
      rw [places]
      exact ((ih n hn hp).trans (infix_placesAll hn _)).trans (List.infix_cons List.infix_rfl)

theorem head?_ids (n : Node) : n.ids.head? = some n.id := by
  cases n <;> rfl

theorem id_mem_ids_of_mem_children (h : m ∈ n.children) : m.id ∈ n.ids := by
  have hall : ∀ {ns : List Node}, m ∈ ns → m.id ∈ idsAll ns := by
    intro ns hm
    induction ns with
    | nil => cases hm
    | cons n ns ih =>
      rw [idsAll, List.mem_append]
      rcases List.mem_cons.mp hm with rfl | hm
      · exact .inl (List.mem_of_mem_head? (head?_ids m))
      · exact .inr (ih hm)
  cases n with
  | document ns => exact List.mem_cons_of_mem _ (hall h)
  | text id content => cases h
  | element head ns => exact List.mem_cons_of_mem _ (hall h)

end Node

theorem range'_of_infix {xs : List Nat} {start count : Nat} (h : xs <:+: List.range' start count) :
    ∃ first, xs = List.range' first xs.length := by
  obtain ⟨before, after, heq⟩ := h
  obtain ⟨k, -, hbefore, -⟩ := List.range'_eq_append_iff.mp heq.symm
  obtain ⟨j, -, -, hxs⟩ := List.range'_eq_append_iff.mp hbefore.symm
  exact ⟨_, by rw [hxs, List.length_range']⟩

/-- What a place of a numbered document contains has the numbers from that of the place on. -/
theorem Document.Numbered.ids_of_mem {d : Document} (hd : d.Numbered) {p : Place}
    (hp : p ∈ d.places) : p.node.ids = List.range' p.node.id p.node.ids.length := by
  have hinfix := (Node.infix_places hp).map (·.node.id)
  rw [Node.ids_places, show (d.root.node.places d.root.above).map (·.node.id) =
    d.places.map (·.node.id) from rfl, hd, List.range_eq_range'] at hinfix
  obtain ⟨first, hids⟩ := range'_of_infix hinfix
  have hhead := Node.head?_ids p.node
  cases hlength : p.node.ids.length with
  | zero =>
    rw [List.eq_nil_of_length_eq_zero hlength] at hhead
    cases hhead
  | succ k =>
    rw [hlength, List.range'_succ] at hids
    rw [hids] at hhead ⊢
    obtain rfl := Option.some.inj hhead
    rw [← List.range'_succ]

/-- A number that lies `n` behind `start`, moved to where it lies as far behind `target`. -/
def moved (start target n : Nat) : Nat := n + target - start

/-- Of two places with the same tree, one comes from the other by moving its numbers. -/
theorem Document.Numbered.eq_renumber {d e : Document} (hd : d.Numbered) (he : e.Numbered)
    {p q : Place} (hp : p ∈ d.places) (hq : q ∈ e.places) (htree : p.node.tree = q.node.tree) :
    q.node = p.node.renumber (moved p.node.id q.node.id) := by
  refine Node.eq_renumber_of_ids htree ?_
  rw [he.ids_of_mem hq, ← Node.length_ids_of_tree htree, hd.ids_of_mem hp]
  simp only [List.length_range']
  refine List.ext_getElem (by simp) fun i h₁ h₂ => ?_
  simp [moved]
  omega

/-! ## Renumbered places -/

namespace Place

/-- `p.Renumbered f q`: the place `q` is `p` with the numbers in it renamed by `f`, as far as can be
seen from the node and the faces of the elements around it. -/
structure Renumbered (f : Nat → Nat) (p q : Place) : Prop where
  node : q.node = p.node.renumber f
  above : SameFaces p.above q.above

variable {p : Place}

theorem isContent_of_isElement (h : p.node.isElement = true) : p.node.isContent = true := by
  cases hn : p.node with
  | element head ns => rfl
  | document ns | text id content =>
    rw [hn] at h
    cases h

end Place

end ContentGrammar
