import ContentGrammar.Proofs.Document.Links

/-!
# Tables represent what they were filled with

A table of a document has the nodes of the markup in document order, each linked from the node that it
is in and from no other (`Arena.Represents`). The markup can be read off the table again, from any node
on, but for the case of letters in names (`Arena.Holds`). `Arena.ofMarkup_represents` says so of every
markup for which there are numbers enough.
-/

namespace ContentGrammar

namespace Markup

mutual

/-- A node with all that it contains, in document order. -/
def preorder : Markup → List Markup
  | .text content => [.text content]
  | .element name attributes children position =>
    .element name attributes children position :: preorderAll children

/-- Several nodes with all that they contain. -/
def preorderAll : List Markup → List Markup
  | [] => []
  | m :: ms => m.preorder ++ preorderAll ms

end

/-- The nodes directly inside a node. -/
def children : Markup → List Markup
  | .text _ => []
  | .element _ _ children _ => children

theorem preorder_eq (m : Markup) : m.preorder = m :: preorderAll m.children := by
  cases m <;> rfl

end Markup

namespace Arena

/-- Whether a node of a table is a node of markup, with all that this contains. Names are in small
letters, attributes in the order of their names as they were written. -/
inductive Holds (a : Arena) : Nat → Markup → Prop
  | text {n : Nat} {content : String} {parent : Option Nat} :
    a.entries[n]? = some { kind := .text, name := "#text", text := content, parent } →
      Holds a n (.text content)
  | element {n : Nat} {name : String} {attributes : Dictionary String} {position : Option Position}
    {parent : Option Nat} {ids : List Nat} {children : List Markup} :
    a.entries[n]? = some { kind := .element, name := Ascii.lower name
                           attributes := attributes.entries.map loweredEntry, position, parent
                           children := ids } →
      List.Forall₂ (Holds a) ids children → Holds a n (.element name attributes children position)

variable {a : Arena} {d : Document} {p : Place} {n : Nat} {m : Markup} {forest : List Markup}

open Node (headOf number numberAll placesAll)

/-! ## Reading the markup off a table -/

theorem holds_numberAll {ms : List Markup} (hms : ∀ m ∈ ms, ∀ (start : Nat) (above : List Head),
      (∀ p ∈ (number start m).1.places above, p ∈ d.places) → a.Holds (number start m).1.id m)
    (start : Nat) (above : List Head)
    (hd : ∀ p ∈ placesAll above (numberAll start ms).1, p ∈ d.places) :
    List.Forall₂ a.Holds ((numberAll start ms).1.map Node.id) ms := by
  induction ms generalizing start with
  | nil => exact .nil
  | cons m ms ih =>
    rw [Node.numberAll_cons] at hd ⊢
    refine .cons (hms m List.mem_cons_self _ _ fun p hp => hd p (List.mem_append_left _ hp)) ?_
    exact ih (fun n hn => hms n (List.mem_cons_of_mem _ hn)) _ fun p hp =>
      hd p (List.mem_append_right _ hp)

namespace Tabulates

/-- The table of a document has each node of the markup under its number. -/
theorem holds_number (h : a.Tabulates d) (m : Markup) (start : Nat) (above : List Head)
    (hd : ∀ p ∈ (number start m).1.places above, p ∈ d.places) :
    a.Holds (number start m).1.id m := by
  induction m generalizing start above with
  | text content => exact .text (h.getElem? (hd ⟨.text start content, above⟩ List.mem_cons_self))
  | element name attributes children position ih =>
    have hself := hd ⟨(number start (.element name attributes children position)).1, above⟩
      List.mem_cons_self
    refine .element (h.getElem? hself) ?_
    refine holds_numberAll ih (start + 1) (headOf start name attributes position :: above) ?_
    exact fun p hp => hd p (List.mem_cons_of_mem _ hp)

/-- The nodes on the top level are those of the markup. -/
theorem holds_ofMarkup (h : a.Tabulates (.ofMarkup forest)) :
    List.Forall₂ a.Holds (a.children 0) forest := by
  have hroot := Document.root_mem_places (.ofMarkup forest)
  have hchildren : a.children 0 = (numberAll 1 forest).1.map Node.id := by
    rw [show (0 : Nat) = (Document.ofMarkup forest).root.node.id from rfl, h.children hroot,
      Place.children, List.map_map]
    rfl
  rw [hchildren]
  exact holds_numberAll (fun m _ => h.holds_number m) 1 [] fun p hp => List.mem_cons_of_mem _ hp

end Tabulates

/-! ## The order of the nodes -/

/-- What is in a node of the table is what is in the markup, one by one. -/
theorem Holds.children (h : a.Holds n m) : List.Forall₂ a.Holds (a.children n) m.children := by
  cases h with
  | text hentry =>
    rw [Arena.children, hentry]
    exact .nil
  | element hentry hchildren =>
    rw [Arena.children, hentry]
    exact hchildren

theorem holds_flatMap {ps : List Place} {ms : List Markup}
    (hms : ∀ m ∈ ms, ∀ p ∈ ps, a.Holds p.node.id m →
      List.Forall₂ a.Holds (p.withDescendants.map (·.node.id)) m.preorder)
    (h : List.Forall₂ a.Holds (ps.map (·.node.id)) ms) :
    List.Forall₂ a.Holds ((ps.flatMap Place.withDescendants).map (·.node.id))
      (Markup.preorderAll ms) := by
  induction ps generalizing ms with
  | nil =>
    cases h
    exact .nil
  | cons p ps ih =>
    obtain ⟨m, ms, hm, hrest, rfl⟩ := List.forall₂_cons_left_iff.mp h
    rw [List.flatMap_cons, List.map_append, Markup.preorderAll]
    refine List.rel_append (hms m List.mem_cons_self p List.mem_cons_self hm) (ih ?_ hrest)
    exact fun n hn q hq => hms n (List.mem_cons_of_mem _ hn) q (List.mem_cons_of_mem _ hq)

/-- Where a node is a node of markup, it has the nodes of the markup in it, in the same order. -/
theorem Tabulates.holds_withDescendants (h : a.Tabulates d) (hp : p ∈ d.places)
    (hm : a.Holds p.node.id m) :
    List.Forall₂ a.Holds (p.withDescendants.map (·.node.id)) m.preorder := by
  induction m generalizing p with
  | text content =>
    rw [p.withDescendants_eq, Markup.preorder_eq]
    exact .cons hm (holds_flatMap nofun (h.children hp ▸ hm.children))
  | element name attributes children position ih =>
    rw [p.withDescendants_eq, Markup.preorder_eq]
    refine .cons hm (holds_flatMap (fun c hc q hq => ?_) (h.children hp ▸ hm.children))
    exact ih c hc (Document.mem_places_of_mem_children hp hq)

namespace Tabulates

theorem lt_size_of_holds (h : a.Holds n m) : n < a.entries.size := by
  cases h with
  | text hentry | element hentry _ => exact (Array.getElem?_eq_some_iff.mp hentry).choose

/-- What is inside a node has the numbers that follow the one of the node. -/
theorem descendants_eq_range' (h : a.Tabulates d) (hn : n < a.entries.size) :
    a.descendants n = List.range' (n + 1) (a.descendants n).length := by
  obtain ⟨p, hp, rfl⟩ := h.exists_place hn
  rw [h.descendants hp, List.length_map]
  exact h.numbered.ids_inside hp

/-- What is visited from a node of the table is what is inside of it in the markup, in document
order. -/
theorem holds_descendants (h : a.Tabulates d) (hm : a.Holds n m) :
    List.Forall₂ a.Holds (a.descendants n) (Markup.preorderAll m.children) := by
  obtain ⟨p, hp, rfl⟩ := h.exists_place (lt_size_of_holds hm)
  have hall := h.holds_withDescendants hp hm
  rw [p.withDescendants_eq, Markup.preorder_eq, List.map_cons] at hall
  rw [h.descendants hp]
  exact (List.forall₂_cons.mp hall).2

/-- The visit takes as many numbers as there is markup inside. -/
theorem descendants_of_holds (h : a.Tabulates d) (hm : a.Holds n m) :
    a.descendants n = List.range' (n + 1) (Markup.preorderAll m.children).length := by
  have hids := h.descendants_eq_range' (lt_size_of_holds hm)
  rwa [(h.holds_descendants hm).length_eq] at hids

theorem holds_descendants_zero (h : a.Tabulates (.ofMarkup forest)) :
    List.Forall₂ a.Holds (a.descendants 0) (Markup.preorderAll forest) := by
  have hroot := Document.root_mem_places (.ofMarkup forest)
  rw [show (0 : Nat) = (Document.ofMarkup forest).root.node.id from rfl, h.descendants hroot]
  refine holds_flatMap (fun m _ p hp hm => ?_) (h.children hroot ▸ h.holds_ofMarkup)
  exact h.holds_withDescendants (Document.mem_places_of_mem_children hroot hp) hm

/-- From the document on all other nodes are visited, by increasing numbers. -/
theorem descendants_zero (h : a.Tabulates (.ofMarkup forest)) :
    a.descendants 0 = List.range' 1 (Markup.preorderAll forest).length := by
  have hids := h.descendants_eq_range' (h.id_lt (Document.root_mem_places _))
  rwa [show (Document.ofMarkup forest).root.node.id = 0 from rfl,
    h.holds_descendants_zero.length_eq] at hids

/-- A table has one node more than the markup, for the document. -/
theorem size_ofMarkup (h : a.Tabulates (.ofMarkup forest)) :
    a.entries.size = (Markup.preorderAll forest).length + 1 := by
  have hroot := Document.root_mem_places (.ofMarkup forest)
  rw [h.size, ← h.holds_descendants_zero.length_eq,
    show (0 : Nat) = (Document.ofMarkup forest).root.node.id from rfl, h.descendants hroot,
    List.length_map, Document.places, Place.withDescendants_eq, List.length_cons]

/-- All elements of a table are listed, and nothing else. -/
theorem mem_elements_iff (h : a.Tabulates (.ofMarkup forest)) :
    n ∈ a.elements ↔ a.isElement n = true := by
  rw [elements, List.mem_filter, h.descendants_zero, List.mem_range'_1]
  refine and_iff_right_of_imp fun helement => ?_
  have hroot : a.isElement 0 = false := h.isElement (Document.root_mem_places _)
  have hpos : n ≠ 0 := by
    rintro rfl
    rw [hroot] at helement
    cases helement
  have hn := lt_size_of_isElement helement
  rw [h.size_ofMarkup] at hn
  omega

/-! ## Attributes -/

/-- An element has the attributes that it has in the markup, whatever the case of their names. -/
theorem attribute?_iff {name wanted value : String} {attributes : Dictionary String}
    {children : List Markup} {position : Option Position}
    (h : a.Holds n (.element name attributes children position)) :
    a.attribute? n wanted = some value ↔ FirstNamed attributes.entries wanted value := by
  cases h with
  | element hentry _ =>
    let head : Head := ⟨n, name, attributes.entries.map loweredEntry, position⟩
    rw [attribute?, hentry]
    exact (head.attribute?_eq_some_iff).trans firstNamed_loweredEntry

/-! ## Parents -/

/-- A node but the first is linked from a single node, once, and has the link back. -/
theorem exists_parent (h : a.Tabulates d) (hpos : 0 < n) (hn : n < a.entries.size) :
    ∃ p, p < n ∧ a.parent? n = some p ∧ ∀ q, (a.children q).count n = if q = p then 1 else 0 := by
  obtain ⟨c, hc, rfl⟩ := h.exists_place hn
  rcases Document.eq_root_or_mem_children hc with rfl | ⟨p, hp, hchild⟩
  · exact absurd hpos (Nat.lt_irrefl 0)
  · refine ⟨p.node.id, h.numbered.lt_of_mem_children hp hchild, h.parent? hp hchild, fun q => ?_⟩
    split
    · rename_i heq
      rw [heq, h.children hp]
      refine List.count_eq_one_of_mem ?_ (List.mem_map_of_mem hchild)
      exact (h.numbered.pairwise_children hp).imp Nat.ne_of_lt
    · rename_i hne
      refine List.count_eq_zero_of_not_mem fun hmem => hne ?_
      -- another link to the node would give it another parent
      obtain ⟨r, hr, rfl⟩ := h.exists_place (lt_size_of_links hmem)
      obtain ⟨b, hb, hid⟩ := (h.links_iff hr).mp hmem
      obtain rfl := h.numbered.eq_of_id (Document.mem_places_of_mem_children hr hb) hc hid
      exact Option.some.inj ((h.parent? hr hb).symm.trans (h.parent? hp hchild))

/-- What is in a node is linked in document order. -/
theorem pairwise_children (h : a.Tabulates d) (n : Nat) : (a.children n).Pairwise (· < ·) := by
  rcases Nat.lt_or_ge n a.entries.size with hn | hn
  · obtain ⟨p, hp, rfl⟩ := h.exists_place hn
    rw [h.children hp]
    exact h.numbered.pairwise_children hp
  · rw [Arena.children, Array.getElem?_eq_none hn]
    exact .nil

end Tabulates

/-- What is to be found in a table that was filled with the nodes of markup. -/
structure Represents (a : Arena) (forest : List Markup) : Prop where
  size : a.entries.size = (Markup.preorderAll forest).length + 1
  root : a.entries[0]? =
    some { kind := .document, name := "#document", children := a.children 0 }
  /-- The markup can be read off from the top level on. -/
  tree : List.Forall₂ a.Holds (a.children 0) forest
  /-- The numbers are the positions in document order. -/
  preorder : List.Forall₂ a.Holds (List.range' 1 (Markup.preorderAll forest).length)
    (Markup.preorderAll forest)
  attributes : ∀ n name attributes children position,
    a.Holds n (.element name attributes children position) → ∀ wanted value,
      a.attribute? n wanted = some value ↔ FirstNamed attributes.entries wanted value
  parent : ∀ n, 0 < n → n < a.entries.size →
    ∃ p, p < n ∧ a.parent? n = some p ∧ ∀ q, (a.children q).count n = if q = p then 1 else 0
  children : ∀ n, (a.children n).Pairwise (· < ·)
  /-- What is inside a node are the nodes behind it, as many as the markup contains. -/
  descendants : ∀ n m, a.Holds n m →
    a.descendants n = List.range' (n + 1) (Markup.preorderAll m.children).length
  descendants_root : a.descendants 0 = List.range' 1 (Markup.preorderAll forest).length
  links : ∀ n x, n < a.entries.size → (x ∈ a.descendants n ↔ Relation.TransGen a.Links n x)
  elements : a.elements.Pairwise (· < ·) ∧ ∀ n, n ∈ a.elements ↔ a.isElement n = true
  /-- Around a node are the elements that it is inside of, the nearest first. -/
  ancestors : ∀ n, n < a.entries.size → (a.ancestors n).Pairwise (· > ·) ∧
    ∀ x, x ∈ a.ancestors n ↔ a.isElement x = true ∧ Relation.TransGen a.Links x n
  /-- No more steps than there are entries are needed to find all of this. -/
  steps : ∀ n fuel, n < a.entries.size → a.entries.size ≤ fuel →
    a.visit fuel (stacked (a.children n) []) = a.descendants n ∧ a.climb fuel n = a.ancestors n

/-- A table of the document of markup represents the markup. -/
theorem Tabulates.represents (h : a.Tabulates (.ofMarkup forest)) : a.Represents forest where
  size := h.size_ofMarkup
  root := by
    have hroot : a.entries[0]? = some (Document.ofMarkup forest).root.entry :=
      h.getElem? (Document.root_mem_places _)
    rw [Arena.children, hroot]
    rfl
  tree := h.holds_ofMarkup
  preorder := h.descendants_zero ▸ h.holds_descendants_zero
  attributes _ _ _ _ _ hm _ _ := attribute?_iff hm
  parent _ := h.exists_parent
  children := h.pairwise_children
  descendants _ _ := h.descendants_of_holds
  descendants_root := h.descendants_zero
  links _ _ := h.mem_descendants_iff
  elements := by
    refine ⟨?_, fun n => h.mem_elements_iff⟩
    rw [elements, h.descendants_zero]
    exact List.Pairwise.filter _ List.pairwise_lt_range'
  ancestors _ hn := ⟨h.pairwise_ancestors hn, fun _ => h.mem_ancestors_iff hn⟩
  steps n fuel hn hfuel := by
    obtain ⟨p, hp, rfl⟩ := h.exists_place hn
    rw [h.visit_children hp hfuel, h.climb_of_le hp hfuel, h.descendants hp, h.ancestors hp]
    exact ⟨rfl, rfl⟩

/-- There is a table of markup just if the markup has no more nodes than there are numbers besides
that of the document, and it represents the markup; and what it shows is what the tree of the document
shows, place by place. -/
theorem ofMarkup_represents (forest : List Markup) :
    ((∃ a, ofMarkup forest = .ok a) ↔ (Markup.preorderAll forest).length ≤ maxId) ∧
    ∀ a, ofMarkup forest = .ok a → a.Represents forest ∧
      a.entries.toList = (Document.ofMarkup forest).places.map Place.entry ∧
      ∀ p ∈ (Document.ofMarkup forest).places,
        a.children p.node.id = p.children.map (·.node.id) ∧
        p.node.id :: a.descendants p.node.id = p.withDescendants.map (·.node.id) ∧
        a.ancestors p.node.id = p.above.map Head.id := by
  have hlength : (Document.ofMarkup forest).places.length =
      (Markup.preorderAll forest).length + 1 := by
    -- a table of all places would have as many entries
    have h : Tabulates ⟨((Document.ofMarkup forest).places.map Place.entry).toArray⟩
        (.ofMarkup forest) := ⟨Document.numbered_ofMarkup forest, List.toList_toArray⟩
    exact h.size.symm.trans h.size_ofMarkup
  refine ⟨?_, fun a ha => ?_⟩
  · rw [ofMarkup_eq_ok_iff, hlength]
    exact Nat.succ_le_succ_iff
  · have h : a.Tabulates (.ofMarkup forest) :=
      ⟨Document.numbered_ofMarkup forest, entries_of_ofMarkup ha⟩
    refine ⟨h.represents, h.entries, fun p hp => ⟨h.children hp, ?_, h.ancestors hp⟩⟩
    rw [h.descendants hp, p.withDescendants_eq, List.map_cons]

/-- A list with a text in its first item. -/
theorem ofMarkup_represents_items :
    let item (ms : List Markup) : Markup := .element "LI" .empty ms none
    let list : Markup := .element "ul" (.ofList [("Class", "a"), ("CLASS", "b")])
      [item [.text "first"], item []] none
    ∃ a, ofMarkup [list] = .ok a ∧ a.Represents [list] ∧ a.descendants 0 = [1, 2, 3, 4] ∧
      a.descendants 2 = [3] ∧ a.attribute? 1 "class" = some "b" := by
  intro item list
  obtain ⟨a, ha⟩ := (ofMarkup_represents [list]).1.mpr (by decide)
  obtain ⟨h, -⟩ := (ofMarkup_represents [list]).2 a ha
  have hpreorder : List.Forall₂ a.Holds [1, 2, 3, 4]
      [list, item [.text "first"], .text "first", item []] := h.preorder
  obtain ⟨hlist, hrest⟩ := List.forall₂_cons.mp hpreorder
  obtain ⟨hitem, -⟩ := List.forall₂_cons.mp hrest
  have hlower : Ascii.lower "CLASS" = Ascii.lower "class" := by decide
  refine ⟨a, ha, h, h.descendants_root, h.descendants 2 _ hitem, ?_⟩
  exact (h.attributes 1 _ _ _ _ hlist _ _).mpr
    ⟨[], "CLASS", [("Class", "a")], by decide, hlower, List.forall_mem_nil _⟩

end Arena

end ContentGrammar
