import ContentGrammar.Proofs.Document.Renumbering

/-!
# Documents that are alike

Two nodes are alike if they have the same names, texts and positions, elements give the same answer
to every question for an attribute, and their contents are alike one by one once the texts that
are no content are left out (`Node.Like`). The numbers of one come from those of the other by a
renaming. Then the elements in them are alike in document order (`Node.Like.elements`), and so are
the tokens of their contents (`tokensOf_like`). A node with other numbers is alike (`Node.like_renumber`).
-/

namespace ContentGrammar

/-- Whether two heads cannot be told apart by their names and by what they answer to questions for
attributes. -/
structure Head.Resembles (h h' : Head) : Prop where
  name : h.name = h'.name
  attribute? : ∀ name, h.attribute? name = h'.attribute? name

/-- Each element of one list resembles the element at the same place of the other. -/
abbrev Resembling : List Head → List Head → Prop := List.Forall₂ Head.Resembles

/-- Heads with the same name and attributes resemble each other. -/
theorem Head.resembles_of_face {h h' : Head} (hface : h.face = h'.face) : h.Resembles h' where
  name := congrArg Prod.fst hface
  attribute? name := by
    rw [Head.attribute?, Head.attribute?, show h.attributes = h'.attributes from
      congrArg Prod.snd hface]

theorem SameFaces.resembling {above above' : List Head} (h : SameFaces above above') :
    Resembling above above' :=
  h.imp fun _ _ => Head.resembles_of_face

namespace Node

mutual

/-- `n.Like f m`: the node `m` is alike to `n`, with the numbers in it renamed by `f`. -/
inductive Like (f : Nat → Nat) : Node → Node → Prop
  | document {ns ms} : AllLike f ns ms → Like f (.document ns) (.document ms)
  | text (id content) : Like f (.text id content) (.text (f id) content)
  | element {h h' ns ms} : h.Resembles h' → h'.id = f h.id → h'.position = h.position →
      AllLike f ns ms → Like f (.element h ns) (.element h' ms)

/-- The nodes of two lists are alike one by one, some texts that are no content apart. -/
inductive AllLike (f : Nat → Nat) : List Node → List Node → Prop
  | nil : AllLike f [] []
  | cons {n m ns ms} : Like f n m → AllLike f ns ms → AllLike f (n :: ns) (m :: ms)
  | left {id content ns ms} : (text id content).isContent = false → AllLike f ns ms →
      AllLike f (.text id content :: ns) ms
  | right {id content ns ms} : (text id content).isContent = false → AllLike f ns ms →
      AllLike f ns (.text id content :: ms)

end

variable {f : Nat → Nat} {n m : Node} {ns ms : List Node} {above above' : List Head}

theorem Like.resembles (h : n.Like f m) : n.head.Resembles m.head := by
  cases h with
  | document hs => exact Head.resembles_of_face rfl
  | text id content => exact Head.resembles_of_face rfl
  | element hhead hid hposition hs => exact hhead

theorem Like.position (h : n.Like f m) : m.head.position = n.head.position := by
  cases h with
  | document hs => rfl
  | text id content => rfl
  | element hhead hid hposition hs => exact hposition

theorem Like.isElement (h : n.Like f m) : n.isElement = m.isElement := by
  cases h <;> rfl

/-- Nodes that are alike are matched as the same token. -/
theorem Like.token? (h : n.Like f m) : n.token? = m.token? := by
  cases h with
  | document hs => rfl
  | text id content => rfl
  | element hhead hid hposition hs => rw [Node.token?, Node.token?, hhead.name]

theorem Like.isContent (h : n.Like f m) : n.isContent = m.isContent := by
  rw [Node.isContent, Node.isContent, h.token?]

/-- The number of a document is never renamed, but those of elements and of texts are. -/
theorem Like.id (h : n.Like f m) (hn : n.isContent = true) : m.id = f n.id := by
  cases h with
  | document hs => cases hn
  | text id content => rfl
  | element hhead hid hposition hs => exact hid

/-- What is in nodes that are alike is alike one by one. -/
theorem Like.children (h : n.Like f m) : AllLike f n.children m.children := by
  cases h with
  | document hs => exact hs
  | text id content => exact .nil
  | element hhead hid hposition hs => exact hs

theorem AllLike.content : {ns ms : List Node} → AllLike f ns ms →
    List.Forall₂ (Like f) (ns.filter Node.isContent) (ms.filter Node.isContent)
  | _, _, .nil => .nil
  | n :: ns, m :: ms, .cons h hs => by
    by_cases hn : n.isContent = true
    · rw [List.filter_cons_of_pos hn, List.filter_cons_of_pos (h.isContent ▸ hn)]
      exact .cons h hs.content
    · rw [List.filter_cons_of_neg hn, List.filter_cons_of_neg (h.isContent ▸ hn)]
      exact hs.content
  | _, _, .left hblank hs => by
    rw [List.filter_cons_of_neg (by simp [hblank])]
    exact hs.content
  | _, _, .right hblank hs => by
    rw [List.filter_cons_of_neg (by simp [hblank])]
    exact hs.content

/-- A node with other numbers is alike. -/
theorem like_renumber (f : Nat → Nat) (n : Node) : n.Like f (n.renumber f) := by
  have hall : ∀ {ns : List Node}, (∀ n ∈ ns, n.Like f (n.renumber f)) →
      AllLike f ns (renumberAll f ns) := by
    intro ns hns
    induction ns with
    | nil => exact .nil
    | cons n ns ih =>
      exact .cons (hns n List.mem_cons_self) (ih fun m hm => hns m (List.mem_cons_of_mem _ hm))
  induction n with
  | document ns ih => exact .document (hall ih)
  | text id content => exact .text id content
  | element head ns ih => exact .element (Head.resembles_of_face rfl) rfl rfl (hall ih)

end Node

/-! ## Places -/

namespace Place

/-- `p.Like f q`: the node of `q` is alike to that of `p`, with the numbers in it renamed by `f`, and
the elements around one resemble those around the other. -/
structure Like (f : Nat → Nat) (p q : Place) : Prop where
  node : p.node.Like f q.node
  above : Resembling p.above q.above

variable {f : Nat → Nat} {p q : Place}

theorem Like.name (h : p.Like f q) : p.node.name = q.node.name := h.node.resembles.name

/-- A place with other numbers is alike. -/
theorem Renumbered.like (h : p.Renumbered f q) : p.Like f q :=
  ⟨h.node ▸ p.node.like_renumber f, h.above.resembling⟩

theorem Like.aboveChildren (h : p.Like f q) : Resembling p.aboveChildren q.aboveChildren := by
  obtain ⟨hnode, habove⟩ := h
  obtain ⟨n, above⟩ := p
  obtain ⟨m, above'⟩ := q
  cases hnode with
  | document hs => exact habove
  | text id content => exact habove
  | element hhead hid hposition hs => exact .cons hhead habove

/-- The contents of places that are alike are alike one by one. -/
theorem Like.content (h : p.Like f q) : List.Forall₂ (Like f) p.content q.content := by
  have hcontent : ∀ p : Place,
      p.content = (p.node.children.filter Node.isContent).map fun n => ⟨n, p.aboveChildren⟩ := by
    intro p
    rw [Place.content, Place.children, List.filter_map]
    rfl
  rw [hcontent, hcontent, List.forall₂_map_left_iff, List.forall₂_map_right_iff]
  exact h.node.children.content.imp fun n m hnm => ⟨hnm, h.aboveChildren⟩

end Place

/-- Places that are alike are matched as the same tokens. -/
theorem tokensOf_like {f : Nat → Nat} {ps qs : List Place}
    (h : List.Forall₂ (Place.Like f) ps qs) : tokensOf ps = tokensOf qs := by
  induction h with
  | nil => rfl
  | cons hpq _ ih =>
    rw [tokensOf, tokensOf, List.filterMap_cons, List.filterMap_cons, hpq.node.token?]
    rw [tokensOf, tokensOf] at ih
    rw [ih]

namespace Node

variable {f : Nat → Nat}

mutual

/-- The elements in nodes that are alike are alike, in document order. -/
theorem Like.elements : {n m : Node} → {above above' : List Head} → n.Like f m →
    Resembling above above' →
    List.Forall₂ (Place.Like f) ((n.places above).filter (·.node.isElement))
      ((m.places above').filter (·.node.isElement))
  | _, _, _, _, .document hs, habove => hs.elements habove
  | _, _, _, _, .text _ _, _ => .nil
  | _, _, _, _, .element hhead hid hposition hs, habove =>
    .cons ⟨.element hhead hid hposition hs, habove⟩ (hs.elements (.cons hhead habove))

theorem AllLike.elements : {ns ms : List Node} → {above above' : List Head} → AllLike f ns ms →
    Resembling above above' →
    List.Forall₂ (Place.Like f) ((placesAll above ns).filter (·.node.isElement))
      ((placesAll above' ms).filter (·.node.isElement))
  | _, _, _, _, .nil, _ => .nil
  | _, _, _, _, .cons h hs, habove => by
    rw [placesAll, placesAll, List.filter_append, List.filter_append]
    exact List.rel_append (h.elements habove) (hs.elements habove)
  | _, _, _, _, .left _ hs, habove => hs.elements habove
  | _, _, _, _, .right _ hs, habove => hs.elements habove

end

end Node

end ContentGrammar
