import ContentGrammar.Proofs.Document.Likeness
import ContentGrammar.Proofs.Text.Ascii
import ContentGrammar.Proofs.Text.Dictionary

/-!
# The letter case of names in documents

Names of elements and attributes are stored in small letters, so documents which differ in the case of
letters there are the same except for the order of attributes, which is that of the names as they are
written (`SameButCase.sorted`). Where no two attributes of an element have the same name but for case,
the order does not show, and the documents are alike, with the same numbers (`SameButCase.like`).
-/

namespace ContentGrammar

/-- `SameButCase ms ms'`: changing the case of letters in the names of elements and attributes leads
from the nodes `ms` to the nodes `ms'`. -/
inductive SameButCase : List Markup → List Markup → Prop
  | nil : SameButCase [] []
  | text {content ms ms'} : SameButCase ms ms' →
      SameButCase (.text content :: ms) (.text content :: ms')
  | element {name name' attributes attributes' children children' position ms ms'} :
      Ascii.same name name' = true →
      (attributes.entries.map loweredEntry).Perm (attributes'.entries.map loweredEntry) →
      SameButCase children children' → SameButCase ms ms' →
      SameButCase (.element name attributes children position :: ms)
        (.element name' attributes' children' position :: ms')

/-- Whether no two attributes of a node have the same name. -/
def Head.Distinct (h : Head) : Prop := (h.attributes.map (·.1)).Nodup

namespace Node

mutual

/-- A node with all attributes in the order of their names as they are stored. -/
def sorted : Node → Node
  | .document ns => .document (sortedAll ns)
  | .text id content => .text id content
  | .element head ns =>
    .element { head with attributes := (Dictionary.ofList head.attributes).entries } (sortedAll ns)

/-- Nodes with all attributes in the order of their names. -/
def sortedAll : List Node → List Node
  | [] => []
  | n :: ns => n.sorted :: sortedAll ns

end

end Node

/-! ## Attributes in another order -/

/-- What is the only one of its kind in a list is found whatever the order. -/
theorem find?_perm {α : Type} {as bs : List α} (h : as.Perm bs) {p : α → Bool}
    (hunique : ∀ a ∈ as, ∀ b ∈ as, p a = true → p b = true → a = b) : as.find? p = bs.find? p := by
  cases hb : bs.find? p with
  | none =>
    rw [List.find?_eq_none] at hb ⊢
    exact fun a ha => hb a (h.mem_iff.mp ha)
  | some b =>
    have hpb := List.find?_some hb
    have hmem := h.mem_iff.mpr (List.mem_of_find?_eq_some hb)
    cases ha : as.find? p with
    | none => exact absurd hpb (List.find?_eq_none.mp ha b hmem)
    | some a =>
      rw [hunique a (List.mem_of_find?_eq_some ha) b hmem (List.find?_some ha) hpb]

/-- Attributes with different names in small letters are found whatever their order. -/
theorem attribute?_perm {h h' : Head}
    (hperm : h.attributes.Perm h'.attributes) (hlower : ∀ a ∈ h.attributes, Ascii.lower a.1 = a.1)
    (hdistinct : h.Distinct) (name : String) : h.attribute? name = h'.attribute? name := by
  rw [Head.attribute?, Head.attribute?, find?_perm hperm]
  intro a ha b hb hpa hpb
  have hname : a.1 = b.1 := by
    rw [← hlower a ha, ← hlower b hb, Ascii.same_iff.mp hpa, Ascii.same_iff.mp hpb]
  exact List.inj_on_of_nodup_map hdistinct ha hb hname

/-! ## Documents -/

namespace SameButCase

open Node (headOf numberAll placesAll AllLike sortedAll)

variable {ms ms' : List Markup}

/-- Documents that are the same but for the case of letters in names are numbered alike. -/
theorem next (h : SameButCase ms ms') (start : Nat) : (numberAll start ms').2 = (numberAll start ms).2 := by
  induction h generalizing start with
  | nil => rfl
  | text _ ih => exact ih (start + 1)
  | element _ _ _ _ ihchildren ih =>
    show (numberAll (numberAll (start + 1) _).2 _).2 = (numberAll (numberAll (start + 1) _).2 _).2
    rw [ihchildren, ih]

theorem resembles {name name' : String} {attributes attributes' : Dictionary String} {start : Nat}
    {position : Option Position} (hname : Ascii.same name name' = true)
    (hattributes :
      (attributes.entries.map loweredEntry).Perm (attributes'.entries.map loweredEntry))
    (hdistinct : (headOf start name attributes position).Distinct) :
    (headOf start name attributes position).Resembles (headOf start name' attributes' position) where
  name := Ascii.same_iff.mp hname
  attribute? :=
    attribute?_perm hattributes (fun _ => Ascii.lower_of_mem_loweredEntry) hdistinct

/-- Documents that are the same but for the case of letters in names are alike, with the same numbers. -/
theorem like (h : SameButCase ms ms') (start : Nat) (above : List Head)
    (hdistinct : ∀ p ∈ placesAll above (numberAll start ms).1, p.node.head.Distinct) :
    AllLike id (numberAll start ms).1 (numberAll start ms').1 := by
  induction h generalizing start above with
  | nil => exact .nil
  | @text content _ _ _ ih =>
    refine .cons (.text start content) (ih (start + 1) above fun p hp => ?_)
    exact hdistinct p (List.mem_cons_of_mem _ hp)
  | @element name _ attributes _ _ _ position _ _ hname hattributes hchildren _ ihchildren ih =>
    have hhead := resembles hname hattributes (hdistinct ⟨.element _ _, above⟩ List.mem_cons_self)
    rw [Node.numberAll_element, Node.numberAll_element, hchildren.next]
    dsimp only
    have hinside := ihchildren (start + 1) (headOf start name attributes position :: above)
      fun p hp => hdistinct p (List.mem_append_left _ (List.mem_cons_of_mem _ hp))
    have hbehind := ih _ above fun p hp => hdistinct p (List.mem_append_right _ hp)
    exact .cons (.element hhead rfl rfl hinside) hbehind

/-- The order of attributes apart, documents that are the same but for the case of letters in names
are the same. -/
theorem sorted (h : SameButCase ms ms') (start : Nat) (above : List Head)
    (hdistinct : ∀ p ∈ placesAll above (numberAll start ms).1, p.node.head.Distinct) :
    sortedAll (numberAll start ms').1 = sortedAll (numberAll start ms).1 := by
  induction h generalizing start above with
  | nil => rfl
  | @text content _ _ _ ih =>
    refine congrArg (Node.text start content :: ·) (ih (start + 1) above fun p hp => ?_)
    exact hdistinct p (List.mem_cons_of_mem _ hp)
  | @element name _ attributes _ _ _ position _ _ hname hattributes hchildren _ ihchildren ih =>
    have hhead := hdistinct ⟨.element _ _, above⟩ List.mem_cons_self
    -- with distinct names the order in which attributes are written does not matter
    have hsorted := Dictionary.ofList_perm hattributes hhead
    have hinside := ihchildren (start + 1) (headOf start name attributes position :: above)
      fun p hp => hdistinct p (List.mem_append_left _ (List.mem_cons_of_mem _ hp))
    have hbehind := ih _ above fun p hp => hdistinct p (List.mem_append_right _ hp)
    rw [Node.numberAll_element, Node.numberAll_element, hchildren.next]
    dsimp only
    rw [sortedAll, sortedAll, Node.sorted, Node.sorted, hinside, hbehind]
    congr 2
    rw [Node.headOf, Node.headOf, Ascii.same_iff.mp hname]
    exact congrArg (fun d : Dictionary String => Head.mk start _ d.entries _) hsorted.symm

end SameButCase

end ContentGrammar
