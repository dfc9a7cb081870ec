import Mathlib
import ContentGrammar.Proofs.Exclusion.Breaches
import ContentGrammar.Proofs.Model.Slots
import ContentGrammar.Proofs.Pattern.Matching
import ContentGrammar.Proofs.Validation.Blanks

/-!
# What the slots of a model take

`s.Reads m above` reads the model `m` with the elements `above` around it: where it is transparent,
the model of the nearest element around is read in its place. So each match that is reported for the
children of an element is a reading with a slot for each child, and in a spec that is loaded a model
from written contents takes elements only in its tag slots (`slots_take`). In its text slots it takes
texts, but also elements that are called `#text`, since a token is accepted by its name alone
(`not_slots_take_kinds`).
-/

namespace ContentGrammar

open Pattern (Derivation)

namespace Spec

/-- How a model takes a row of tokens with `above` around it. -/
def Reads (s : Spec) (m : Model) : List Head → Taking
  | [] => Reading (fun _ _ _ _ _ => False) m
  | e :: around => Reading (s.Reads (s.modelOf e around) around) m

variable {s : Spec} {m : Model} {above : List Head} {p : Pattern} {i : Nat} {ts : List Token}
  {ss : List Span} {slots : List Slot}

theorem Reads.derivation (h : s.Reads m above p i ts ss slots) : Derivation p i ts ss := by
  induction above generalizing m p i ts ss slots with
  | nil => exact Reading.derivation (fun _ _ _ _ _ h => h.elim) h
  | cons e around ih => exact Reading.derivation (fun _ _ _ _ _ h => ih h) h

/-- Each derivation of the pattern of a model is a way to read the model. -/
theorem exists_reads (hp : s.patternOf m above = .ok p) (hd : Derivation p i ts ss) :
    ∃ slots, s.Reads m above p i ts ss slots := by
  have alone : ∀ {outer m p} {i : Nat} {ts : List Token} {ss : List Span},
      m.compile s.categories none = .ok p → Derivation p i ts ss →
        ∃ slots, Reading outer m p i ts ss slots := by
    intro outer m p i ts ss hp hd
    obtain ⟨⟨q, after⟩, hq, hp⟩ := ok_of_bind hp
    obtain rfl := Except.ok.inj hp
    exact hasReadings_compileFrom (fun q hq => by cases hq) hq i ts ss hd
  induction above generalizing m p i ts ss with
  | nil => exact alone hp hd
  | cons e around ih =>
    cases hm : m.inherits with
    | false =>
      rw [patternOf_of_not_inherits hm] at hp
      exact alone hp hd
    | true =>
      rw [patternOf, hm, if_pos rfl] at hp
      cases hq : s.patternOf (s.modelOf e around) around with
      | error err => rw [hq] at hp; cases hp
      | ok q =>
        rw [hq] at hp
        obtain ⟨⟨q', after⟩, hq', hp⟩ := ok_of_bind hp
        obtain rfl := Except.ok.inj hp
        refine hasReadings_compileFrom (fun r hr i ts ss hd => ?_) hq' i ts ss hd
        obtain rfl := Option.some.inj hr
        exact ih hq hd

/-- A spec that is loaded has no model with a tag that has the name of text. -/
theorem namesNoText_modelOf {w : WrittenSpec} (hw : w.spec = .ok s) (e : Head)
    (around : List Head) : (s.modelOf e around).NamesNoText := by
  rcases s.modelOf_cases e around with ⟨name, t, ht, hm⟩ | heq
  · obtain ⟨c, hc⟩ := exists_contents hw ht hm
    exact Contents.namesNoText hc
  · rw [heq]
    intro name hs
    cases List.mem_singleton.mp hs

theorem Reads.takes (hs : ∀ e around, (s.modelOf e around).NamesNoText) (hm : m.NamesNoText)
    (h : s.Reads m above p i ts ss slots) : List.Forall₂ Slot.Takes slots ts := by
  induction above generalizing m p i ts ss slots with
  | nil => exact Reading.takes (fun _ _ _ _ _ h => h.elim) hm h
  | cons e around ih => exact Reading.takes (fun _ _ _ _ _ h => ih (hs e around) h) hm h

end Spec

/-- Lists that are related to the same list, item by item, are related to each other. -/
theorem forall₂_of_common {α β γ : Type} {R : α → β → Prop} {S : γ → β → Prop} {T : α → γ → Prop}
    (h : ∀ a b c, R a b → S c b → T a c) {as : List α} {bs : List β} {cs : List γ}
    (has : List.Forall₂ R as bs) (hcs : List.Forall₂ S cs bs) : List.Forall₂ T as cs := by
  induction has generalizing cs with
  | nil =>
    cases hcs
    exact .nil
  | cons hab _ ih =>
    cases hcs with
    | cons hcb hrest => exact .cons (h _ _ _ hab hcb) (ih hrest)

/-- A child as a slot can have it: an element in a tag slot, and in a text slot a text or an element
of the name of text. -/
structure Slot.Fits (slot : Slot) (child : Place) : Prop where
  element : slot.IsTag → child.node.isElement = true
  text : slot.IsText → child.IsText ∨ child.node.isElement = true ∧ child.node.name = textName

theorem Slot.Takes.fits {slot : Slot} {child : Place} {t : Token} (h : slot.Takes t)
    (hchild : child.node.token? = some t) : slot.Fits child := by
  obtain ⟨node, above⟩ := child
  cases node with
  | document children => cases hchild
  | text id content =>
    refine ⟨fun htag => ?_, fun _ => .inl ⟨id, content, rfl⟩⟩
    obtain ⟨name, rfl⟩ := h.element htag
    rw [Node.token?] at hchild
    split at hchild <;> cases hchild
  | element head children =>
    obtain rfl := Option.some.inj hchild
    exact ⟨fun _ => rfl, fun htext => .inr ⟨rfl, h.named htext⟩⟩

variable {w : WrittenSpec} {s : Spec} {c : Contents} {m : Model} {place : Place} {p : Pattern}
  {ss : List Span}

/-- In a spec that is loaded, with a model from written contents: the derivations of the pattern of the
model are those that can be read, so the match that is reported for the children of an element is one
of them. However it is read, each child has a slot of its own; a child in a tag slot is an element, and
one in a text slot is a text, unless it is an element that is called `#text`. -/
theorem slots_take (hw : w.spec = .ok s) (hc : c.model = .ok m)
    (hp : s.patternOf m place.above = .ok p) (hrun : p.run? (tokensOf place.content) = some ss) :
    (∀ i ts rs, Derivation p i ts rs ↔ ∃ slots, s.Reads m place.above p i ts rs slots) ∧
    (∃ slots, s.Reads m place.above p 0 (tokensOf place.content) ss slots) ∧
    ∀ slots, s.Reads m place.above p 0 (tokensOf place.content) ss slots →
      List.Forall₂ Slot.Fits slots place.content := by
  refine ⟨fun i ts rs => ⟨Spec.exists_reads hp, fun ⟨slots, h⟩ => h.derivation⟩,
    Spec.exists_reads hp (Pattern.derivation_of_run? hrun), fun slots h => ?_⟩
  have htakes := h.takes (Spec.namesNoText_modelOf hw) (Contents.namesNoText hc)
  have htokens : List.Forall₂ (fun child t => child.node.token? = some t) place.content
      (tokensOf place.content) := forall₂_tokensOf fun q hq => (List.mem_filter.mp hq).2
  have fits : ∀ (slot : Slot) t (child : Place), slot.Takes t → child.node.token? = some t →
      slot.Fits child := fun _ _ _ ht hchild => ht.fits hchild
  exact forall₂_of_common fits htakes htokens

/-- The children of a `p`: a text and then an element. -/
theorem slots_take_mixed :
    let c : Contents := .items [.repeatNames .zeroOrMore (.many ["#text", "B"]) none none]
    let place : Place := ⟨.element ⟨1, "p", [], none⟩
      [.text 2 "x", .element ⟨3, "b", [], none⟩ []], []⟩
    ∃ s m p, WrittenSpec.spec ⟨.empty, []⟩ = .ok s ∧ c.model = .ok m ∧
      s.patternOf m place.above = .ok p ∧ p.run? (tokensOf place.content) = some [] ∧
      (∃ slots, s.Reads m place.above p 0 (tokensOf place.content) [] slots) ∧
      ∀ slots, s.Reads m place.above p 0 (tokensOf place.content) [] slots →
        List.Forall₂ Slot.Fits slots place.content := by
  intro c place
  have hw : WrittenSpec.spec ⟨.empty, []⟩ = .ok ⟨.ofList [], .ofList []⟩ := by cbv
  have htext : Model.ofName "#text" = .text := by cbv
  have htag : Model.ofName "B" = .tag "b" := by
    have htrimmed : trimmed "B" = "B" := by cbv
    rw [Model.ofName_of_isTagName (by rw [htrimmed]; decide), htrimmed]
    cbv
  have hc : c.model = .ok (.repeated (.choice [.text, .tag "b"]) 0 none) := by
    show Except.ok (Model.repeated (.choice [.ofName "#text", .ofName "B"]) 0 none) = _
    rw [htext, htag]
  have hp : Model.compile (.ofList []) none (.repeated (.choice [.text, .tag "b"]) 0 none) =
      .ok (.repeated (.choice [.token (.oneOf (.singleton "#text")),
        .token (.oneOf (.singleton "b"))]) 0 none) := by
    cbv
  have htokens : tokensOf place.content = [.text, .element "b"] := by
    cbv
  have hrun : Pattern.run? (.repeated (.choice [.token (.oneOf (.singleton "#text")),
      .token (.oneOf (.singleton "b"))]) 0 none) [.text, .element "b"] = some [] := by
    cbv
  rw [← htokens] at hrun
  exact ⟨_, _, _, hw, hc, hp, hrun, (@slots_take _ _ c _ place _ _ hw hc hp hrun).2⟩

/-- Not every child in a text slot is a text: an element that is called `#text` is taken for one. -/
theorem not_slots_take_kinds :
    ¬ ∀ (w : WrittenSpec) (s : Spec), w.spec = .ok s → ∀ (c : Contents) (m : Model),
      c.model = .ok m → ∀ forest, ∀ place ∈ (Document.ofMarkup forest).elements, ∀ p,
      s.patternOf m place.above = .ok p → ∀ ss, p.run? (tokensOf place.content) = some ss →
      ∀ slots, s.Reads m place.above p 0 (tokensOf place.content) ss slots →
        List.Forall₂ (fun slot child => (slot.IsTag → child.node.isElement = true) ∧
          (slot.IsText → child.IsText)) slots place.content := by
  intro hall
  have hw : WrittenSpec.spec ⟨.empty, []⟩ = .ok ⟨.ofList [], .ofList []⟩ := by cbv
  have hc : Contents.model (.items [.require (.one "#text") none none none]) = .ok .text := by cbv
  let child : Node := .element ⟨2, "#text", [], none⟩ []
  let place : Place := ⟨.element ⟨1, "p", [], none⟩ [child], []⟩
  have helements : (Document.ofMarkup
      [.element "p" .empty [.element "#text" .empty [] none] none]).elements =
        [place, ⟨child, [⟨1, "p", [], none⟩]⟩] := by
    cbv
  have hplace := helements ▸ List.mem_cons_self
  have hrun : Pattern.run? (.token (.oneOf (.singleton textName))) [.element "#text"] = some [] := by
    cbv
  have h := hall _ _ hw _ _ hc _ place hplace _ rfl _ hrun [.text] (.text rfl)
  cases h with
  | cons hfits _ =>
    obtain ⟨_, _, heq⟩ := hfits.2 trivial
    cases heq

end ContentGrammar
