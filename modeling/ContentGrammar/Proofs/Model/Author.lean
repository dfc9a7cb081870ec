import Mathlib.Data.List.Forall2
import ContentGrammar.Model.Author
import ContentGrammar.Proofs.Model.Fault

/-!
# The models that authors write

Contents that are read without an error give a model that is sound at every depth (`Contents.sound`):
each choice offers something, the bounds of each repetition are in order, and each exclusion has a
target. What follows from it for loading is that there is no choice between nothing
(`Contents.noChoice`).
-/

namespace ContentGrammar

open Model (Site sitesAll mem_sitesAll)

/-- Induction over an item, with the claim for all items of a list at once. -/
@[induction_eliminator]
theorem Item.induct {motive : Item → Prop}
    (require : ∀ what min max ignore, motive (.require what min max ignore))
    (optional : ∀ what ignore, motive (.optional what ignore))
    (repeatNames : ∀ quantity what max ignore, motive (.repeatNames quantity what max ignore))
    (repeatItems : ∀ quantity what max ignore, (∀ i ∈ what, motive i) →
      motive (.repeatItems quantity what max ignore))
    (choice : ∀ alternatives, (∀ is ∈ alternatives, ∀ i ∈ is, motive i) →
      motive (.choice alternatives)) (i : Item) : motive i := by
  cases i with
  | require what min max ignore => exact require what min max ignore
  | optional what ignore => exact optional what ignore
  | repeatNames quantity what max ignore => exact repeatNames quantity what max ignore
  | repeatItems quantity what max ignore =>
    exact repeatItems quantity what max ignore fun j _hj =>
      induct require optional repeatNames repeatItems choice j
  | choice alternatives =>
    exact choice alternatives fun _is _his j _hj =>
      induct require optional repeatNames repeatItems choice j
termination_by sizeOf i
decreasing_by
  · have := List.sizeOf_lt_of_mem _hj
    simp only [Item.repeatItems.sizeOf_spec]
    omega
  · have := List.sizeOf_lt_of_mem _his
    have := List.sizeOf_lt_of_mem _hj
    simp only [Item.choice.sizeOf_spec]
    omega

/-! ## What is read without an error -/

/-- A choice between the models of names is written with their names in a list. -/
theorem Names.ok_of_model {names : Names} {m : Model} (h : names.model = .ok m) :
    (∃ raw, names.toList = [raw] ∧ m = .ofName raw) ∨
      names.toList ≠ [] ∧ m = .choice (names.toList.map .ofName) := by
  unfold model at h
  split at h
  · cases h
  case h_2 raw heq => exact .inl ⟨raw, heq, (Except.ok.inj h).symm⟩
  case h_3 hne _ => exact .inr ⟨hne, (Except.ok.inj h).symm⟩

/-- A repetition that is accepted has its bounds in order. -/
theorem Model.ok_of_repetition {m n : Model} {least : Nat} {most : Option Nat}
    (h : m.repetition least most = .ok n) :
    n = .repeated m least most ∧ ∀ k, most = some k → least ≤ k := by
  unfold repetition at h
  split at h
  · split at h
    · cases h
    case isFalse hle =>
      refine ⟨(Except.ok.inj h).symm, fun k hk => ?_⟩
      obtain rfl := Option.some.inj hk
      exact Nat.not_lt.mp hle
  · exact ⟨(Except.ok.inj h).symm, nofun⟩

/-- An exclusion that is accepted has a target. -/
theorem Model.ok_of_ignoring {m n : Model} {ignore : Option Names} (h : m.ignoring ignore = .ok n) :
    n = m ∨ ∃ targets, targets ≠ [] ∧ n = .excluding m targets := by
  cases ignore with
  | none => exact .inl (Except.ok.inj h).symm
  | some names =>
    obtain ⟨targets, -, h⟩ := ok_of_bind h
    unfold exclusion at h
    split at h
    · cases h
    case isFalse hne =>
      exact .inr ⟨targets, fun hnil => hne (List.isEmpty_iff.mpr hnil), (Except.ok.inj h).symm⟩

theorem exists_of_mem_forall₂ {α β : Type} {R : α → β → Prop} {as : List α} {bs : List β}
    (h : List.Forall₂ R as bs) {b : β} (hb : b ∈ bs) : ∃ a ∈ as, R a b := by
  induction h with
  | nil => cases hb
  | cons hab _ ih =>
    rcases List.mem_cons.mp hb with rfl | hb
    · exact ⟨_, List.mem_cons_self, hab⟩
    · obtain ⟨a, ha, hr⟩ := ih hb
      exact ⟨a, List.mem_cons_of_mem _ ha, hr⟩

theorem exists_mem_of_forall₂ {α β : Type} {R : α → β → Prop} {as : List α} {bs : List β}
    (h : List.Forall₂ R as bs) {a : α} (ha : a ∈ as) : ∃ b ∈ bs, R a b :=
  exists_of_mem_forall₂ h.flip ha

/-- Each of several items has a model. -/
theorem forall₂_of_itemModels {is : List Item} {ms : List Model} (h : itemModels is = .ok ms) :
    List.Forall₂ (fun i m => i.model = .ok m) is ms := by
  induction is generalizing ms with
  | nil =>
    obtain rfl := Except.ok.inj h
    exact .nil
  | cons i is ih =>
    rw [itemModels] at h
    obtain ⟨m, hm, h⟩ := ok_of_bind h
    obtain ⟨ns, hns, h⟩ := ok_of_bind h
    obtain rfl := Except.ok.inj h
    exact .cons hm (ih hns)

/-- Each of several lists of items has models, which stand in sequence. -/
theorem forall₂_of_alternativeModels {as : List (List Item)} {ms : List Model}
    (h : alternativeModels as = .ok ms) :
    List.Forall₂ (fun is m => ∃ ns, itemModels is = .ok ns ∧ m = Model.ofSequence ns) as ms := by
  induction as generalizing ms with
  | nil =>
    obtain rfl := Except.ok.inj h
    exact .nil
  | cons is as ih =>
    rw [alternativeModels] at h
    obtain ⟨ns, hns, h⟩ := ok_of_bind h
    obtain ⟨rest, hrest, h⟩ := ok_of_bind h
    obtain rfl := Except.ok.inj h
    exact .cons ⟨ns, hns, rfl⟩ (ih hrest)

/-! ## Sound models -/

namespace Model

/-- Whether a place of a model is as it should be: a choice offers something, the bounds of a
repetition are in order, an exclusion has a target. -/
def Site.Sound : Site → Prop
  | .shape (.choice ms) => ms ≠ []
  | .shape (.repeated _ least most) => ∀ k, most = some k → least ≤ k
  | .shape (.excluding _ targets) => targets ≠ []
  | _ => True

/-- Whether all places of a model are as they should be. -/
def Sound (m : Model) : Prop := ∀ s ∈ m.sites, s.Sound

variable {m n : Model} {ms : List Model} {targets : List Target}

theorem sound_sitesAll (h : ∀ m ∈ ms, m.Sound) : ∀ s ∈ sitesAll ms, s.Sound := by
  intro s hs
  obtain ⟨m, hm, hs⟩ := mem_sitesAll.mp hs
  exact h m hm s hs

theorem sound_sequence (h : ∀ m ∈ ms, m.Sound) : (sequence ms).Sound := by
  rw [Sound, sites]
  exact List.forall_mem_cons.mpr ⟨trivial, sound_sitesAll h⟩

theorem sound_choice (hne : ms ≠ []) (h : ∀ m ∈ ms, m.Sound) : (choice ms).Sound := by
  rw [Sound, sites]
  exact List.forall_mem_cons.mpr ⟨hne, sound_sitesAll h⟩

theorem sound_optional (h : m.Sound) : (optional m).Sound := by
  rw [Sound, sites]
  exact List.forall_mem_cons.mpr ⟨trivial, h⟩

theorem sound_excluding (hne : targets ≠ []) (h : m.Sound) : (excluding m targets).Sound := by
  rw [Sound, sites]
  refine List.forall_mem_cons.mpr ⟨hne, List.forall_mem_append.mpr ⟨?_, h⟩⟩
  exact List.forall_mem_map.mpr fun _ _ => trivial

theorem sound_ofName (raw : String) : (ofName raw).Sound := by
  have hleaf : ∀ m : Model, m.sites = [.shape m] → Site.Sound (.shape m) → m.Sound := by
    intro m hm hs s hmem
    rw [hm] at hmem
    exact List.mem_singleton.mp hmem ▸ hs
  unfold ofName
  dsimp only
  split
  · exact hleaf .text rfl trivial
  split
  · exact hleaf .transparent rfl trivial
  split
  · exact hleaf (.category _) rfl trivial
  · exact hleaf (.tag _) rfl trivial

theorem sound_ofSequence (h : ∀ m ∈ ms, m.Sound) : (ofSequence ms).Sound := by
  unfold ofSequence
  split
  · exact h _ List.mem_cons_self
  · exact sound_sequence h

/-- The check of the bounds makes repetitions sound. -/
theorem sound_repetition {least : Nat} {most : Option Nat} (hm : m.Sound)
    (h : m.repetition least most = .ok n) : n.Sound := by
  obtain ⟨rfl, hbounds⟩ := ok_of_repetition h
  rw [Sound, sites]
  exact List.forall_mem_cons.mpr ⟨hbounds, hm⟩

/-- The check of the targets makes exclusions sound. -/
theorem sound_ignoring {ignore : Option Names} (hm : m.Sound) (h : m.ignoring ignore = .ok n) :
    n.Sound := by
  rcases ok_of_ignoring h with rfl | ⟨targets, hne, rfl⟩
  · exact hm
  · exact sound_excluding hne hm

end Model

/-- Names are read to sound models. -/
theorem Names.sound {names : Names} {m : Model} (h : names.model = .ok m) : m.Sound := by
  rcases ok_of_model h with ⟨raw, -, rfl⟩ | ⟨hne, rfl⟩
  · exact Model.sound_ofName raw
  · refine Model.sound_choice (fun hnil => hne (List.map_eq_nil_iff.mp hnil)) ?_
    exact List.forall_mem_map.mpr fun raw _ => Model.sound_ofName raw

/-- A row of items is sound if each of them is. -/
theorem sound_itemModels {is : List Item} {ms : List Model}
    (his : ∀ i ∈ is, ∀ m, i.model = .ok m → m.Sound) (h : itemModels is = .ok ms) :
    (Model.ofSequence ms).Sound := by
  refine Model.sound_ofSequence fun m hm => ?_
  obtain ⟨i, hi, hmodel⟩ := exists_of_mem_forall₂ (forall₂_of_itemModels h) hm
  exact his i hi m hmodel

/-- An item is read to a sound model, at any depth. -/
theorem Item.sound {i : Item} {m : Model} (h : i.model = .ok m) : m.Sound := by
  induction i generalizing m with
  | require what least most ignore =>
    rw [Item.model] at h
    obtain ⟨n, hn, h⟩ := ok_of_bind h
    dsimp only at h
    split at h
    · exact Model.sound_ignoring (Names.sound hn) h
    · obtain ⟨n', hn', h⟩ := ok_of_bind h
      exact Model.sound_ignoring (Model.sound_repetition (Names.sound hn) hn') h
  | optional what ignore =>
    rw [Item.model] at h
    obtain ⟨n, hn, h⟩ := ok_of_bind h
    exact Model.sound_ignoring (Model.sound_optional (Names.sound hn)) h
  | repeatNames quantity what most ignore =>
    rw [Item.model] at h
    obtain ⟨n, hn, h⟩ := ok_of_bind h
    obtain ⟨n', hn', h⟩ := ok_of_bind h
    exact Model.sound_ignoring (Model.sound_repetition (Names.sound hn) hn') h
  | repeatItems quantity what most ignore ih =>
    rw [Item.model] at h
    obtain ⟨ms, hms, h⟩ := ok_of_bind h
    obtain ⟨n', hn', h⟩ := ok_of_bind h
    have hsequence := sound_itemModels (fun i hi _ => ih i hi) hms
    exact Model.sound_ignoring (Model.sound_repetition hsequence hn') h
  | choice alternatives ih =>
    rw [Item.model] at h
    split at h
    · cases h
    case isFalse hne =>
      obtain ⟨ms, hms, h⟩ := ok_of_bind h
      obtain rfl := Except.ok.inj h
      have hall := forall₂_of_alternativeModels hms
      -- there is an alternative, since a choice without any has been refused
      refine Model.sound_choice ?_ fun m hm => ?_
      · rintro rfl
        exact hne (by rw [List.forall₂_nil_right_iff.mp hall]; rfl)
      · obtain ⟨is, his, ns, hns, rfl⟩ := exists_of_mem_forall₂ hall hm
        exact sound_itemModels (fun i hi _ => ih is his i hi) hns

/-- What contents are read to is sound. -/
theorem Contents.sound {c : Contents} {m : Model} (h : c.model = .ok m) : m.Sound := by
  unfold model at h
  split at h
  · obtain rfl := Except.ok.inj h
    rw [Model.Sound, Model.sites]
    exact List.forall_mem_singleton.mpr trivial
  · obtain rfl := Except.ok.inj h
    exact Model.sound_sequence (List.forall_mem_nil _)
  · obtain ⟨ms, hms, h⟩ := ok_of_bind h
    obtain rfl := Except.ok.inj h
    exact sound_itemModels (fun _ _ _ => Item.sound) hms

/-- What an author writes has no choice between nothing. -/
theorem Contents.noChoice {c : Contents} {m : Model} (h : c.model = .ok m) :
    Site.shape (.choice []) ∉ m.sites :=
  fun hs => Contents.sound h _ hs rfl

end ContentGrammar
