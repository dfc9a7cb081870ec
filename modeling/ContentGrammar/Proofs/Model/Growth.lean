import Mathlib.Algebra.Order.BigOperators.Group.List
import Mathlib.Algebra.Order.Monoid.Unbundled.Pow
import Mathlib.Order.CompletePartialOrder
import ContentGrammar.Proofs.Category.Growth
import ContentGrammar.Proofs.Model.Language

/-!
# Models with larger categories

A model names categories as content and as targets of exclusions. With larger sets it permits more
rows as content (`language_mono`). Targets do not narrow what it permits, and an exclusion forbids
something if it did so before. So a model that can be compiled can also be compiled with larger sets
(`exists_compile_mono`).
-/

namespace ContentGrammar

open Category (Sets)

variable {sets sets' : Sets} {parent parent' : Option Pattern} {l l' : Language String}

/-! ## Languages -/

theorem repetitions_mono (h : l ≤ l') (least : Nat) (most : Option Nat) :
    repetitions l least most ≤ repetitions l' least most := by
  rintro w ⟨k, hleast, hmost, hw⟩
  exact ⟨k, hleast, hmost, pow_le_pow_left' h k hw⟩

namespace Model

theorem languages_mono {ms : List Model}
    (h : ∀ m ∈ ms, m.language sets l ≤ m.language sets' l') :
    List.Forall₂ (· ≤ ·) (languages sets l ms) (languages sets' l' ms) := by
  induction ms with
  | nil => exact .nil
  | cons m ms ih =>
    exact .cons (h m List.mem_cons_self) (ih fun n hn => h n (List.mem_cons_of_mem _ hn))

/-- A model permits more with larger sets, and where more is inherited. -/
theorem language_mono (hsets : sets.GrowsTo sets') (hl : l ≤ l') (m : Model) :
    m.language sets l ≤ m.language sets' l' := by
  induction m with
  | any | tag _ | text => exact le_refl _
  | category name =>
    rintro w ⟨members, hmembers, n, hn, rfl⟩
    obtain ⟨members', hmembers', hsub⟩ := hsets name members hmembers
    exact ⟨members', hmembers', n, hsub n hn, rfl⟩
  | sequence ms ih => exact (languages_mono ih).prod_le_prod'
  | choice ms ih => exact (languages_mono ih).sum_le_sum
  | optional m ih => exact add_le_add_right ih 1
  | repeated m least most ih => exact repetitions_mono ih least most
  | transparent => exact hl
  | excluding scope targets ih => exact ih

/-! ## Faults -/

theorem target_mem_sites {m scope : Model} {targets : List Target}
    (h : .shape (.excluding scope targets) ∈ m.sites) : ∀ t ∈ targets, .target t ∈ m.sites := by
  intro t ht
  induction m with
  | any | tag _ | category _ | text | transparent =>
    rw [sites, List.mem_singleton] at h
    cases h
  | sequence ms ih | choice ms ih =>
    rw [sites, List.mem_cons, mem_sitesAll] at h ⊢
    rcases h with h | ⟨m, hm, h⟩
    · cases h
    · exact .inr ⟨m, hm, ih m hm h⟩
  | optional m ih | repeated m _ _ ih =>
    rw [sites, List.mem_cons] at h ⊢
    rcases h with h | h
    · cases h
    · exact .inr (ih h)
  | excluding m ts ih =>
    rw [sites, List.mem_cons, List.mem_append] at h ⊢
    rcases h with h | h | h
    · cases h
      exact .inr (.inl (List.mem_map.mpr ⟨t, ht, rfl⟩))
    · obtain ⟨t', -, h⟩ := List.mem_map.mp h
      cases h
    · exact .inr (.inr (ih h))

theorem get?_eq_none_of_growsTo (h : sets.GrowsTo sets') {name : String}
    (hn : sets'.get? name = none) : sets.get? name = none := by
  rw [Option.eq_none_iff_forall_ne_some]
  intro members hmembers
  obtain ⟨members', hmembers', -⟩ := h name members hmembers
  cases hn.symm.trans hmembers'

theorem unknown?_of_growsTo (h : sets.GrowsTo sets') {name : String}
    (hn : (unknown? sets' name).isSome) : (unknown? sets name).isSome := by
  rw [unknown?] at hn ⊢
  split at hn
  · rename_i hnone
    rw [if_pos]
    · rfl
    · exact Option.isNone_iff_eq_none.mpr
        (get?_eq_none_of_growsTo h (Option.isNone_iff_eq_none.mp hnone))
  · cases hn

/-- A target that forbids nothing did so before, unless it was unknown. -/
theorem forbidsNothing_of_growsTo (h : sets.GrowsTo sets') (parent : Option Pattern) {t : Target}
    (ht : forbidsNothing sets' t = true) :
    forbidsNothing sets t = true ∨ ((Site.target t).fault? sets parent).isSome := by
  cases t with
  | text | selector _ => cases ht
  | category name =>
    show (sets.get? name).any _ = true ∨ (unknown? sets name).isSome
    cases hmembers : sets.get? name with
    | none =>
      rw [unknown?, hmembers]
      exact .inr rfl
    | some members =>
      refine .inl ?_
      obtain ⟨members', hmembers', hsub⟩ := h name members hmembers
      rw [forbidsNothing, hmembers', Option.any_some, NameSet.isEmpty, List.isEmpty_iff] at ht
      rw [Option.any_some, NameSet.isEmpty, List.isEmpty_iff, List.eq_nil_iff_forall_not_mem]
      intro x hx
      have hx' : x ∈ members'.toList := hsub x hx
      rw [ht] at hx'
      cases hx'

/-- What is at fault with larger sets and more to inherit was at fault before, perhaps at another
site. -/
theorem exists_fault_of_growsTo (h : sets.GrowsTo sets')
    (hparent : parent' = none → parent = none) {m : Model} {s : Site} (hs : s ∈ m.sites)
    (hfault : (s.fault? sets' parent').isSome) :
    ∃ s ∈ m.sites, (s.fault? sets parent).isSome := by
  unfold Site.fault? at hfault
  split at hfault
  case h_1 name => exact ⟨_, hs, unknown?_of_growsTo h hfault⟩
  case h_2 name => exact ⟨_, hs, unknown?_of_growsTo h hfault⟩
  case h_3 ms => exact ⟨_, hs, hfault⟩
  case h_4 =>
    refine ⟨_, hs, ?_⟩
    cases parent' with
    | none =>
      rw [hparent rfl]
      rfl
    | some p => cases hfault
  case h_5 scope targets =>
    split at hfault
    case isFalse => cases hfault
    case isTrue hall =>
      -- a target that was unknown was at fault itself, and if all were known the exclusion was
      by_cases hunknown : ∃ t ∈ targets, ((Site.target t).fault? sets parent).isSome
      · obtain ⟨t, ht, hfault⟩ := hunknown
        exact ⟨_, target_mem_sites hs t ht, hfault⟩
      · refine ⟨_, hs, ?_⟩
        have hall' : targets.all (forbidsNothing sets) = true := by
          refine List.all_eq_true.mpr fun t ht => ?_
          have hnothing := forbidsNothing_of_growsTo h parent (List.all_eq_true.mp hall t ht)
          exact hnothing.resolve_right fun hsome => hunknown ⟨t, ht, hsome⟩
        rw [Site.fault?, if_pos hall']
        rfl
  case h_6 => cases hfault

theorem exists_compile_iff {m : Model} : (∃ q, m.compile sets parent = .ok q) ↔
    ¬ ∃ s ∈ m.sites, (s.fault? sets parent).isSome := by
  rw [← List.findSome?_isSome_iff, ← fault?, ← failure?_compile]
  cases m.compile sets parent with
  | ok q => exact iff_of_true ⟨q, rfl⟩ Bool.false_ne_true
  | error e =>
    refine iff_of_false ?_ (not_not_intro rfl)
    rintro ⟨q, h⟩
    cases h

/-- What can be compiled can also be compiled with larger sets and with more to inherit. -/
theorem exists_compile_mono (h : sets.GrowsTo sets') (hparent : parent' = none → parent = none)
    {m : Model} (hm : ∃ q, m.compile sets parent = .ok q) :
    ∃ q, m.compile sets' parent' = .ok q := by
  rw [exists_compile_iff] at hm ⊢
  rintro ⟨s, hs, hfault⟩
  exact hm (exists_fault_of_growsTo h hparent hs hfault)

end Model

end ContentGrammar
