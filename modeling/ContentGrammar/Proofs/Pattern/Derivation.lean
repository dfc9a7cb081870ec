import Mathlib.Data.List.Basic
import ContentGrammar.Pattern.Lockstep

/-!
# Derivations of patterns

What a pattern means, with no program in sight:

* `Derivation p i ts ss` — the pattern `p` takes exactly the row of tokens `ts`, the first of which
  is at position `i`, and `ss` are the labeled regions that it goes through, in the order in which
  they end. A repetition goes through its item `k` times in a row, where `k` is at least `min` and,
  if there is a `max`, at most the larger of the two;
* `Matches p ts` — there is a derivation over the row;
* `Derivation.spans_ordered` — of two regions the later one lies behind the earlier one or around
  it;
* `Derivation.span_spec` — each region lies in the row, and what it took is a match of the pattern
  under its label.
-/

namespace ContentGrammar

namespace Pattern

/-- Induction over a pattern, with the claim for all patterns of a list at once. -/
@[induction_eliminator]
theorem induct {motive : Pattern → Prop} (empty : motive .empty)
    (token : ∀ c, motive (.token c))
    (sequence : ∀ ps, (∀ p ∈ ps, motive p) → motive (.sequence ps))
    (choice : ∀ ps, (∀ p ∈ ps, motive p) → motive (.choice ps))
    (repeated : ∀ p least most, motive p → motive (.repeated p least most))
    (labeled : ∀ l p, motive p → motive (.labeled l p)) (p : Pattern) : motive p :=
  match p with
  | .empty => empty
  | .token c => token c
  | .sequence ps =>
    sequence ps fun q _ => induct empty token sequence choice repeated labeled q
  | .choice ps => choice ps fun q _ => induct empty token sequence choice repeated labeled q
  | .repeated q least most =>
    repeated q least most (induct empty token sequence choice repeated labeled q)
  | .labeled l q => labeled l q (induct empty token sequence choice repeated labeled q)

/-- How a pattern takes a row of tokens that begins at position `i`, and the regions that it goes
through on the way. -/
inductive Derivation : Pattern → Nat → List Token → List Span → Prop
  | empty {i} : Derivation .empty i [] []
  | token {c i t} : c.accepts t = true → Derivation (.token c) i [t] []
  | sequenceNil {i} : Derivation (.sequence []) i [] []
  | sequenceCons {p ps i ts us ss rs} : Derivation p i ts ss →
      Derivation (.sequence ps) (i + ts.length) us rs →
      Derivation (.sequence (p :: ps)) i (ts ++ us) (ss ++ rs)
  | choice {p ps i ts ss} : p ∈ ps → Derivation p i ts ss → Derivation (.choice ps) i ts ss
  | repeated {p least most k i ts ss} : least ≤ k → (∀ m, most = some m → k ≤ max least m) →
      Derivation (.sequence (List.replicate k p)) i ts ss →
      Derivation (.repeated p least most) i ts ss
  | labeled {l p i ts ss} : Derivation p i ts ss →
      Derivation (.labeled l p) i ts (ss ++ [⟨l, i, i + ts.length⟩])

/-- The pattern takes all of the row. -/
def Matches (p : Pattern) (ts : List Token) : Prop := ∃ ss, Derivation p 0 ts ss

/-- `HasRegion p l q`: somewhere in `p` the pattern `q` stands under the label `l`. -/
inductive HasRegion : Pattern → Label → Pattern → Prop
  | here {l q} : HasRegion (.labeled l q) l q
  | labeled {l m p q} : HasRegion p l q → HasRegion (.labeled m p) l q
  | sequence {p ps l q} : p ∈ ps → HasRegion p l q → HasRegion (.sequence ps) l q
  | choice {p ps l q} : p ∈ ps → HasRegion p l q → HasRegion (.choice ps) l q
  | repeated {p least most l q} : HasRegion p l q → HasRegion (.repeated p least most) l q

namespace Derivation

variable {p q : Pattern} {ps qs : List Pattern} {i j k least : Nat} {most : Option Nat}
  {ts us : List Token} {ss rs : List Span}

/-! ## Taking derivations apart -/

theorem empty_iff : Derivation .empty i ts ss ↔ ts = [] ∧ ss = [] := by
  constructor
  · intro h
    cases h
    exact ⟨rfl, rfl⟩
  · rintro ⟨rfl, rfl⟩
    exact .empty

theorem sequence_nil_iff : Derivation (.sequence []) i ts ss ↔ ts = [] ∧ ss = [] := by
  constructor
  · intro h
    cases h
    exact ⟨rfl, rfl⟩
  · rintro ⟨rfl, rfl⟩
    exact .sequenceNil

/-- A derivation of a sequence is one of its first item and then one of the others. -/
theorem sequence_cons_iff : Derivation (.sequence (p :: ps)) i ts ss ↔
    ∃ ts₁ ts₂ ss₁ ss₂, ts = ts₁ ++ ts₂ ∧ ss = ss₁ ++ ss₂ ∧ Derivation p i ts₁ ss₁ ∧
      Derivation (.sequence ps) (i + ts₁.length) ts₂ ss₂ := by
  constructor
  · intro h
    cases h with
    | sequenceCons h₁ h₂ => exact ⟨_, _, _, _, rfl, rfl, h₁, h₂⟩
  · rintro ⟨_, _, _, _, rfl, rfl, h₁, h₂⟩
    exact .sequenceCons h₁ h₂

theorem choice_iff : Derivation (.choice ps) i ts ss ↔ ∃ p ∈ ps, Derivation p i ts ss := by
  constructor
  · intro h
    cases h with
    | choice hp h => exact ⟨_, hp, h⟩
  · rintro ⟨p, hp, h⟩
    exact .choice hp h

theorem repeated_iff : Derivation (.repeated p least most) i ts ss ↔
    ∃ k, least ≤ k ∧ (∀ m, most = some m → k ≤ max least m) ∧
      Derivation (.sequence (List.replicate k p)) i ts ss := by
  constructor
  · intro h
    cases h with
    | repeated hmin hmax h => exact ⟨_, hmin, hmax, h⟩
  · rintro ⟨k, hmin, hmax, h⟩
    exact .repeated hmin hmax h

theorem labeled_iff {l : Label} : Derivation (.labeled l p) i ts ss ↔
    ∃ rs, ss = rs ++ [⟨l, i, i + ts.length⟩] ∧ Derivation p i ts rs := by
  constructor
  · intro h
    cases h with
    | labeled h => exact ⟨_, rfl, h⟩
  · rintro ⟨rs, rfl, h⟩
    exact .labeled h

/-- Derivations of two sequences, one behind the other, make one of both together. -/
theorem sequence_append_iff : Derivation (.sequence (ps ++ qs)) i ts ss ↔
    ∃ ts₁ ts₂ ss₁ ss₂, ts = ts₁ ++ ts₂ ∧ ss = ss₁ ++ ss₂ ∧ Derivation (.sequence ps) i ts₁ ss₁ ∧
      Derivation (.sequence qs) (i + ts₁.length) ts₂ ss₂ := by
  induction ps generalizing i ts ss with
  | nil =>
    constructor
    · intro h
      exact ⟨[], ts, [], ss, rfl, rfl, .sequenceNil, by simpa using h⟩
    · rintro ⟨_, _, _, _, rfl, rfl, h₁, h₂⟩
      obtain ⟨rfl, rfl⟩ := sequence_nil_iff.mp h₁
      simpa using h₂
  | cons p ps ih =>
    constructor
    · intro h
      obtain ⟨ts₁, _, ss₁, _, rfl, rfl, hp, h⟩ := sequence_cons_iff.mp h
      obtain ⟨ts₂, ts₃, ss₂, ss₃, rfl, rfl, hps, hqs⟩ := ih.mp h
      refine ⟨ts₁ ++ ts₂, ts₃, ss₁ ++ ss₂, ss₃, by simp, by simp, .sequenceCons hp hps, ?_⟩
      simpa [Nat.add_assoc] using hqs
    · rintro ⟨_, ts₃, _, ss₃, rfl, rfl, h, hqs⟩
      obtain ⟨ts₁, ts₂, ss₁, ss₂, rfl, rfl, hp, hps⟩ := sequence_cons_iff.mp h
      refine sequence_cons_iff.mpr ⟨ts₁, ts₂ ++ ts₃, ss₁, ss₂ ++ ss₃, by simp, by simp, hp, ?_⟩
      exact ih.mpr ⟨ts₂, ts₃, ss₂, ss₃, rfl, rfl, hps, by simpa [Nat.add_assoc] using hqs⟩

/-- Where a row begins does not matter for whether there is a derivation over it. -/
theorem move (h : Derivation p i ts ss) (j : Nat) : ∃ rs, Derivation p j ts rs := by
  induction h generalizing j with
  | empty => exact ⟨_, .empty⟩
  | token h => exact ⟨_, .token h⟩
  | sequenceNil => exact ⟨_, .sequenceNil⟩
  | sequenceCons _ _ ih₁ ih₂ =>
    obtain ⟨_, h₁⟩ := ih₁ j
    obtain ⟨_, h₂⟩ := ih₂ _
    exact ⟨_, .sequenceCons h₁ h₂⟩
  | choice hp _ ih =>
    obtain ⟨_, h⟩ := ih j
    exact ⟨_, .choice hp h⟩
  | repeated hmin hmax _ ih =>
    obtain ⟨_, h⟩ := ih j
    exact ⟨_, .repeated hmin hmax h⟩
  | labeled _ ih =>
    obtain ⟨_, h⟩ := ih j
    exact ⟨_, .labeled h⟩

/-! ## The regions of a derivation -/

/-- Each region lies within the row that the derivation takes. -/
theorem span_bounds (h : Derivation p i ts ss) :
    ∀ s ∈ ss, i ≤ s.start ∧ s.start ≤ s.stop ∧ s.stop ≤ i + ts.length := by
  induction h with
  | empty | token | sequenceNil => simp
  | sequenceCons _ _ ih₁ ih₂ =>
    intro s hs
    rw [List.length_append]
    rcases List.mem_append.mp hs with hs | hs
    · have := ih₁ s hs
      omega
    · have := ih₂ s hs
      omega
  | choice _ _ ih | repeated _ _ _ ih => exact ih
  | labeled _ ih =>
    intro s hs
    rcases List.mem_append.mp hs with hs | hs
    · exact ih s hs
    · obtain rfl := List.mem_singleton.mp hs
      exact ⟨Nat.le_refl _, Nat.le_add_right _ _, Nat.le_refl _⟩

/-- Of two regions the one that ends later begins behind the other one, or lies around it. -/
theorem spans_ordered (h : Derivation p i ts ss) :
    ss.Pairwise fun a b => a.stop ≤ b.start ∨ b.start ≤ a.start ∧ a.stop ≤ b.stop := by
  induction h with
  | empty | token | sequenceNil => exact .nil
  | sequenceCons h₁ h₂ ih₁ ih₂ =>
    refine List.pairwise_append.mpr ⟨ih₁, ih₂, fun a ha b hb => .inl ?_⟩
    exact Nat.le_trans (h₁.span_bounds a ha).2.2 (h₂.span_bounds b hb).1
  | choice _ _ ih | repeated _ _ _ ih => exact ih
  | labeled h ih =>
    refine List.pairwise_append.mpr ⟨ih, List.pairwise_singleton _ _, fun a ha b hb => .inr ?_⟩
    obtain rfl := List.mem_singleton.mp hb
    exact ⟨(h.span_bounds a ha).1, (h.span_bounds a ha).2.2⟩

/-- A region of a derivation stands in the pattern, and what it took is a derivation of the pattern
under its label. -/
theorem span_spec (h : Derivation p i ts ss) : ∀ s ∈ ss, ∃ q, HasRegion p s.label q ∧
    ∃ rs, Derivation q s.start ((ts.drop (s.start - i)).take (s.stop - s.start)) rs := by
  induction h with
  | empty | token | sequenceNil => simp
  | @sequenceCons p ps i ts us ss rs h₁ h₂ ih₁ ih₂ =>
    intro s hs
    rcases List.mem_append.mp hs with hs | hs
    · obtain ⟨q, hq, rs, h⟩ := ih₁ s hs
      have hb := h₁.span_bounds s hs
      refine ⟨q, .sequence List.mem_cons_self hq, rs, ?_⟩
      rwa [List.drop_append_of_le_length (by omega),
        List.take_append_of_le_length (by rw [List.length_drop]; omega)]
    · obtain ⟨q, hq, rs, h⟩ := ih₂ s hs
      -- the region is one of the items behind `p`, and counted from behind what `p` took
      have hb := h₂.span_bounds s hs
      have hq : HasRegion (.sequence (p :: ps)) s.label q := by
        cases hq with
        | sequence hp hq => exact .sequence (List.mem_cons_of_mem _ hp) hq
      refine ⟨q, hq, rs, ?_⟩
      rw [show s.start - i = ts.length + (s.start - (i + ts.length)) by omega,
        List.drop_length_add_append]
      exact h
  | choice hp _ ih =>
    intro s hs
    obtain ⟨q, hq, h⟩ := ih s hs
    exact ⟨q, .choice hp hq, h⟩
  | repeated _ _ _ ih =>
    intro s hs
    obtain ⟨q, hq, h⟩ := ih s hs
    cases hq with
    | sequence hp hq =>
      obtain rfl := List.eq_of_mem_replicate hp
      exact ⟨q, .repeated hq, h⟩
  | labeled h ih =>
    intro s hs
    rcases List.mem_append.mp hs with hs | hs
    · obtain ⟨q, hq, h⟩ := ih s hs
      exact ⟨q, .labeled hq, h⟩
    · obtain rfl := List.mem_singleton.mp hs
      exact ⟨_, .here, _, by simpa using h⟩

end Derivation

end Pattern

end ContentGrammar
