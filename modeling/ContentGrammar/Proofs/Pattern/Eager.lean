import ContentGrammar.Proofs.Pattern.Code
import ContentGrammar.Proofs.Pattern.Greedy

/-!
# Patterns that prefer to take tokens

Greedy backtracking and a run in lockstep part over items of a loop that can take nothing, and do so
before they try to take something (`Eager` excludes them).

* `means_ways` — what a way takes is a derivation of the pattern;
* `Eager.of_not_matches_nil` — so what cannot be matched by nothing is eager;
* `Settled.eager` — and so is a pattern in which alternatives that can be matched by nothing come
  last, and in which no item that can be matched by nothing may be left out.
-/

namespace ContentGrammar

namespace Pattern

open Lockstep

variable {p q : Pattern} {ps : List Pattern}

/-! ## What the ways of a pattern take -/

/-- Ways take tokens as an effect says. -/
def Means (m : Matcher Span) (D : Effect) : Prop :=
  ∀ x, ∀ c ∈ m x, ∃ ts, x.rest = ts ++ c.1.rest ∧ c.1.position = x.position + ts.length ∧
    D x.position ts c.2

section

variable {m n : Matcher Span} {D D' : Effect}

theorem Means.mono (h : Means m D) (hD : ∀ i ts ss, D i ts ss → D' i ts ss) : Means m D' := by
  intro x c hc
  obtain ⟨ts, hrest, hposition, hd⟩ := h x c hc
  exact ⟨ts, hrest, hposition, hD _ _ _ hd⟩

theorem Means.skip : Means Matcher.skip Effect.skip := by
  intro x c hc
  obtain rfl := List.mem_singleton.mp hc
  exact ⟨[], rfl, rfl, rfl, rfl⟩

/-- What ways of two matchers take one after the other. -/
theorem Means.andThen (h : Means m D) (h' : Means n D') : Means (m.andThen n) (D.andThen D') := by
  intro x c hc
  obtain ⟨a, ha, b, hb, rfl⟩ := Matcher.mem_andThen.mp hc
  obtain ⟨ts, hrest, hposition, hd⟩ := h x a ha
  obtain ⟨us, hrest', hposition', hd'⟩ := h' a.1 b hb
  refine ⟨ts ++ us, by simp [hrest, hrest'], by simp [hposition', hposition, Nat.add_assoc],
    ts, us, _, _, rfl, rfl, hd, hposition ▸ hd'⟩

theorem Means.orElse (h : Means m D) (h' : Means n D) : Means (m.orElse n) D := by
  intro x c hc
  rcases Matcher.mem_orElse.mp hc with hc | hc
  · exact h x c hc
  · exact h' x c hc

theorem Means.noting {l : Label} (h : Means p.ways (Derivation p)) :
    Means (Pattern.labeled l p).ways (Derivation (.labeled l p)) := by
  intro x c hc
  rw [ways] at hc
  obtain ⟨a, ha, rfl⟩ := Matcher.mem_noting.mp hc
  obtain ⟨ts, hrest, hposition, hd⟩ := h x a ha
  refine ⟨ts, hrest, hposition, ?_⟩
  dsimp only
  rw [hposition]
  exact .labeled hd

theorem Means.times (h : Means p.ways (Derivation p)) (k : Nat) :
    Means (p.ways.times k) (Effect.times p k) := by
  induction k with
  | zero =>
    rw [Effect.times_zero]
    exact Means.skip
  | succ k ih =>
    rw [Effect.times_succ]
    exact h.andThen ih

/-- What ways of at most so many rounds take. -/
theorem Means.upTo (h : Means p.ways (Derivation p)) (k : Nat) :
    Means (p.ways.upTo k) fun i ts ss => ∃ j ≤ k, Effect.times p j i ts ss := by
  induction k with
  | zero =>
    refine Means.skip.mono fun i ts ss hd => ⟨0, Nat.le_refl 0, ?_⟩
    rwa [Effect.times_zero]
  | succ k ih =>
    refine (h.andThen ih).mono ?_ |>.orElse (Means.skip.mono fun i ts ss hd => ⟨0, Nat.zero_le _, ?_⟩)
    · rintro i ts ss ⟨ts₁, ts₂, ss₁, ss₂, rfl, rfl, hd, j, hj, hd'⟩
      exact ⟨j + 1, Nat.succ_le_succ hj, .sequenceCons hd hd'⟩
    · rwa [Effect.times_zero]

/-- What ways of any number of rounds take. -/
theorem Means.more (h : Means p.ways (Derivation p)) :
    Means (p.ways.more Matcher.skip) fun i ts ss => ∃ j, Effect.times p j i ts ss := by
  intro x c hc
  induction x, c, hc using Matcher.more_induct with
  | stop x c hc =>
    obtain ⟨ts, hrest, hposition, hd⟩ := Means.skip x c hc
    exact ⟨ts, hrest, hposition, 0, by rwa [Effect.times_zero]⟩
  | round x a b ha hlt hb ih =>
    obtain ⟨ts, hrest, hposition, hd⟩ := h x a ha
    obtain ⟨us, hrest', hposition', j, hd'⟩ := ih
    refine ⟨ts ++ us, by simp [hrest, hrest'], by simp [hposition', hposition, Nat.add_assoc],
      j + 1, .sequenceCons hd (hposition ▸ hd')⟩

/-- What ways of a repetition take. -/
theorem Means.repeated {least : Nat} {most : Option Nat} (h : Means p.ways (Derivation p)) :
    Means (Pattern.repeated p least most).ways (Derivation (.repeated p least most)) := by
  cases most with
  | none =>
    rw [ways]
    refine ((Means.times h least).andThen (Means.more h)).mono fun i ts ss hd => ?_
    rw [Derivation.repeated_iff]
    have := (Effect.times_andThen_iff fun _ => True).mp (by simpa using hd)
    simpa using this
  | some most =>
    rw [ways]
    refine ((Means.times h least).andThen (Means.upTo h (most - least))).mono fun i ts ss hd => ?_
    obtain ⟨k, hle, hk, hd⟩ := (Effect.times_andThen_iff (· ≤ most - least)).mp hd
    refine .repeated hle (fun bound hbound => ?_) hd
    obtain rfl := Option.some.inj hbound
    omega

end

/-- What a way takes is a derivation of the pattern. -/
theorem means_ways (p : Pattern) : Means p.ways (Derivation p) := by
  induction p with
  | empty => exact Means.skip.mono fun i ts ss hd => Derivation.empty_iff.mpr hd
  | token accepted =>
    intro x c hc
    obtain ⟨t, ts, ht, hrest, rfl⟩ := Matcher.mem_take.mp hc
    exact ⟨[t], hrest, rfl, .token ht⟩
  | sequence ps ih =>
    rw [ways]
    induction ps with
    | nil => exact Means.skip.mono fun i ts ss hd => Derivation.sequence_nil_iff.mpr hd
    | cons p ps ihs =>
      have first := ih p List.mem_cons_self
      have others := ihs fun q hq => ih q (List.mem_cons_of_mem _ hq)
      exact (first.andThen others).mono fun i ts ss hd => Derivation.sequence_cons_iff.mpr hd
  | choice ps ih =>
    rw [ways]
    induction ps with
    | nil =>
      intro x c hc
      cases hc
    | cons p ps ihs =>
      have first := ih p List.mem_cons_self
      have others := ihs fun q hq => ih q (List.mem_cons_of_mem _ hq)
      refine .orElse (first.mono fun i ts ss hd => .choice List.mem_cons_self hd)
        (others.mono fun i ts ss hd => ?_)
      -- the others are a choice of their own, and its derivations are some of those of the whole
      obtain ⟨q, hq, hd⟩ := Derivation.choice_iff.mp hd
      exact .choice (List.mem_cons_of_mem _ hq) hd
  | repeated p least most ih => exact ih.repeated
  | labeled l p ih => exact ih.noting

/-! ## Taking nothing on the last way only -/

/-- No way but the last one may take nothing. -/
def StopsLast (m : Matcher Span) : Prop := ∀ x, (m x).Pairwise fun c _ => c.1 ≠ x

/-- If only the last way takes nothing, no such way comes before one that takes something. -/
theorem StopsLast.eager (h : StopsLast p.ways) : p.Eager :=
  fun x => (h x).imp fun hne hc => absurd hc hne

section

variable {m n : Matcher Span} {D D' : Effect} {x : Point}

/-- Ways of a matcher go back to where they begin only if all their parts take nothing. -/
theorem Means.eq_of_eq (h : Means m D) (h' : Means n D') {a b : Point × List Span} (ha : a ∈ m x)
    (hb : b ∈ n a.1) (heq : b.1 = x) : a.1 = x := by
  obtain ⟨ts, hrest, hposition, -⟩ := h x a ha
  obtain ⟨us, hrest', hposition', -⟩ := h' a.1 b hb
  have hreach : x.Reaches a.1 := ⟨ts, hrest, hposition⟩
  rw [heq] at hposition'
  exact hreach.eq_of_position_le (by omega)

theorem StopsLast.skip : StopsLast Matcher.skip := fun _ => List.pairwise_singleton _ _

/-- Of two matchers in a row, only both last ways together take nothing. -/
theorem StopsLast.andThen (h : StopsLast m) (h' : StopsLast n) (hm : Means m D) (hn : Means n D') :
    StopsLast (m.andThen n) := by
  intro x
  rw [Matcher.andThen, List.pairwise_flatMap]
  constructor
  · intro a ha
    rw [List.pairwise_map]
    refine (h' a.1).imp_of_mem fun {b _} hb _ hne heq => hne ?_
    exact heq.trans (Means.eq_of_eq hm hn ha hb heq).symm
  · refine (h x).imp_of_mem fun {a _} ha _ hne c hc d _ heq => hne ?_
    obtain ⟨b, hb, rfl⟩ := List.mem_map.mp hc
    exact Means.eq_of_eq hm hn ha hb heq

theorem StopsLast.orElse (h : ∀ x, ∀ c ∈ m x, c.1 ≠ x) (h' : StopsLast n) :
    StopsLast (m.orElse n) := by
  intro x
  refine List.pairwise_append.mpr ⟨?_, h' x, fun c hc _ _ => h x c hc⟩
  exact List.pairwise_of_forall_mem_list fun c hc _ _ => h x c hc

theorem StopsLast.times (h : StopsLast p.ways) (k : Nat) : StopsLast (p.ways.times k) := by
  induction k with
  | zero => exact .skip
  | succ k ih => exact h.andThen ih (means_ways p) (.times (means_ways p) k)

/-- What cannot be matched by nothing takes a token on each of its ways. -/
theorem ne_of_not_matches_nil (h : ¬ p.Matches []) : ∀ x, ∀ c ∈ p.ways x, c.1 ≠ x := by
  intro x c hc hstop
  obtain ⟨ts, -, hposition, hd⟩ := means_ways p x c hc
  rw [hstop] at hposition
  obtain rfl : ts = [] := List.eq_nil_of_length_eq_zero (by omega)
  exact h (hd.move 0)

theorem StopsLast.upTo (h : ¬ p.Matches []) (k : Nat) : StopsLast (p.ways.upTo k) := by
  cases k with
  | zero => exact .skip
  | succ k =>
    refine .orElse (fun x c hc heq => ?_) .skip
    obtain ⟨a, ha, b, hb, rfl⟩ := Matcher.mem_andThen.mp hc
    exact ne_of_not_matches_nil h x a ha
      (Means.eq_of_eq (means_ways p) (.upTo (means_ways p) k) ha hb heq)

/-- Each round of a loop takes a token, so nothing is taken only by the way without rounds. -/
theorem StopsLast.more : StopsLast (p.ways.more Matcher.skip) := by
  intro x
  rw [Matcher.more, List.pairwise_append]
  -- a round that takes a token does not end where it began
  have hne : ∀ c ∈ (p.ways x).flatMap fun c => if c.1.rest.length < x.rest.length then
      (p.ways.more Matcher.skip c.1).map fun d => (d.1, c.2 ++ d.2) else [], c.1 ≠ x := by
    intro c hc heq
    obtain ⟨a, ha, hc⟩ := List.mem_flatMap.mp hc
    split at hc
    case isFalse => cases hc
    case isTrue hlt =>
      obtain ⟨b, hb, rfl⟩ := List.mem_map.mp hc
      have := Means.eq_of_eq (means_ways p) (.more (means_ways p)) ha hb heq
      rw [this] at hlt
      exact Nat.lt_irrefl _ hlt
  exact ⟨List.pairwise_of_forall_mem_list fun c hc _ _ => hne c hc, List.pairwise_singleton _ _,
    fun c hc _ _ => hne c hc⟩

end

/-- A pattern that cannot be matched by nothing is eager, having no way that takes nothing. -/
theorem Eager.of_not_matches_nil (h : ¬ p.Matches []) : p.Eager := fun x =>
  List.pairwise_of_forall_mem_list fun c hc _ _ heq => absurd heq (ne_of_not_matches_nil h x c hc)

/-- Alternatives that can be matched by nothing stand behind all the others, and no item that can be
matched by nothing may be left out. A loop may have such items, as it rejects rounds that take
nothing. -/
inductive Settled : Pattern → Prop
  | empty : Settled .empty
  | token (accepted : TokenClass) : Settled (.token accepted)
  | sequence (ps : List Pattern) : (∀ p ∈ ps, Settled p) → Settled (.sequence ps)
  | choiceOne (p : Pattern) : Settled p → Settled (.choice [p])
  | choiceCons (p : Pattern) (ps : List Pattern) : ¬ p.Matches [] → Settled p →
      Settled (.choice ps) → Settled (.choice (p :: ps))
  | loop (p : Pattern) (least : Nat) : Settled p → Settled (.repeated p least none)
  | upTo (p : Pattern) (least most : Nat) : ¬ p.Matches [] → Settled p →
      Settled (.repeated p least (some most))
  | labeled (l : Label) (p : Pattern) : Settled p → Settled (.labeled l p)

theorem Settled.stopsLast (h : p.Settled) : StopsLast p.ways := by
  induction h with
  | empty => exact .skip
  | token accepted =>
    intro x
    rw [ways, Matcher.take]
    split
    · exact .nil
    · split
      · exact List.pairwise_singleton _ _
      · exact .nil
  | sequence ps hps ih =>
    rw [ways]
    -- the induction over the parts is to know nothing about the whole
    clear hps
    induction ps with
    | nil => exact .skip
    | cons p ps ihs =>
      have others := ihs fun q hq => ih q (List.mem_cons_of_mem _ hq)
      exact (ih p List.mem_cons_self).andThen others (means_ways p) (means_ways (.sequence ps))
  | choiceOne p _ ih =>
    rwa [ways, choiceWays, choiceWays, Matcher.orElse_fail]
  | choiceCons p ps hp _ _ _ ihs =>
    rw [ways] at ihs ⊢
    exact .orElse (ne_of_not_matches_nil hp) ihs
  | loop p least _ ih =>
    rw [ways]
    exact (ih.times least).andThen .more (.times (means_ways p) least) (.more (means_ways p))
  | upTo p least most hp _ ih =>
    rw [ways]
    exact (ih.times least).andThen (.upTo hp _) (.times (means_ways p) least)
      (.upTo (means_ways p) _)
  | labeled l p _ ih =>
    intro x
    rw [ways, Matcher.noting, List.pairwise_map]
    exact ih x

theorem Settled.eager (h : p.Settled) : p.Eager := h.stopsLast.eager

/-- Items of loops in a settled pattern are settled. -/
theorem Settled.of_hasLoop (h : p.Settled) (hq : p.HasLoop q) : q.Settled := by
  induction h with
  | empty | token => cases hq
  | sequence ps _ ih =>
    cases hq with
    | sequence hp hq => exact ih _ hp hq
  | choiceOne p _ ih =>
    cases hq with
    | choice hp hq => exact ih (List.mem_singleton.mp hp ▸ hq)
  | choiceCons p ps _ _ _ ih ihs =>
    cases hq with
    | choice hp hq =>
      rcases List.mem_cons.mp hp with rfl | hp
      · exact ih hq
      · exact ihs (.choice hp hq)
  | loop p least h ih =>
    cases hq with
    | here => exact h
    | repeated hq => exact ih hq
  | upTo p least most _ _ ih =>
    cases hq with
    | repeated hq => exact ih hq
  | labeled l p _ ih =>
    cases hq with
    | labeled hq => exact ih hq

end Pattern

end ContentGrammar
