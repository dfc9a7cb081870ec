import Mathlib.Data.List.Basic
import ContentGrammar.Proofs.Pattern.Derivation

/-!
# Greedy backtracking

What a pattern means to a matcher that backtracks, with no program in sight. A `Matcher` lists all
ways to go on from a point, the preferred ones first:

* one matcher after another backtracks into the first one as soon as the second one has no way
  left (`Matcher.andThen`), and alternatives are tried in order (`Matcher.orElse`);
* further rounds come before stopping, in `Matcher.upTo` and in `Matcher.more`; a round of `more`
  that takes no token is rejected;
* `Pattern.ways` puts the matcher of a pattern together, and `Pattern.greedy` is the first of its
  ways that takes the whole row.
-/

namespace ContentGrammar

/-- A position in a row of tokens, and the tokens from there on. -/
structure Point where
  position : Nat
  rest : List Token

/-- The ways to match from a point on, in order of preference: where each one ends, and what it
records on the way, the earliest entry first. -/
abbrev Matcher (β : Type) := Point → List (Point × List β)

namespace Matcher

variable {β : Type}

/-- Takes nothing. -/
def skip : Matcher β := fun x => [(x, [])]

/-- Has no way. -/
def fail : Matcher β := fun _ => []

/-- Takes a token of a class. -/
def take (accepted : TokenClass) : Matcher β := fun x =>
  match x.rest with
  | [] => []
  | t :: ts => if accepted.accepts t then [(⟨x.position + 1, ts⟩, [])] else []

/-- One matcher and then another one. -/
def andThen (m n : Matcher β) : Matcher β := fun x =>
  (m x).flatMap fun c => (n c.1).map fun d => (d.1, c.2 ++ d.2)

/-- The ways of one matcher, and behind them those of another one. -/
def orElse (m n : Matcher β) : Matcher β := fun x => m x ++ n x

/-- Makes an entry at the end of each way, about where it began and where it ends. -/
def noting (note : Point → Point → β) (m : Matcher β) : Matcher β := fun x =>
  (m x).map fun c => (c.1, c.2 ++ [note x c.1])

/-- A number of rounds. -/
def times (m : Matcher β) : Nat → Matcher β
  | 0 => skip
  | k + 1 => m.andThen (m.times k)

/-- At most a number of rounds, as many as possible. -/
def upTo (m : Matcher β) : Nat → Matcher β
  | 0 => skip
  | k + 1 => (m.andThen (m.upTo k)).orElse skip

/-- Any number of rounds, as many as possible, and then `leave`. A round that takes no token is
rejected. -/
def more (m leave : Matcher β) (x : Point) : List (Point × List β) :=
  ((m x).flatMap fun c =>
    if c.1.rest.length < x.rest.length then
      (more m leave c.1).map fun d => (d.1, c.2 ++ d.2)
    else []) ++ leave x
termination_by x.rest.length

end Matcher

namespace Pattern

open Matcher

mutual

/-- All ways to match a pattern from a point on, with the regions that each one leaves. -/
def ways : Pattern → Matcher Span
  | .empty => skip
  | .token accepted => take accepted
  | .sequence ps => sequenceWays ps
  | .choice ps => choiceWays ps
  | .repeated p least most =>
    (p.ways.times least).andThen
      (match most with
        | none => p.ways.more skip
        | some most => p.ways.upTo (most - least))
  | .labeled l p => p.ways.noting fun x y => ⟨l, x.position, y.position⟩

/-- All ways to match patterns in sequence. -/
def sequenceWays : List Pattern → Matcher Span
  | [] => skip
  | p :: ps => p.ways.andThen (sequenceWays ps)

/-- All ways to match one of several patterns, those of the earlier patterns first. -/
def choiceWays : List Pattern → Matcher Span
  | [] => fail
  | p :: ps => p.ways.orElse (choiceWays ps)

end

/-- Matches all of a row of tokens by greedy backtracking: the regions of the first way that takes
the whole row. -/
def greedy (p : Pattern) (tokens : List Token) : Option (List Span) :=
  ((p.ways ⟨0, tokens⟩).find? fun c => c.1.rest.isEmpty).map (·.2)

/-- `HasLoop p q`: somewhere in `p` the pattern `q` may be repeated without an upper bound. -/
inductive HasLoop : Pattern → Pattern → Prop
  | here {q least} : HasLoop (.repeated q least none) q
  | labeled {l p q} : HasLoop p q → HasLoop (.labeled l p) q
  | sequence {p ps q} : p ∈ ps → HasLoop p q → HasLoop (.sequence ps) q
  | choice {p ps q} : p ∈ ps → HasLoop p q → HasLoop (.choice ps) q
  | repeated {p least most q} : HasLoop p q → HasLoop (.repeated p least most) q

/-- A pattern prefers to take tokens: its ways that take nothing come behind all the others. -/
def Eager (p : Pattern) : Prop :=
  ∀ x, (p.ways x).Pairwise fun c d => c.1 = x → d.1 = x

end Pattern

namespace Point

/-- Matching leads from one point to another one. -/
def Reaches (x y : Point) : Prop :=
  ∃ ts, x.rest = ts ++ y.rest ∧ y.position = x.position + ts.length

variable {x y z : Point}

theorem Reaches.refl (x : Point) : x.Reaches x := ⟨[], rfl, rfl⟩

/-- Tokens are taken one row after the other. -/
theorem Reaches.trans (h : x.Reaches y) (h' : y.Reaches z) : x.Reaches z := by
  obtain ⟨ts, hrest, hposition⟩ := h
  obtain ⟨us, hrest', hposition'⟩ := h'
  refine ⟨ts ++ us, by rw [hrest, hrest', List.append_assoc], ?_⟩
  rw [hposition', hposition, List.length_append, Nat.add_assoc]

theorem Reaches.position_le (h : x.Reaches y) : x.position ≤ y.position := by
  obtain ⟨ts, -, hposition⟩ := h
  omega

/-- Matching leads from a point to no other one at the same position. -/
theorem Reaches.eq_of_position_le (h : x.Reaches y) (hle : y.position ≤ x.position) : y = x := by
  obtain ⟨ts, hrest, hposition⟩ := h
  obtain rfl : ts = [] := List.eq_nil_of_length_eq_zero (by omega)
  obtain ⟨i, us⟩ := x
  obtain ⟨j, vs⟩ := y
  simp_all

/-- Matching takes tokens just when it leads to a later position. -/
theorem Reaches.length_lt_iff (h : x.Reaches y) :
    y.rest.length < x.rest.length ↔ x.position < y.position := by
  obtain ⟨ts, hrest, hposition⟩ := h
  rw [hrest, List.length_append, hposition]
  omega

end Point

namespace Matcher

variable {β : Type} {m n leave : Matcher β} {x : Point} {c : Point × List β}

@[simp] theorem skip_andThen : skip.andThen m = m := by
  funext x
  simp [andThen, skip]

@[simp] theorem andThen_skip : m.andThen skip = m := by
  funext x
  simp [andThen, skip]

@[simp] theorem orElse_fail : m.orElse fail = m := by
  funext x
  simp [orElse, fail]

/-- A token is taken if it is the next one and accepted. -/
theorem mem_take {accepted : TokenClass} : c ∈ take accepted x ↔
    ∃ t ts, accepted.accepts t = true ∧ x.rest = t :: ts ∧ c = (⟨x.position + 1, ts⟩, []) := by
  obtain ⟨i, rest⟩ := x
  cases rest with
  | nil => simp [take]
  | cons t ts =>
    by_cases ht : accepted.accepts t = true
    · simp [take, ht]
    · simp [take, ht]

/-- A way of two matchers in a row is a way of the first with one of the second from where that
ends. -/
theorem mem_andThen : c ∈ m.andThen n x ↔
    ∃ a ∈ m x, ∃ b ∈ n a.1, c = (b.1, a.2 ++ b.2) := by
  simp only [andThen, List.mem_flatMap, List.mem_map, eq_comm]

theorem mem_orElse : c ∈ m.orElse n x ↔ c ∈ m x ∨ c ∈ n x := List.mem_append

theorem mem_noting {note : Point → Point → β} : c ∈ m.noting note x ↔
    ∃ a ∈ m x, c = (a.1, a.2 ++ [note x a.1]) := by
  simp only [noting, List.mem_map, eq_comm]

/-- A way around is one round that takes something with a way around behind it, or leaves. -/
theorem mem_more : c ∈ m.more leave x ↔
    (∃ a ∈ m x, a.1.rest.length < x.rest.length ∧
      ∃ b ∈ m.more leave a.1, c = (b.1, a.2 ++ b.2)) ∨ c ∈ leave x := by
  rw [more, List.mem_append, List.mem_flatMap]
  refine or_congr_left (exists_congr fun a => and_congr_right fun _ => ?_)
  split
  case isTrue h => simp only [List.mem_map, eq_comm, h, true_and]
  case isFalse h => simp only [List.not_mem_nil, h, false_and]

/-- Induction along the rounds of a way. -/
theorem more_induct {motive : ∀ x c, c ∈ m.more leave x → Prop}
    (stop : ∀ x c h, motive x c (mem_more.mpr (.inr h)))
    (round : ∀ x a b ha hlt hb, motive a.1 b hb →
      motive x (b.1, a.2 ++ b.2) (mem_more.mpr (.inl ⟨a, ha, hlt, b, hb, rfl⟩)))
    (x : Point) (c : Point × List β) (h : c ∈ m.more leave x) : motive x c h := by
  induction hn : x.rest.length using Nat.strongRecOn generalizing x c with
  | ind n ih =>
    subst hn
    rcases mem_more.mp h with ⟨a, ha, hlt, b, hb, rfl⟩ | hc
    · exact round x a b ha hlt hb (ih _ hlt a.1 b hb rfl)
    · exact stop x c hc

end Matcher

end ContentGrammar
