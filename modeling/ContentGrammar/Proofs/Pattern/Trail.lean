import Mathlib.Data.List.Lex
import Mathlib.Data.List.Pairwise
import ContentGrammar.Proofs.Pattern.Greedy
import ContentGrammar.Proofs.Pattern.Preference

/-!
# Trails

A matcher can record where its ways run in a program: a `Trail` has the spots that a way visits and
the numbers of the successors that it takes there, next to the regions that it leaves. Where the
spots are does not change what is matched, but it says which ways a lockstep run can take: those
that visit no spot twice.

Matchers with trails are put together from visits of single addresses (`visit`), as code is:
`branch`, `round` and `loop`. They are `Tidy`: ways only lead on, visit addresses from `lo` on and
below `hi`, and are listed in the order in which `Before` compares them.
-/

namespace ContentGrammar

namespace Lockstep

/-- What a way through a program records. -/
inductive Event
  | region (s : Span)
  /-- A spot that is visited, and the number of the successor that is taken there. -/
  | visit (s : Spot) (fork : Nat)

/-- What a way through a program has recorded, the earliest event first. -/
abbrev Trail := List Event

namespace Trail

/-- The regions that are left on the way. -/
def regions (t : Trail) : List Span :=
  t.filterMap fun
    | .region s => some s
    | .visit _ _ => none

/-- The spots that are visited on the way. -/
def visited (t : Trail) : List Spot :=
  t.filterMap fun
    | .region _ => none
    | .visit s _ => some s

/-- The numbers of the successors that are taken on the way. -/
def forks (t : Trail) : List Nat :=
  t.filterMap fun
    | .region _ => none
    | .visit _ n => some n

variable (t u : Trail) (r : Span) (s : Spot) (n : Nat)

@[simp] theorem regions_nil : regions [] = [] := rfl
@[simp] theorem regions_region : regions (.region r :: t) = r :: t.regions := rfl
@[simp] theorem regions_visit : regions (.visit s n :: t) = t.regions := rfl
@[simp] theorem regions_append : regions (t ++ u) = t.regions ++ u.regions :=
  List.filterMap_append

@[simp] theorem visited_nil : visited [] = [] := rfl
@[simp] theorem visited_region : visited (.region r :: t) = t.visited := rfl
@[simp] theorem visited_visit : visited (.visit s n :: t) = s :: t.visited := rfl
@[simp] theorem visited_append : visited (t ++ u) = t.visited ++ u.visited :=
  List.filterMap_append

@[simp] theorem forks_nil : forks [] = [] := rfl
@[simp] theorem forks_region : forks (.region r :: t) = t.forks := rfl
@[simp] theorem forks_visit : forks (.visit s n :: t) = n :: t.forks := rfl
@[simp] theorem forks_append : forks (t ++ u) = t.forks ++ u.forks := List.filterMap_append

end Trail

open Trail

/-! ## Order of preference -/

/-- Whatever goes on with the first forks comes before whatever goes on with the second ones. -/
def Ahead (fs gs : List Nat) : Prop := ∀ us vs, Before (fs ++ us) (gs ++ vs)

variable {fs gs hs us vs : List Nat} {m n : Nat}

/-- Forks that are shared do not matter for the order. -/
theorem before_append_left : Before (hs ++ fs) (hs ++ gs) ↔ Before fs gs := by
  induction hs with
  | nil => rfl
  | cons n hs ih =>
    rw [List.cons_append, List.cons_append, Before, List.cons_lex_cons_iff]
    simpa using ih

/-- An earlier successor is ahead whatever follows. -/
theorem Ahead.of_lt (h : m < n) : Ahead (m :: fs) (n :: gs) := fun _ _ => .rel h

/-- What is ahead stays so however both go on. -/
theorem Ahead.append (h : Ahead fs gs) : Ahead (fs ++ us) (gs ++ vs) := by
  intro us' vs'
  rw [List.append_assoc, List.append_assoc]
  exact h _ _

@[simp] theorem ahead_append_left : Ahead (hs ++ fs) (hs ++ gs) ↔ Ahead fs gs := by
  simp only [Ahead, List.append_assoc, before_append_left]

@[simp] theorem ahead_cons : Ahead (n :: fs) (n :: gs) ↔ Ahead fs gs := by
  show Ahead ([n] ++ fs) ([n] ++ gs) ↔ _
  exact ahead_append_left

theorem Ahead.before (h : Ahead fs gs) : Before fs gs := by
  simpa using h [] []

/-! ## Matchers that leave trails -/

/-- Visits the address and goes on by its successor of the number. -/
def visit (pc n : Nat) : Matcher Event := fun x => [(x, [.visit (pc, x.position) n])]

/-- Goes on by the first successor of an address and one matcher or, with less preference, by the
second successor and another matcher. -/
def branch (pc : Nat) (m n : Matcher Event) : Matcher Event :=
  ((visit pc 0).andThen m).orElse ((visit pc 1).andThen n)

/-- A round of a loop, between its branch and the jump back to it. -/
def round (base back : Nat) (m : Matcher Event) : Matcher Event :=
  (visit base 0).andThen (m.andThen (visit back 0))

/-- Rounds of a loop and then the second successor of its branch. -/
def loop (base back : Nat) (m : Matcher Event) : Matcher Event :=
  (round base back m).more (visit base 1)

/-- Each spot is at an address from `lo` on and below `hi`, and at a position from one point to
another one. -/
def Within (lo hi : Nat) (x y : Point) (t : Trail) : Prop :=
  ∀ s ∈ visited t, lo ≤ s.1 ∧ s.1 < hi ∧ x.position ≤ s.2 ∧ s.2 ≤ y.position

/-- Each way comes before those behind it. -/
def InOrder (cs : List (Point × Trail)) : Prop :=
  cs.Pairwise fun c d => Ahead (forks c.2) (forks d.2)

/-- Ways only lead on, through addresses from `lo` on and below `hi`, and are in order. -/
structure Tidy (lo hi : Nat) (m : Matcher Event) : Prop where
  reaches : ∀ x, ∀ c ∈ m x, x.Reaches c.1
  within : ∀ x, ∀ c ∈ m x, Within lo hi x c.1 c.2
  ordered : ∀ x, InOrder (m x)

variable {lo mid hi lo' hi' pc base back : Nat} {m n : Matcher Event} {x y z : Point}
  {c d : Point × Trail} {t u : Trail} {cs : List (Point × Trail)}

theorem mem_visit {k : Nat} : c ∈ visit pc k x ↔ c = (x, [.visit (pc, x.position) k]) :=
  List.mem_singleton

theorem mem_visit_andThen {k : Nat} : c ∈ (visit pc k).andThen m x ↔
    ∃ a ∈ m x, c = (a.1, .visit (pc, x.position) k :: a.2) := by
  simp [Matcher.mem_andThen, mem_visit]

theorem round_eq : round base back m x = (m x).map fun a =>
    (a.1, .visit (base, x.position) 0 :: a.2 ++ [.visit (back, a.1.position) 0]) := by
  simp [round, Matcher.andThen, visit, List.map_eq_flatMap, List.flatMap_assoc]

/-! ## Tidy matchers -/

/-- Trails one behind the other stay within the same bounds. -/
theorem Within.append (h : Within lo hi x y t) (h' : Within lo hi y z u) (hxy : x.Reaches y)
    (hyz : y.Reaches z) : Within lo hi x z (t ++ u) := by
  intro s hs
  have first := hxy.position_le
  have second := hyz.position_le
  rcases List.mem_append.mp (visited_append t u ▸ hs) with hs | hs
  · have := h s hs
    omega
  · have := h' s hs
    omega

theorem InOrder.map_append (h : InOrder cs) (t : Trail) :
    InOrder (cs.map fun d => (d.1, t ++ d.2)) := by
  rw [InOrder, List.pairwise_map]
  simpa [InOrder] using h

/-- Going on with each of several ways keeps the order in which they are. -/
theorem InOrder.flatMap {f : Point × Trail → List (Point × Trail)} (h : InOrder cs)
    (hf : ∀ a ∈ cs, InOrder (f a)) (hon : ∀ a, ∀ c ∈ f a, ∃ us, forks c.2 = forks a.2 ++ us) :
    InOrder (cs.flatMap f) := by
  refine List.pairwise_flatMap.mpr ⟨hf, h.imp fun {a b} hab c hc d hd => ?_⟩
  obtain ⟨us, hus⟩ := hon a c hc
  obtain ⟨vs, hvs⟩ := hon b d hd
  rw [hus, hvs]
  exact hab.append

/-- A tidy matcher is tidy for wider bounds too. -/
theorem Tidy.mono (h : Tidy lo hi m) (hlo : lo' ≤ lo) (hhi : hi ≤ hi') : Tidy lo' hi' m := by
  refine ⟨h.reaches, fun x c hc s hs => ?_, h.ordered⟩
  have := h.within x c hc s hs
  omega

theorem Tidy.skip : Tidy lo hi Matcher.skip := by
  refine ⟨fun x c hc => ?_, fun x c hc s hs => ?_, fun x => List.pairwise_singleton _ _⟩
  · obtain rfl := List.mem_singleton.mp hc
    exact .refl x
  · obtain rfl := List.mem_singleton.mp hc
    cases hs

theorem Tidy.fail : Tidy lo hi Matcher.fail := by
  refine ⟨fun x c hc => ?_, fun x c hc => ?_, fun x => .nil⟩ <;> cases hc

theorem Tidy.visit (k : Nat) (hlo : lo ≤ pc) (hhi : pc < hi) : Tidy lo hi (visit pc k) := by
  refine ⟨fun x c hc => ?_, fun x c hc s hs => ?_, fun x => List.pairwise_singleton _ _⟩
  · obtain rfl := mem_visit.mp hc
    exact .refl x
  · obtain rfl := mem_visit.mp hc
    obtain rfl := List.mem_singleton.mp hs
    exact ⟨hlo, hhi, Nat.le_refl _, Nat.le_refl _⟩

theorem Tidy.visit_self (pc k : Nat) : Tidy pc (pc + 1) (Lockstep.visit pc k) :=
  .visit k (Nat.le_refl pc) (Nat.lt_succ_self pc)

theorem Tidy.take (accepted : TokenClass) : Tidy lo hi (Matcher.take accepted) := by
  refine ⟨fun x c hc => ?_, fun x c hc s hs => ?_, fun x => ?_⟩
  · obtain ⟨t, ts, -, hrest, rfl⟩ := Matcher.mem_take.mp hc
    exact ⟨[t], hrest, rfl⟩
  · obtain ⟨t, ts, -, -, rfl⟩ := Matcher.mem_take.mp hc
    cases hs
  · unfold Matcher.take
    split
    · exact .nil
    · split
      · exact List.pairwise_singleton _ _
      · exact .nil

theorem Tidy.noting (h : Tidy lo hi m) (note : Point → Point → Span) :
    Tidy lo hi (m.noting fun x y => .region (note x y)) := by
  refine ⟨fun x c hc => ?_, fun x c hc s hs => ?_, fun x => ?_⟩
  · obtain ⟨a, ha, rfl⟩ := Matcher.mem_noting.mp hc
    exact h.reaches x a ha
  · obtain ⟨a, ha, rfl⟩ := Matcher.mem_noting.mp hc
    exact h.within x a ha s (by simpa using hs)
  · rw [Matcher.noting, InOrder, List.pairwise_map]
    simpa [InOrder] using h.ordered x

/-- Two matchers in a row are tidy: of two ways the first parts decide, or else the second ones. -/
theorem Tidy.andThen (h : Tidy lo hi m) (h' : Tidy lo hi n) : Tidy lo hi (m.andThen n) := by
  refine ⟨fun x c hc => ?_, fun x c hc => ?_, fun x => ?_⟩
  · obtain ⟨a, ha, b, hb, rfl⟩ := Matcher.mem_andThen.mp hc
    exact (h.reaches x a ha).trans (h'.reaches a.1 b hb)
  · obtain ⟨a, ha, b, hb, rfl⟩ := Matcher.mem_andThen.mp hc
    exact (h.within x a ha).append (h'.within a.1 b hb) (h.reaches x a ha) (h'.reaches a.1 b hb)
  · refine (h.ordered x).flatMap (fun a _ => (h'.ordered a.1).map_append a.2) fun a c hc => ?_
    obtain ⟨b, -, rfl⟩ := List.mem_map.mp hc
    exact ⟨forks b.2, forks_append _ _⟩

/-- Alternatives are tidy if all ways of the first are ahead of all ways of the second. -/
theorem Tidy.orElse (h : Tidy lo hi m) (h' : Tidy lo hi n)
    (hahead : ∀ x, ∀ c ∈ m x, ∀ d ∈ n x, Ahead (forks c.2) (forks d.2)) :
    Tidy lo hi (m.orElse n) := by
  refine ⟨fun x c hc => ?_, fun x c hc s hs => ?_, fun x => ?_⟩
  · rcases Matcher.mem_orElse.mp hc with hc | hc
    · exact h.reaches x c hc
    · exact h'.reaches x c hc
  · rcases Matcher.mem_orElse.mp hc with hc | hc
    · exact h.within x c hc s hs
    · exact h'.within x c hc s hs
  · exact List.pairwise_append.mpr ⟨h.ordered x, h'.ordered x, hahead x⟩

/-- The forks of ways by different successors of an address. -/
theorem ahead_of_visit (hc : c ∈ (visit pc 0).andThen m x)
    (hd : d ∈ (visit pc 1).andThen n y) : Ahead (forks c.2) (forks d.2) := by
  obtain ⟨a, ha, b, -, rfl⟩ := Matcher.mem_andThen.mp hc
  obtain ⟨a', ha', b', -, rfl⟩ := Matcher.mem_andThen.mp hd
  obtain rfl := mem_visit.mp ha
  obtain rfl := mem_visit.mp ha'
  exact .of_lt Nat.zero_lt_one

/-- A split between two pieces of code that stand one behind the other is tidy. -/
theorem Tidy.branch (h : Tidy (pc + 1) mid m) (h' : Tidy mid hi n) (hmid : pc + 1 ≤ mid)
    (hhi : mid ≤ hi) : Tidy pc hi (branch pc m n) := by
  have visits : ∀ k, Tidy pc hi (Lockstep.visit pc k) :=
    fun k => (Tidy.visit_self pc k).mono (Nat.le_refl pc) (Nat.le_trans hmid hhi)
  have first := h.mono (Nat.le_succ pc) hhi
  have second := h'.mono (Nat.le_of_succ_le hmid) (Nat.le_refl hi)
  exact ((visits 0).andThen first).orElse ((visits 1).andThen second)
    fun _ _ hc _ hd => ahead_of_visit hc hd

/-- Rounds of a matcher are tidy if going on is ahead of leaving. -/
theorem Tidy.more (h : Tidy lo hi m) (h' : Tidy lo hi n)
    (hahead : ∀ x, ∀ c ∈ m x, ∀ d ∈ n x, Ahead (forks c.2) (forks d.2)) :
    Tidy lo hi (m.more n) := by
  -- each round reaches what it leads to, and so do all together
  have hreaches : ∀ x, ∀ c ∈ m.more n x, x.Reaches c.1 := by
    intro x c hc
    induction x, c, hc using Matcher.more_induct with
    | stop x c hc => exact h'.reaches x c hc
    | round x a b ha hlt hb ih => exact (h.reaches x a ha).trans ih
  refine ⟨hreaches, fun x c hc => ?_, fun x => ?_⟩
  · induction x, c, hc using Matcher.more_induct with
    | stop x c hc => exact h'.within x c hc
    | round x a b ha hlt hb ih =>
      exact (h.within x a ha).append ih (h.reaches x a ha) (hreaches a.1 b hb)
  -- behind the first round there are fewer tokens left
  · induction hl : x.rest.length using Nat.strongRecOn generalizing x with
    | ind l ih =>
      subst hl
      rw [Matcher.more]
      refine List.pairwise_append.mpr ⟨(h.ordered x).flatMap (fun a ha => ?_) fun a c hc => ?_,
        h'.ordered x, fun c hc d hd => ?_⟩
      · split
        case isTrue hlt => exact (ih _ hlt a.1 rfl).map_append a.2
        case isFalse => exact .nil
      · split at hc
        case isTrue =>
          obtain ⟨b, -, rfl⟩ := List.mem_map.mp hc
          exact ⟨forks b.2, forks_append _ _⟩
        case isFalse => cases hc
      · obtain ⟨a, ha, hc⟩ := List.mem_flatMap.mp hc
        split at hc
        case isFalse => cases hc
        obtain ⟨b, -, rfl⟩ := List.mem_map.mp hc
        rw [forks_append, ← List.append_nil (forks d.2)]
        exact (hahead x a ha d hd).append

/-- Another round is ahead of leaving the loop. -/
theorem ahead_of_round (hc : c ∈ round base back m x) (hd : d ∈ visit base 1 x) :
    Ahead (forks c.2) (forks d.2) := by
  obtain ⟨a, ha, b, -, rfl⟩ := Matcher.mem_andThen.mp hc
  obtain rfl := mem_visit.mp ha
  obtain rfl := mem_visit.mp hd
  exact .of_lt Nat.zero_lt_one

theorem Tidy.andThen_visit (h : Tidy lo back m) (hlo : lo ≤ back) (k : Nat) :
    Tidy lo (back + 1) (m.andThen (Lockstep.visit back k)) :=
  (h.mono (Nat.le_refl lo) (Nat.le_succ back)).andThen (.visit k hlo (Nat.lt_succ_self back))

theorem Tidy.round (h : Tidy (base + 1) back m) (hback : base < back) :
    Tidy base (back + 1) (round base back m) := by
  have inside := (h.andThen_visit hback 0).mono (Nat.le_succ base) (Nat.le_refl (back + 1))
  exact (Tidy.visit 0 (Nat.le_refl base) (Nat.lt_succ_of_lt hback)).andThen inside

/-- The loop of a tidy matcher is tidy. -/
theorem Tidy.loop (h : Tidy (base + 1) back m) (hback : base < back) :
    Tidy base (back + 1) (loop base back m) :=
  (h.round hback).more (.visit 1 (Nat.le_refl base) (Nat.lt_succ_of_lt hback))
    fun _ _ hc _ hd => ahead_of_round hc hd

end Lockstep

end ContentGrammar
