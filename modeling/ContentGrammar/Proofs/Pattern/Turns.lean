import Mathlib.Logic.Function.Iterate
import ContentGrammar.Proofs.Pattern.Refinement

/-!
# Runs turn by turn

A program may go in circles without consuming a token: an item that takes nothing can be repeated
without end. A run ends all the same, since it does not go into an instruction twice at one
position. Here a run is taken apart into the turns of its loops:

* `Moment` — a run between two turns, with a record of the spots that it has gone into;
* `turn`, `step` — one turn of the loop that follows threads, and of whichever loop is to go on;
* `Orderly` — what every turn keeps (`Orderly.step`): the stamps are used so that the marks tell
  which instructions have been gone into at the position;
* `swept`, `outcome` — what `follow` and `consume` make of a moment at its position, and `advance`
  over the tokens ahead; no turn changes what a run comes to (`outcome_step`);
* `potential` — a bound on the turns that are left (`potential_step_lt`): each instruction pays for
  the two threads that it may put in front, and each position for the instructions;
* `run_frugal` — put together: what a run does not do twice, and within how many turns it is over.
-/

namespace ContentGrammar

namespace Lockstep

/-- A run between two turns of its loops. -/
structure Moment where
  /-- The tokens that have been consumed, the latest first. -/
  consumed : List Token
  /-- The tokens that have not been consumed. -/
  ahead : List Token
  stamp : Nat
  marks : Array Nat
  /-- The threads that are to be followed, the next one first. -/
  pending : List Located
  /-- The threads that have waited for the latest token and have not been offered it yet. -/
  offered : List Located
  /-- The threads that wait, the latest first. -/
  waiting : List Located
  /-- The spots whose instruction has been gone into, the latest first. -/
  visited : List Spot

namespace Moment

/-- The number of tokens in front. -/
def position (m : Moment) : Nat := m.consumed.length

/-- A run before its first turn. -/
def start (program : Program) (tokens : List Token) : Moment where
  consumed := []
  ahead := tokens
  stamp := 1
  marks := Array.replicate program.size 0
  pending := [(0, ⟨[], []⟩)]
  offered := []
  waiting := []
  visited := []

/-- The thread that is next is dropped. -/
def drop (m : Moment) (rest : List Located) : Moment := { m with pending := rest }

/-- The instruction at which the next thread is, is gone into. -/
def visit (program : Program) (m : Moment) (l : Located) (rest : List Located) : Moment :=
  { m with
    marks := m.marks.setIfInBounds l.1 m.stamp
    pending := onward program m.position l ++ rest
    waiting := if waits program l then l :: m.waiting else m.waiting
    visited := (l.1, m.position) :: m.visited }

/-- The latest token is offered to a thread, which is followed if it accepts it. -/
def offer (program : Program) (m : Moment) (l : Located) (rest : List Located) : Moment :=
  { m with
    pending := (m.consumed.head?.bind (consumed? program · l)).toList
    offered := rest }

/-- The run goes on to the next token. -/
def proceed (m : Moment) (t : Token) (ts : List Token) : Moment :=
  { m with
    consumed := t :: m.consumed
    ahead := ts
    stamp := m.stamp + 1
    offered := m.waiting.reverse
    waiting := [] }

/-- One turn of the loop that follows threads. -/
def turn (program : Program) (m : Moment) : Moment :=
  match m.pending with
  | [] => m
  | l :: rest => if Stale m.stamp m.marks l.1 then m.drop rest else m.visit program l rest

/-- One turn of a run: threads are followed until none is pending, then the latest token is offered
to those behind, and after the last of them the run goes on to the next token. -/
def step (program : Program) (m : Moment) : Moment :=
  match m.pending, m.offered, m.ahead with
  | _ :: _, _, _ => m.turn program
  | [], l :: rest, _ => m.offer program l rest
  | [], [], t :: ts => if m.waiting = [] then m else m.proceed t ts
  | [], [], [] => m

/-- A run after so many turns. -/
def after (program : Program) (tokens : List Token) (n : Nat) : Moment :=
  (step program)^[n] (start program tokens)

/-- No loop of the run goes on: all tokens have been consumed, or no thread waits for the next. -/
def IsOver (m : Moment) : Prop :=
  m.pending = [] ∧ m.offered = [] ∧ (m.ahead = [] ∨ m.waiting = [])

/-- The marks and the waiting threads with which a run leaves the position. -/
def swept (program : Program) (m : Moment) : Array Nat × List Located :=
  let followed := follow program m.position m.stamp m.marks m.waiting m.pending
  match m.consumed with
  | [] => followed
  | t :: ts => consume program ts.length t followed.1 followed.2 m.offered

/-- What a run comes to from a moment on. -/
def outcome (program : Program) (m : Moment) : Option (List Span) :=
  advance program m.position (m.swept program).1 (m.swept program).2.reverse m.ahead

end Moment

open Moment

variable {program : Program} {m : Moment} {l : Located} {rest : List Located} {t : Token}
  {ts tokens : List Token}

/-! ## What a turn does -/

theorem turn_nil (h : m.pending = []) : m.turn program = m := by
  unfold turn
  rw [h]

theorem turn_stale (h : m.pending = l :: rest) (hs : Stale m.stamp m.marks l.1) :
    m.turn program = m.drop rest := by
  unfold turn
  rw [h]
  exact if_pos hs

theorem turn_fresh (h : m.pending = l :: rest) (hs : ¬ Stale m.stamp m.marks l.1) :
    m.turn program = m.visit program l rest := by
  unfold turn
  rw [h]
  exact if_neg hs

/-- A thread that waits after an instruction has been gone into has come there, or waited before. -/
theorem mem_waiting_visit {k : Located} (h : k ∈ (m.visit program l rest).waiting) :
    k = l ∧ waits program l = true ∨ k ∈ m.waiting := by
  change k ∈ if waits program l then l :: m.waiting else m.waiting at h
  split at h
  · rename_i hw
    rcases List.mem_cons.mp h with rfl | h
    · exact Or.inl ⟨rfl, hw⟩
    · exact Or.inr h
  · exact Or.inr h

/-- Following threads leaves alone the tokens, the stamp and the threads that are offered one. -/
theorem turn_frame : (m.turn program).consumed = m.consumed ∧ (m.turn program).ahead = m.ahead ∧
    (m.turn program).stamp = m.stamp ∧ (m.turn program).offered = m.offered := by
  unfold turn
  split
  · exact ⟨rfl, rfl, rfl, rfl⟩
  · split
    · exact ⟨rfl, rfl, rfl, rfl⟩
    · exact ⟨rfl, rfl, rfl, rfl⟩

theorem position_turn : (m.turn program).position = m.position :=
  congrArg List.length turn_frame.1

theorem step_of_isOver (h : m.IsOver) : m.step program = m := by
  obtain ⟨hpending, hoffered, hlast⟩ := h
  unfold step
  rw [hpending, hoffered]
  cases hahead : m.ahead with
  | nil => rfl
  | cons t ts =>
    rw [hahead] at hlast
    exact if_pos (hlast.resolve_left (List.cons_ne_nil t ts))

/-- What one turn of a run makes of a moment, by the loop that is to go on. -/
theorem step_cases {motive : Moment → Prop} (ended : m.IsOver → motive m)
    (turn : m.pending ≠ [] → motive (m.turn program))
    (offer : ∀ l rest, m.pending = [] → m.offered = l :: rest → motive (m.offer program l rest))
    (proceed : ∀ t ts, m.pending = [] → m.offered = [] → m.ahead = t :: ts → m.waiting ≠ [] →
      motive (m.proceed t ts)) : motive (m.step program) := by
  unfold step
  split
  · rename_i l rest hpending
    apply turn
    rw [hpending]
    exact List.cons_ne_nil l rest
  · rename_i l rest hpending hoffered
    exact offer l rest hpending hoffered
  · rename_i t ts hpending hoffered hahead
    split
    · rename_i hwaiting
      exact ended ⟨hpending, hoffered, Or.inr hwaiting⟩
    · rename_i hwaiting
      exact proceed t ts hpending hoffered hahead hwaiting
  · rename_i hpending hoffered hahead
    exact ended ⟨hpending, hoffered, Or.inl hahead⟩

theorem after_succ (n : Nat) :
    after program tokens (n + 1) = (after program tokens n).step program :=
  Function.iterate_succ_apply' _ n _

/-! ## Following threads turn by turn -/

/-- One turn of following threads does not change what following them comes to. -/
theorem follow_turn : follow program m.position m.stamp (m.turn program).marks
    (m.turn program).waiting (m.turn program).pending =
      follow program m.position m.stamp m.marks m.waiting m.pending := by
  cases hp : m.pending with
  | nil => rw [turn_nil hp, hp]
  | cons l rest =>
    by_cases hs : Stale m.stamp m.marks l.1
    · rw [turn_stale hp hs, follow_stale hs]
      rfl
    · rw [turn_fresh hp hs, follow_fresh hs]
      rfl

/-- Several turns do not change what following all threads comes to. -/
theorem follow_iterate_turn (n : Nat) :
    follow program m.position m.stamp ((turn program)^[n] m).marks
      ((turn program)^[n] m).waiting ((turn program)^[n] m).pending =
        follow program m.position m.stamp m.marks m.waiting m.pending := by
  induction n generalizing m with
  | zero => rfl
  | succ n ih =>
    have hturn := @ih (m.turn program)
    rw [position_turn, turn_frame.2.2.1, follow_turn] at hturn
    exact hturn

/-! ## Stamps -/

section Stamps

variable {stamp pc : Nat} {marks : Array Nat}

theorem lt_size_of_not_stale (h : ¬ Stale stamp marks pc) : pc < marks.size := by
  apply Nat.lt_of_not_le
  intro hle
  exact h (stale_of_size_le hle)

/-- Giving the stamp of the position to an instruction keeps stamps below the next one. -/
theorem StampsBelow.setIfInBounds (h : StampsBelow (stamp + 1) marks) (pc : Nat) :
    StampsBelow (stamp + 1) (marks.setIfInBounds pc stamp) := by
  intro k mark hmark
  rw [Array.getElem?_setIfInBounds] at hmark
  split at hmark
  · split at hmark
    · obtain rfl := Option.some.inj hmark
      exact Nat.lt_succ_self _
    · cases hmark
  · exact h k mark hmark

/-- What bears a stamp once an instruction has been given it. -/
theorem stamped_setIfInBounds_iff (h : pc < marks.size) (k : Nat) :
    (marks.setIfInBounds pc stamp)[k]? = some stamp ↔ k = pc ∨ marks[k]? = some stamp := by
  by_cases hk : pc = k
  · subst hk
    rw [Array.getElem?_setIfInBounds, if_pos rfl, if_pos h]
    simp
  · rw [Array.getElem?_setIfInBounds_ne hk]
    simp [Ne.symm hk]

theorem unstamped_le_size (stamp : Nat) (marks : Array Nat) :
    unstamped stamp marks ≤ marks.size := by
  unfold unstamped
  rw [← Array.length_toList]
  exact List.countP_le_length

/-- An instruction that is gone into leaves fewer that can be. -/
theorem unstamped_setIfInBounds_lt (h : ¬ Stale stamp marks pc) :
    unstamped stamp (marks.setIfInBounds pc stamp) < unstamped stamp marks := by
  have hlt : pc < marks.size := lt_size_of_not_stale h
  have hne : marks[pc] ≠ stamp := fun heq => h ((stale_iff_of_lt hlt).mpr heq)
  rw [Array.setIfInBounds, dif_pos hlt]
  exact unstamped_set_lt hlt hne

end Stamps

/-! ## What every turn keeps -/

/-- A moment of a run that has kept to the rules: each position has a stamp of its own, later than
those of the positions in front, and what bears it has been gone into there. -/
structure Orderly (program : Program) (m : Moment) : Prop where
  stamp_eq : m.stamp = m.position + 1
  size_marks : m.marks.size = program.size
  stampsBelow : StampsBelow (m.stamp + 1) m.marks
  stamped_iff : ∀ pc, m.marks[pc]? = some m.stamp ↔ (pc, m.position) ∈ m.visited
  visited_nodup : m.visited.Nodup
  visited_le : ∀ s ∈ m.visited, s.2 ≤ m.position
  waiting_visited : ∀ l ∈ m.waiting, (l.1, m.position) ∈ m.visited
  waiting_nodup : (m.waiting.map Prod.fst).Nodup
  offered_nodup : (m.offered.map Prod.fst).Nodup
  waiting_waits : ∀ l ∈ m.waiting, waits program l = true
  offered_waits : ∀ l ∈ m.offered, waits program l = true

/-- At the start nothing has been gone into, and no mark is a stamp of a position. -/
theorem orderly_start (program : Program) (tokens : List Token) :
    Orderly program (Moment.start program tokens) where
  stamp_eq := rfl
  size_marks := Array.size_replicate
  stampsBelow := by
    intro pc mark h
    exact Nat.lt_succ_of_lt (stampsBelow_replicate pc mark h)
  stamped_iff := by
    intro pc
    constructor
    · intro h
      exact absurd (stampsBelow_replicate pc 1 h) (Nat.lt_irrefl 1)
    · intro h
      cases h
  visited_nodup := List.nodup_nil
  visited_le := List.forall_mem_nil _
  waiting_visited := List.forall_mem_nil _
  waiting_nodup := List.nodup_nil
  offered_nodup := List.nodup_nil
  waiting_waits := List.forall_mem_nil _
  offered_waits := List.forall_mem_nil _

namespace Orderly

/-- An instruction is stale if it has been gone into at this position, and only then. -/
theorem stale_iff (h : Orderly program m) {pc : Nat} (hpc : pc < program.size) :
    Stale m.stamp m.marks pc ↔ (pc, m.position) ∈ m.visited := by
  rw [← h.size_marks] at hpc
  rw [stale_iff_of_lt hpc, ← h.stamped_iff pc, Array.getElem?_eq_getElem hpc, Option.some.injEq]

theorem drop (h : Orderly program m) (rest : List Located) : Orderly program (m.drop rest) :=
  { h with }

/-- An instruction that is not stale has not been gone into at this position. -/
theorem not_mem_visited (h : Orderly program m) {pc : Nat} (hs : ¬ Stale m.stamp m.marks pc) :
    (pc, m.position) ∉ m.visited := by
  intro hmem
  apply hs
  exact (h.stale_iff (h.size_marks ▸ lt_size_of_not_stale hs)).mpr hmem

theorem visit (h : Orderly program m) (rest : List Located) (hs : ¬ Stale m.stamp m.marks l.1) :
    Orderly program (m.visit program l rest) where
  stamp_eq := h.stamp_eq
  size_marks := Array.size_setIfInBounds.trans h.size_marks
  stampsBelow := h.stampsBelow.setIfInBounds l.1
  stamped_iff := by
    intro pc
    show (m.marks.setIfInBounds l.1 m.stamp)[pc]? = some m.stamp ↔
      (pc, m.position) ∈ (l.1, m.position) :: m.visited
    rw [stamped_setIfInBounds_iff (lt_size_of_not_stale hs), h.stamped_iff pc]
    simp
  visited_nodup := List.nodup_cons.mpr ⟨h.not_mem_visited hs, h.visited_nodup⟩
  visited_le := by
    intro s hs
    rcases List.mem_cons.mp hs with rfl | hs
    · exact Nat.le_refl _
    · exact h.visited_le s hs
  waiting_visited := by
    intro k hk
    rcases mem_waiting_visit hk with ⟨rfl, -⟩ | hk
    · exact List.mem_cons_self
    · exact List.mem_cons_of_mem _ (h.waiting_visited k hk)
  waiting_nodup := by
    show ((if waits program l then l :: m.waiting else m.waiting).map Prod.fst).Nodup
    split
    · refine List.nodup_cons.mpr ⟨?_, h.waiting_nodup⟩
      -- a thread that waits there already would have been recorded
      intro hmem
      obtain ⟨k, hk, heq⟩ := List.mem_map.mp hmem
      apply h.not_mem_visited hs
      rw [← heq]
      exact h.waiting_visited k hk
    · exact h.waiting_nodup
  offered_nodup := h.offered_nodup
  waiting_waits := by
    intro k hk
    rcases mem_waiting_visit hk with ⟨rfl, hw⟩ | hk
    · exact hw
    · exact h.waiting_waits k hk
  offered_waits := h.offered_waits

theorem turn (h : Orderly program m) : Orderly program (m.turn program) := by
  unfold Moment.turn
  split
  · exact h
  · rename_i l rest _
    split
    · exact h.drop rest
    · rename_i hs
      exact h.visit rest hs

theorem offer (h : Orderly program m) (ho : m.offered = l :: rest) :
    Orderly program (m.offer program l rest) := by
  have hnodup := h.offered_nodup
  have hwaits := h.offered_waits
  rw [ho] at hnodup hwaits
  exact { h with
    offered_nodup := (List.nodup_cons.mp hnodup).2
    offered_waits := (List.forall_mem_cons.mp hwaits).2 }

/-- At the next position nothing has been gone into, and nothing bears its stamp. -/
theorem proceed (h : Orderly program m) (t : Token) (ts : List Token) :
    Orderly program (m.proceed t ts) := by
  refine ⟨?_, h.size_marks, ?_, ?_, h.visited_nodup, ?_, List.forall_mem_nil _, List.nodup_nil,
    ?_, List.forall_mem_nil _, ?_⟩
  · show m.stamp + 1 = m.position + 1 + 1
    rw [h.stamp_eq]
  · intro pc mark hmark
    exact Nat.lt_succ_of_lt (h.stampsBelow pc mark hmark)
  · -- the stamp is new, and so is the position
    intro pc
    constructor
    · intro hmark
      exact absurd (h.stampsBelow pc (m.stamp + 1) hmark) (Nat.lt_irrefl _)
    · intro hmem
      exact absurd (h.visited_le _ hmem) (Nat.not_succ_le_self m.position)
  · intro s hs
    exact Nat.le_succ_of_le (h.visited_le s hs)
  · show (m.waiting.reverse.map Prod.fst).Nodup
    rw [List.map_reverse]
    exact List.nodup_reverse.mpr h.waiting_nodup
  · intro l hl
    exact h.waiting_waits l (List.mem_reverse.mp hl)

/-- Every turn of a run keeps to the rules. -/
theorem step (h : Orderly program m) : Orderly program (m.step program) := by
  apply step_cases (motive := Orderly program)
  case ended =>
    intro _
    exact h
  case turn =>
    intro _
    exact h.turn
  case offer =>
    intro l rest _ ho
    exact h.offer ho
  case proceed =>
    intro t ts _ _ _ _
    exact h.proceed t ts

end Orderly

/-- All moments of a run keep to the rules. -/
theorem orderly_after (program : Program) (tokens : List Token) (n : Nat) :
    Orderly program (after program tokens n) := by
  induction n with
  | zero => exact orderly_start program tokens
  | succ n ih =>
    rw [after_succ]
    exact ih.step

/-! ## What a run comes to -/

theorem swept_turn : (m.turn program).swept program = m.swept program := by
  obtain ⟨hconsumed, -, hstamp, hoffered⟩ := @turn_frame program m
  unfold swept
  rw [position_turn, hconsumed, hstamp, hoffered, follow_turn]

/-- Offering a token to one thread after the other is consuming it. -/
theorem swept_offer (h : Orderly program m) (hp : m.pending = []) (ho : m.offered = l :: rest) :
    (m.offer program l rest).swept program = m.swept program := by
  have hstamp : m.stamp = m.consumed.length + 1 := h.stamp_eq
  unfold swept Moment.offer Moment.position
  cases hc : m.consumed with
  | nil =>
    rw [hp]
    rfl
  | cons t ts =>
    rw [hc, List.length_cons] at hstamp
    simp only [hp, ho, follow_nil, List.head?_cons, Option.bind_some, List.length_cons,
      consume_cons, hstamp]
    cases consumed? program t l with
    | none => rw [Option.toList_none, follow_nil]
    | some e => rfl

/-- Once no thread is pending or offered the token, the run is about to leave the position. -/
theorem swept_of_settled (hp : m.pending = []) (ho : m.offered = []) :
    m.swept program = (m.marks, m.waiting) := by
  unfold swept
  rw [hp, ho, follow_nil]
  cases m.consumed with
  | nil => rfl
  | cons t ts => rfl

/-- Going on to the next token is the turn of `advance`. -/
theorem outcome_proceed (hp : m.pending = []) (ho : m.offered = []) (ha : m.ahead = t :: ts)
    (hw : m.waiting ≠ []) : (m.proceed t ts).outcome program = m.outcome program := by
  have hwaits : ¬ m.waiting.reverse.isEmpty = true := by simpa using hw
  have hnext : (m.proceed t ts).swept program =
      consume program m.position t m.marks [] m.waiting.reverse := by
    unfold swept Moment.proceed
    rw [hp, follow_nil]
    rfl
  unfold outcome
  rw [swept_of_settled hp ho, ha, advance, if_neg hwaits, hnext]
  rfl

/-- No turn changes what a run comes to. -/
theorem outcome_step (h : Orderly program m) :
    (m.step program).outcome program = m.outcome program := by
  apply step_cases (motive := fun m' => m'.outcome program = m.outcome program)
  case ended =>
    intro _
    rfl
  -- a turn follows one thread, as the sweep over all pending ones does
  case turn =>
    intro _
    unfold outcome
    rw [swept_turn, position_turn, turn_frame.2.1]
  case offer =>
    intro l rest hp ho
    unfold outcome
    rw [swept_offer h hp ho]
    rfl
  case proceed =>
    intro t ts hp ho ha hw
    exact outcome_proceed hp ho ha hw

/-- At every moment a run comes to what it comes to from the start. -/
theorem outcome_after (program : Program) (tokens : List Token) (n : Nat) :
    (after program tokens n).outcome program = run program tokens := by
  induction n with
  | zero => rfl
  | succ n ih =>
    rw [after_succ, outcome_step (orderly_after program tokens n)]
    exact ih

/-! ## How many threads there are -/

theorem lt_size_of_waits (h : waits program l = true) : l.1 < program.size := by
  apply Nat.lt_of_not_le
  intro hle
  unfold waits at h
  rw [Array.getElem?_eq_none hle] at h
  cases h

/-- There are no more threads than instructions, if no two wait at the same one. -/
theorem length_le_size {ls : List Located} (hnodup : (ls.map Prod.fst).Nodup)
    (hwaits : ∀ l ∈ ls, waits program l = true) : ls.length ≤ program.size := by
  have hsub : ls.map Prod.fst ⊆ List.range program.size := by
    intro pc hpc
    obtain ⟨l, hl, rfl⟩ := List.mem_map.mp hpc
    exact List.mem_range.mpr (lt_size_of_waits (hwaits l hl))
  have hle := (hnodup.subperm hsub).length_le
  simpa using hle

theorem length_onward_le (program : Program) (position : Nat) (l : Located) :
    (onward program position l).length ≤ 2 := by
  unfold onward
  split
  · simp
  · rename_i i _
    unfold successors
    cases i with
    | leave =>
      dsimp only
      split <;> simp
    | token | split | jump | enter | fail | done => simp

/-! ## How many turns there are -/

/-- The turns that the loop that follows threads can still make: one for each thread that is
pending, and two for each instruction that has not been gone into, since it may put two threads in
front. -/
def Moment.following (m : Moment) : Nat := m.pending.length + 2 * unstamped m.stamp m.marks

/-- The turns that a run can still make. For each token ahead there is one to go on to it, two for
each thread that is offered it, and two for each instruction at the position behind it. -/
def Moment.potential (program : Program) (m : Moment) : Nat :=
  m.following + 2 * m.offered.length + (4 * program.size + 1) * m.ahead.length

/-- A thread that is passed over is gone, and one that is followed uses up its instruction. -/
theorem following_turn_lt (h : m.pending ≠ []) : (m.turn program).following < m.following := by
  obtain ⟨l, rest, hp⟩ := List.exists_cons_of_ne_nil h
  by_cases hs : Stale m.stamp m.marks l.1
  · rw [turn_stale hp hs]
    show rest.length + 2 * unstamped m.stamp m.marks < m.following
    unfold following
    rw [hp, List.length_cons]
    omega
  · -- the instruction is stamped, which pays for the threads that it puts in front
    have honward := length_onward_le program m.position l
    have hunstamped := unstamped_setIfInBounds_lt hs
    rw [turn_fresh hp hs]
    show (onward program m.position l ++ rest).length +
      2 * unstamped m.stamp (m.marks.setIfInBounds l.1 m.stamp) < m.following
    unfold following
    rw [hp, List.length_cons, List.length_append]
    omega

theorem following_le (h : m.marks.size = program.size) :
    m.following ≤ 2 * program.size + m.pending.length := by
  have hunstamped := unstamped_le_size m.stamp m.marks
  unfold following
  omega

theorem potential_turn_lt (h : m.pending ≠ []) :
    (m.turn program).potential program < m.potential program := by
  have hfollowing := @following_turn_lt program m h
  obtain ⟨-, hahead, -, hoffered⟩ := @turn_frame program m
  unfold potential
  rw [hahead, hoffered]
  omega

/-- A thread that is offered a token pays for being followed. -/
theorem potential_offer_lt (hp : m.pending = []) (ho : m.offered = l :: rest) :
    (m.offer program l rest).potential program < m.potential program := by
  have hnext : (m.offer program l rest).following ≤ 1 + 2 * unstamped m.stamp m.marks :=
    Nat.add_le_add_right Option.length_toList_le _
  unfold potential
  show _ + 2 * rest.length + _ * m.ahead.length < _
  unfold following at hnext ⊢
  rw [hp, ho, List.length_cons, List.length_nil]
  omega

/-- Every turn of a run that is not over uses up some of its potential. -/
theorem potential_step_lt (h : Orderly program m) (hm : ¬ m.IsOver) :
    (m.step program).potential program < m.potential program := by
  apply step_cases (motive := fun m' => m'.potential program < m.potential program)
  case ended =>
    intro hover
    exact absurd hover hm
  case turn =>
    intro hp
    exact potential_turn_lt hp
  case offer =>
    intro l rest hp ho
    exact potential_offer_lt hp ho
  case proceed =>
    intro t ts hp ho ha _
    have hunstamped : unstamped (m.stamp + 1) m.marks ≤ program.size := by
      rw [← h.size_marks]
      exact unstamped_le_size _ _
    have hwaiting := length_le_size h.waiting_nodup h.waiting_waits
    have hnext : (m.proceed t ts).following ≤ 2 * program.size := by
      unfold following
      show m.pending.length + 2 * unstamped (m.stamp + 1) m.marks ≤ _
      rw [hp, List.length_nil]
      omega
    -- the token pays for all that there is to do at the next position
    unfold potential
    show _ + 2 * m.waiting.reverse.length + _ * ts.length < _
    rw [ha, List.length_cons, List.length_reverse, Nat.mul_succ]
    omega

/-- With what a run leaves a position, that it has at a later moment there. -/
theorem exists_swept (h : Orderly program m) :
    ∃ m', Orderly program m' ∧ m.swept program = (m'.marks, m'.waiting) := by
  -- the run takes turns until no thread is pending or offered the token
  induction hn : m.potential program using Nat.strong_induction_on generalizing m with
  | h n ih =>
    subst hn
    by_cases hp : m.pending = []
    · cases ho : m.offered with
      | nil => exact ⟨m, h, swept_of_settled hp ho⟩
      | cons l rest =>
        rw [← swept_offer h hp ho]
        exact ih _ (potential_offer_lt hp ho) (h.offer ho) rfl
    · rw [← swept_turn]
      exact ih _ (potential_turn_lt hp) h.turn rfl

/-- A loop is done after as many turns as there can be, if every turn leaves fewer. -/
theorem done_iterate {α : Type} {f : α → α} (Kept done : α → Prop) (left : α → Nat)
    (kept : ∀ a, Kept a → Kept (f a)) (stays : ∀ a, done a → f a = a)
    (fewer : ∀ a, Kept a → ¬ done a → left (f a) < left a) (n : Nat) {a : α} (ha : Kept a)
    (hn : left a ≤ n) : done (f^[n] a) := by
  induction n generalizing a with
  | zero =>
    by_contra hdone
    have hlt := fewer a ha hdone
    omega
  | succ n ih =>
    by_cases hdone : done a
    · rw [Function.iterate_fixed (stays a hdone)]
      exact hdone
    · have hlt := fewer a ha hdone
      rw [Function.iterate_succ_apply]
      apply ih (kept a ha)
      omega

/-- The loop that follows threads ends, whatever the marks and the threads are. -/
theorem pending_iterate_turn (program : Program) (m : Moment) (n : Nat) (hn : m.following ≤ n) :
    ((turn program)^[n] m).pending = [] := by
  refine done_iterate (fun _ => True) (fun m => m.pending = []) following ?_ ?_ ?_ n trivial hn
  · intro m _
    trivial
  · intro m hp
    exact turn_nil hp
  · intro m _ hp
    exact following_turn_lt hp

/-- A run is over when the potential that it had at the start is used up. -/
theorem isOver_after (program : Program) (tokens : List Token) (n : Nat)
    (hn : (Moment.start program tokens).potential program ≤ n) :
    (after program tokens n).IsOver := by
  refine done_iterate (Orderly program) IsOver (potential program) ?_ ?_ ?_ n
    (orderly_start program tokens) hn
  · intro m h
    exact h.step
  · intro m h
    exact step_of_isOver h
  · intro m h hm
    exact potential_step_lt h hm

theorem potential_start_le (program : Program) (tokens : List Token) :
    (Moment.start program tokens).potential program ≤
      (4 * program.size + 1) * (tokens.length + 1) := by
  have hfollowing : (Moment.start program tokens).following ≤ 2 * program.size + 1 :=
    following_le Array.size_replicate
  unfold potential
  rw [Nat.mul_succ]
  show _ + 2 * 0 + (4 * program.size + 1) * tokens.length ≤ _
  omega

/-! ## What a run does not do twice -/

/-- A moment of a run that does not go into an instruction twice. -/
structure Frugal (program : Program) (m : Moment) : Prop where
  /-- The loop that follows the pending threads ends, within two turns for each instruction and one
  for each of these threads, and comes to what `follow` says. -/
  follow_ends : ∃ n ≤ 2 * program.size + m.pending.length, ∃ m', (turn program)^[n] m = m' ∧
    m'.pending = [] ∧ follow program m.position m.stamp m.marks m.waiting m.pending =
      (m'.marks, m'.waiting)
  /-- No instruction has been gone into twice at one position. -/
  visited_nodup : m.visited.Nodup
  /-- An instruction is passed over if it has been gone into at this position, and only then. -/
  stale_iff : ∀ pc < program.size, Stale m.stamp m.marks pc ↔ (pc, m.position) ∈ m.visited
  /-- No two threads wait at one instruction. -/
  waiting_nodup : (m.waiting.map Prod.fst).Nodup
  /-- No two of the threads that are still to be offered the token have waited at one. -/
  offered_nodup : (m.offered.map Prod.fst).Nodup
  /-- There are no more threads that wait than instructions, -/
  waiting_le : m.waiting.length ≤ program.size
  /-- and no more that are offered a token. -/
  offered_le : m.offered.length ≤ program.size
  /-- The same goes for the threads that `follow` and `consume` leave to `advance` here. -/
  swept_nodup : ((m.swept program).2.map Prod.fst).Nodup
  swept_le : (m.swept program).2.length ≤ program.size

theorem Orderly.frugal (h : Orderly program m) : Frugal program m := by
  obtain ⟨m', h', hswept⟩ := exists_swept h
  refine ⟨?_, h.visited_nodup, fun _ hpc => h.stale_iff hpc, h.waiting_nodup, h.offered_nodup,
    length_le_size h.waiting_nodup h.waiting_waits, length_le_size h.offered_nodup h.offered_waits,
    ?_, ?_⟩
  · have hpending := pending_iterate_turn program m m.following (Nat.le_refl _)
    have hfollow := @follow_iterate_turn program m m.following
    rw [hpending, follow_nil] at hfollow
    exact ⟨m.following, following_le h.size_marks, _, rfl, hpending, hfollow.symm⟩
  · rw [hswept]
    exact h'.waiting_nodup
  · rw [hswept]
    exact length_le_size h'.waiting_nodup h'.waiting_waits

/-- A run of a pattern goes into no instruction twice at a position, has at most one thread wait
at each instruction, and is over within a number of turns that grows with the product of the sizes
of the program and of the row of tokens. All the while it is on the way to what `run?` says. -/
theorem run_frugal (p : Pattern) (tokens : List Token) :
    (∀ n, Frugal p.program (after p.program tokens n) ∧
      (after p.program tokens n).outcome p.program = p.run? tokens) ∧
    (after p.program tokens ((4 * p.program.size + 1) * (tokens.length + 1))).IsOver := by
  refine ⟨?_, ?_⟩
  · intro n
    exact ⟨(orderly_after p.program tokens n).frugal, outcome_after p.program tokens n⟩
  · apply isOver_after
    exact potential_start_le p.program tokens

/-- A repetition, without bounds, of a repetition of nothing: both jump back to where they have been,
and each of the five instructions is gone into once. -/
example : let p : Pattern := .repeated (.repeated .empty 0 none) 0 none
    (after p.program [] 7).visited = [(4, 0), (3, 0), (2, 0), (1, 0), (0, 0)] ∧
      (after p.program [] 7).pending.isEmpty = true ∧ p.run? [] = some [] := by
  cbv

end Lockstep

end ContentGrammar
