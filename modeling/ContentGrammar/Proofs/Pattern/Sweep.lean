import ContentGrammar.Proofs.Pattern.Preference

/-!
# Sweeps

A run in lockstep follows the threads at one position until they wait. `sweep` is what comes out of
that: the marks after it and the waiting threads, the first one first. `sweep_nil`, `sweep_stale`
and `sweep_fresh` say how a sweep goes on from one thread to the next, `sweep_marks` and
`stale_sweep` what becomes of the marks. A thread at an address that is marked, or out of range, is
dropped (`Stale`).
-/

namespace ContentGrammar

namespace Lockstep

/-! ## Following threads at one position -/

/-- Where a thread goes without consuming a token. -/
def onward (program : Program) (position : Nat) (l : Located) : List Located :=
  match program[l.1]? with
  | none => []
  | some i => successors i l.1 position l.2

/-- Whether a thread waits where it is. -/
def waits (program : Program) (l : Located) : Bool :=
  match program[l.1]? with
  | none => false
  | some i => isWaiting i

/-- An address is stale if it is marked already, or out of range. -/
def Stale (stamp : Nat) (marks : Array Nat) (pc : Nat) : Prop :=
  ∀ m ∈ marks[pc]?, m = stamp

instance {stamp pc : Nat} {marks : Array Nat} : Decidable (Stale stamp marks pc) :=
  inferInstanceAs (Decidable (∀ m ∈ marks[pc]?, m = stamp))

variable {program : Program} {position stamp : Nat} {marks : Array Nat} {l : Located}
  {pending more waiting : List Located}

theorem stale_iff_of_lt {pc : Nat} (h : pc < marks.size) :
    Stale stamp marks pc ↔ marks[pc] = stamp := by
  rw [Stale, Array.getElem?_eq_getElem h]
  exact ⟨fun hs => hs _ rfl, fun heq m hm => (Option.some.inj hm).symm.trans heq⟩

theorem stale_of_size_le {pc : Nat} (h : marks.size ≤ pc) : Stale stamp marks pc := by
  intro m hm
  rw [Array.getElem?_eq_none h] at hm
  cases hm

theorem follow_nil : follow program position stamp marks waiting [] = (marks, waiting) := by
  rw [follow]

theorem follow_stale (h : Stale stamp marks l.1) :
    follow program position stamp marks waiting (l :: pending) =
      follow program position stamp marks waiting pending := by
  obtain ⟨pc, t⟩ := l
  rw [follow]
  split
  · rename_i hpc
    rw [dif_pos ((stale_iff_of_lt hpc).mp h)]
  · rfl

theorem follow_fresh (h : ¬ Stale stamp marks l.1) :
    follow program position stamp marks waiting (l :: pending) =
      follow program position stamp (marks.setIfInBounds l.1 stamp)
        (if waits program l then l :: waiting else waiting)
        (onward program position l ++ pending) := by
  obtain ⟨pc, t⟩ := l
  have hpc : pc < marks.size := Nat.lt_of_not_le fun hle => h (stale_of_size_le hle)
  have hm : marks[pc] ≠ stamp := fun heq => h ((stale_iff_of_lt hpc).mpr heq)
  rw [follow, dif_pos hpc, dif_neg hm, Array.setIfInBounds, dif_pos hpc]
  unfold waits onward
  dsimp only
  cases program[pc]? with
  | none => rfl
  | some i => rfl

/-- Induction along a sweep. -/
theorem follow_induct {motive : Array Nat → List Located → Prop} (program : Program)
    (position stamp : Nat) (nil : ∀ marks, motive marks [])
    (stale : ∀ marks l pending, Stale stamp marks l.1 → motive marks pending →
      motive marks (l :: pending))
    (fresh : ∀ marks l pending, ¬ Stale stamp marks l.1 →
      motive (marks.setIfInBounds l.1 stamp) (onward program position l ++ pending) →
      motive marks (l :: pending))
    (marks : Array Nat) (pending : List Located) : motive marks pending := by
  have hset : ∀ {marks : Array Nat} {pc : Nat} (h : pc < marks.size),
      marks.set pc stamp h = marks.setIfInBounds pc stamp := by
    intro marks pc h
    rw [Array.setIfInBounds, dif_pos h]
  -- the threads that wait are only gathered, so any will do for the induction
  induction marks, ([] : List Located), pending using follow.induct program position stamp with
  | case1 marks waiting => exact nil marks
  | case2 marks waiting pc t rest h hm ih =>
    exact stale marks (pc, t) rest ((stale_iff_of_lt h).mpr hm) ih
  | case3 marks waiting pc t rest h hm marks' hi ih =>
    refine fresh marks (pc, t) rest (fun hs => hm ((stale_iff_of_lt h).mp hs)) ?_
    rw [← hset h, onward, hi]
    exact ih
  | case4 marks waiting pc t rest h hm marks' i hi ih =>
    refine fresh marks (pc, t) rest (fun hs => hm ((stale_iff_of_lt h).mp hs)) ?_
    rw [← hset h, onward, hi]
    exact ih
  | case5 marks waiting pc t rest h ih =>
    exact stale marks (pc, t) rest (stale_of_size_le (Nat.le_of_not_lt h)) ih

/-- What waits already stays behind what comes to wait. -/
theorem follow_waiting : follow program position stamp marks waiting pending =
    ((follow program position stamp marks [] pending).1,
      (follow program position stamp marks [] pending).2 ++ waiting) := by
  induction marks, pending using follow_induct program position stamp generalizing waiting with
  | nil marks => simp only [follow_nil, List.nil_append]
  | stale marks l pending h ih => rw [follow_stale h, follow_stale h, ih]
  | fresh marks l pending h ih =>
    rw [follow_fresh h, follow_fresh h]
    split
    · rw [ih, @ih [l]]
      simp
    · exact ih

/-- Following two rows of threads is following the second one with the marks of the first one. -/
theorem follow_append : follow program position stamp marks waiting (pending ++ more) =
    follow program position stamp (follow program position stamp marks waiting pending).1
      (follow program position stamp marks waiting pending).2 more := by
  induction marks, pending using follow_induct program position stamp generalizing waiting with
  | nil marks => rw [List.nil_append, follow_nil]
  | stale marks l pending h ih => rw [List.cons_append, follow_stale h, follow_stale h, ih]
  | fresh marks l pending h ih =>
    rw [List.cons_append, follow_fresh h, follow_fresh h, ← List.append_assoc, ih]

/-! ## A sweep and its marks -/

/-- What lockstep does at a position: the marks after it, and the threads that wait, the first one
first. -/
def sweep (program : Program) (position stamp : Nat) (marks : Array Nat) (pending : List Located) :
    Array Nat × List Located :=
  let r := follow program position stamp marks [] pending
  (r.1, r.2.reverse)

theorem sweep_nil : sweep program position stamp marks [] = (marks, []) := by
  rw [sweep, follow_nil]
  rfl

theorem sweep_stale (h : Stale stamp marks l.1) :
    sweep program position stamp marks (l :: pending) =
      sweep program position stamp marks pending := by
  rw [sweep, follow_stale h, sweep]

theorem sweep_fresh (h : ¬ Stale stamp marks l.1) :
    sweep program position stamp marks (l :: pending) =
      let r := sweep program position stamp (marks.setIfInBounds l.1 stamp)
        (onward program position l ++ pending)
      (r.1, if waits program l then l :: r.2 else r.2) := by
  simp only [sweep]
  rw [follow_fresh h]
  split
  · rw [follow_waiting]
    simp
  · rfl

theorem size_sweep : (sweep program position stamp marks pending).1.size = marks.size := by
  induction marks, pending using follow_induct program position stamp with
  | nil marks => rw [sweep_nil]
  | stale marks l pending h ih => rw [sweep_stale h, ih]
  | fresh marks l pending h ih => rw [sweep_fresh h, ih, Array.size_setIfInBounds]

/-- A sweep sets marks to its stamp only. -/
theorem sweep_marks {pc m : Nat}
    (h : (sweep program position stamp marks pending).1[pc]? = some m) :
    m = stamp ∨ marks[pc]? = some m := by
  induction marks, pending using follow_induct program position stamp with
  | nil marks =>
    rw [sweep_nil] at h
    exact .inr h
  | stale marks l pending hl ih =>
    rw [sweep_stale hl] at h
    exact ih h
  | fresh marks l pending hl ih =>
    rw [sweep_fresh hl] at h
    rcases ih h with rfl | h
    · exact .inl rfl
    · rw [Array.getElem?_setIfInBounds] at h
      split at h
      · split at h
        · exact .inl (Option.some.inj h).symm
        · cases h
      · exact .inr h

/-- What is marked stays so. -/
theorem stale_sweep {pc : Nat} (h : Stale stamp marks pc) :
    Stale stamp (sweep program position stamp marks pending).1 pc := by
  intro m hm
  rcases sweep_marks hm with rfl | hm
  · rfl
  · exact h m hm

theorem stale_setIfInBounds {pc : Nat} : Stale stamp (marks.setIfInBounds pc stamp) pc := by
  intro m hm
  rw [Array.getElem?_setIfInBounds, if_pos rfl] at hm
  split at hm
  · exact (Option.some.inj hm).symm
  · cases hm

end Lockstep

end ContentGrammar
