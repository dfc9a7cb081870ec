import ContentGrammar.Proofs.Pattern.Sweep

/-!
# Lockstep is backtracking

Running a program in lockstep goes breadth first, position by position; backtracking goes depth
first. Both come to the same end, with the same regions (`run_eq_backtrack`):

* `find_sweep` — searching from several threads at a position is searching from the threads that
  wait after a sweep, once they have consumed a token. The search follows a waiting thread over the
  later positions before the sweep is over; but that does not touch the spots of the position
  itself, so the sweep comes to the same threads either way;
* `advance_eq_resume` — so lockstep agrees with the search position by position.
-/

namespace ContentGrammar

namespace Lockstep

/-- Threads at one position. -/
def configs (position : Nat) (rest : List Token) (ls : List Located) : List Config :=
  ls.map fun l => ⟨l.1, position, rest, l.2⟩

/-- Where a waiting thread goes on after a token, if it accepts it. -/
def consumed? (program : Program) (t : Token) (l : Located) : Option Located :=
  match program[l.1]? with
  | some (.token accepted) => if accepted.accepts t then some (l.1 + 1, l.2) else none
  | _ => none

/-- The threads that go on after a token, in the order in which they wait for it. -/
def entries (program : Program) (t : Token) (waiting : List Located) : List Located :=
  waiting.filterMap (consumed? program t)

/-- The spots that are fresh after a sweep which has left the given marks. -/
def unmarked (position stamp : Nat) (marks : Array Nat) (fresh : Finset Spot) : Finset Spot :=
  fresh.filter fun s => s.2 = position → ¬ Stale stamp marks s.1

/-- What is found by going on from the threads that wait after a sweep. -/
def resume (program : Program) (fresh : Finset Spot) (position : Nat) (rest : List Token)
    (waiting : List Located) : Option Thread × Finset Spot :=
  match rest with
  | [] => (finished? program waiting, fresh)
  | t :: ts => find program fresh (configs (position + 1) ts (entries program t waiting))

/-- The marks of a sweep are those of the spots that are not fresh. -/
def Agree (position stamp : Nat) (marks : Array Nat) (fresh : Finset Spot) : Prop :=
  ∀ pc, (pc, position) ∈ fresh ↔ ¬ Stale stamp marks pc

/-- Two searches find the same; and if that is nothing, they have left the same for others. -/
def SameAnswer (a b : Option Thread × Finset Spot) : Prop := a.1 = b.1 ∧ (a.1 = none → a = b)

variable {program : Program} {position stamp : Nat} {marks : Array Nat} {fresh : Finset Spot}
  {l : Located} {ls pending waiting : List Located} {rest : List Token}

/-! ## Marks and fresh spots -/

theorem agree_insert (pc : Nat) (h : Agree position stamp marks fresh) :
    Agree position stamp (marks.setIfInBounds pc stamp) (fresh.erase (pc, position)) := by
  intro pc'
  rw [Finset.mem_erase, h pc']
  by_cases heq : pc' = pc
  · subst heq
    exact iff_of_false (fun hm => hm.1 rfl) (fun hm => hm stale_setIfInBounds)
  · have hne : (pc', position) ≠ (pc, position) := fun h => heq (Prod.mk.inj h).1
    simp only [Stale, Array.getElem?_setIfInBounds_ne (Ne.symm heq), ne_eq, hne,
      not_false_eq_true, true_and]

theorem Agree.congr {fresh' : Finset Spot} (h : Agree position stamp marks fresh)
    (hsame : ∀ pc, (pc, position) ∈ fresh' ↔ (pc, position) ∈ fresh) :
    Agree position stamp marks fresh' := fun pc => (hsame pc).trans (h pc)

theorem unmarked_of_agree (h : Agree position stamp marks fresh) :
    unmarked position stamp marks fresh = fresh := by
  refine Finset.filter_eq_self.mpr fun s hs heq => ?_
  obtain ⟨pc, q⟩ := s
  obtain rfl : q = position := heq
  exact (h pc).mp hs

/-- A spot that is marked need not be taken out before the others that are. -/
theorem unmarked_erase {pc : Nat} (h : Stale stamp marks pc) :
    unmarked position stamp marks (fresh.erase (pc, position)) =
      unmarked position stamp marks fresh := by
  rw [unmarked, unmarked, Finset.filter_erase]
  refine Finset.erase_eq_of_notMem fun hm => ?_
  exact (Finset.mem_filter.mp hm).2 rfl h

/-! ## What a sweep stands for -/

theorem configs_append {ms : List Located} :
    configs position rest (ls ++ ms) = configs position rest ls ++ configs position rest ms := by
  simp [configs]

theorem resume_nil : resume program fresh position rest [] = (none, fresh) := by
  cases rest with
  | nil => rfl
  | cons t ts => exact find_nil

theorem SameAnswer.refl (a : Option Thread × Finset Spot) : SameAnswer a a := ⟨rfl, fun _ => rfl⟩

/-- A thread that consumes a token is searched before the threads behind it, which find the spots of
their own position as they were. -/
theorem find_consume {d : Config} {ds : List Config} (hd : position < d.position)
    (hswept : ∀ left ⊆ fresh, (∀ s ∈ fresh, s.2 ≤ position → s ∈ left) →
      SameAnswer (find program left (configs position rest pending))
        (find program (unmarked position stamp marks left) ds)) :
    SameAnswer (find program fresh (d :: configs position rest pending))
      (find program (unmarked position stamp marks fresh) (d :: ds)) := by
  have hpos : ∀ c ∈ [d], position + 1 ≤ c.position := by
    intro c hc
    obtain rfl := List.mem_singleton.mp hc
    exact hd
  -- the marks tell of the position before only, and the search begins behind it
  have hfirst : find program (unmarked position stamp marks fresh) [d] =
      ((find program fresh [d]).1,
        unmarked position stamp marks (find program fresh [d]).2) := by
    refine find_filter (fun s hs heq => ?_) hpos
    exact absurd heq (Nat.ne_of_gt hs)
  have hsub : (find program fresh [d]).2 ⊆ fresh := find_subset
  have hkept : ∀ s ∈ fresh, s.2 ≤ position → s ∈ (find program fresh [d]).2 :=
    fun s hs hle => mem_find_of_lt hpos (Nat.lt_succ_of_le hle) hs
  rw [← List.singleton_append, find_append, ← List.singleton_append (l := ds), find_append, hfirst]
  cases hr : find program fresh [d] with
  | mk found left =>
    rw [hr] at hsub hkept
    cases found with
    | some t => exact ⟨rfl, nofun⟩
    | none => exact hswept left hsub hkept

/-- A thread that does not wait goes on at its position. -/
theorem next_of_not_waits (position : Nat) (rest : List Token) (h : waits program l = false) :
    Config.isFinal program ⟨l.1, position, rest, l.2⟩ = false ∧
      Config.next program ⟨l.1, position, rest, l.2⟩ =
        configs position rest (onward program position l) := by
  unfold waits at h
  unfold Config.isFinal Config.next onward configs
  dsimp only
  cases hi : program[l.1]? with
  | none => exact ⟨rfl, rfl⟩
  | some i =>
    rw [hi] at h
    cases i with
    | token | done => cases h
    | split | jump | enter | leave | fail => exact ⟨rfl, rfl⟩

theorem onward_of_waits (h : waits program l = true) : onward program position l = [] := by
  unfold waits at h
  unfold onward
  cases hi : program[l.1]? with
  | none => rfl
  | some i =>
    rw [hi] at h
    cases i with
    | token | done => rfl
    | split | jump | enter | leave | fail => cases h

/-- A thread that waits is at the end, or is dropped, or goes on behind the next token. -/
theorem next_of_waits (position : Nat) (rest : List Token) (h : waits program l = true) :
    (Config.isFinal program ⟨l.1, position, rest, l.2⟩ = true ∧
      ∀ fresh ws, resume program fresh position rest (l :: ws) = (some l.2, fresh)) ∨
    Config.isFinal program ⟨l.1, position, rest, l.2⟩ = false ∧
      (Config.next program ⟨l.1, position, rest, l.2⟩ = [] ∧
        (∀ fresh ws, resume program fresh position rest (l :: ws) =
          resume program fresh position rest ws) ∨
      ∃ d t ts, rest = t :: ts ∧ d.position = position + 1 ∧
        Config.next program ⟨l.1, position, rest, l.2⟩ = [d] ∧
        ∀ fresh ws, resume program fresh position rest (l :: ws) =
          find program fresh (d :: configs (position + 1) ts (entries program t ws))) := by
  obtain ⟨pc, thread⟩ := l
  unfold waits at h
  cases hi : program[pc]? with
  | none =>
    rw [hi] at h
    cases h
  | some i =>
    rw [hi] at h
    cases i with
    | token accepted =>
      right
      refine ⟨Config.isFinal_eq_false hi (by simp), ?_⟩
      rw [Config.next_token hi]
      cases rest with
      | nil => exact .inl ⟨rfl, fun fresh ws => by simp [resume, finished?, hi]⟩
      | cons t ts =>
        -- a token that is accepted leads on to one configuration, any other to none
        by_cases ht : accepted.accepts t = true
        · refine .inr ⟨_, t, ts, rfl, rfl, if_pos ht, fun fresh ws => ?_⟩
          simp [resume, entries, consumed?, hi, ht, configs]
        · refine .inl ⟨if_neg ht, fun fresh ws => ?_⟩
          simp [resume, entries, consumed?, hi, ht]
    | done =>
      cases rest with
      | nil =>
        left
        exact ⟨Config.isFinal_iff.mpr ⟨hi, rfl⟩, fun fresh ws => by simp [resume, finished?, hi]⟩
      | cons t ts =>
        right
        refine ⟨?_, .inl ⟨?_, fun fresh ws => ?_⟩⟩
        · simp [Config.isFinal, hi]
        · simp [Config.next, hi, successors]
        · simp [resume, entries, consumed?, hi]
    | split | jump | enter | leave | fail => cases h

/-- Searching from threads at one position is searching from those that wait after a sweep. -/
theorem find_sweep (program : Program) (rest : List Token) (pending : List Located)
    (h : Agree position stamp marks fresh) :
    SameAnswer (find program fresh (configs position rest pending))
      (resume program
        (unmarked position stamp (sweep program position stamp marks pending).1 fresh)
        position rest (sweep program position stamp marks pending).2) := by
  induction marks, pending using follow_induct program position stamp generalizing fresh with
  | nil marks =>
    rw [sweep_nil, unmarked_of_agree h, resume_nil, configs, List.map_nil, find_nil]
    exact .refl _
  | stale marks l pending hl ih =>
    have hspot : (Config.mk l.1 position rest l.2).spot ∉ fresh := fun hm => (h l.1).mp hm hl
    rw [sweep_stale hl, configs, List.map_cons, find_stale hspot]
    exact ih h
  | fresh marks l pending hl ih =>
    have hspot : (Config.mk l.1 position rest l.2).spot ∈ fresh := (h l.1).mpr hl
    have hagree := agree_insert l.1 h
    have hmarked : Stale stamp (sweep program position stamp (marks.setIfInBounds l.1 stamp)
        (onward program position l ++ pending)).1 l.1 := stale_sweep stale_setIfInBounds
    rw [sweep_fresh hl, configs, List.map_cons, ← configs]
    dsimp only
    rw [← unmarked_erase hmarked]
    cases hw : waits program l with
    | false =>
      -- the sweep follows the successors of `l` right away, as the search does
      obtain ⟨hf, hnext⟩ := next_of_not_waits position rest hw
      rw [find_cons hspot hf, hnext, ← configs_append]
      exact ih hagree
    | true =>
      -- the sweep puts `l` off, while the search goes on behind the next token
      rw [onward_of_waits hw, List.nil_append] at ih hmarked ⊢
      rw [if_pos rfl]
      rcases next_of_waits position rest hw with
        ⟨hf, hres⟩ | ⟨hf, ⟨hnext, hres⟩ | ⟨d, t, ts, hrest, hd, hnext, hres⟩⟩
      · rw [find_final hspot hf, hres]
        exact ⟨rfl, nofun⟩
      · rw [find_cons hspot hf, hnext, List.nil_append, hres]
        exact ih hagree
      · rw [find_cons hspot hf, hnext, List.singleton_append, hres]
        refine find_consume (by omega) fun left hsub hkept => ?_
        subst hrest
        refine ih (hagree.congr fun pc => ⟨fun hm => hsub hm, fun hm => ?_⟩)
        exact hkept _ hm (Nat.le_refl _)

/-! ## From position to position -/

theorem consume_cons {t : Token} {parked : List Located} :
    consume program position t marks parked (l :: waiting) =
      match consumed? program t l with
      | some e =>
        let r := follow program (position + 1) (position + 2) marks parked [e]
        consume program position t r.1 r.2 waiting
      | none => consume program position t marks parked waiting := by
  obtain ⟨pc, thread⟩ := l
  rw [consume.eq_def, consumed?]
  dsimp only
  cases hi : program[pc]? with
  | none => rfl
  | some i =>
    cases i with
    | token accepted =>
      by_cases ht : accepted.accepts t = true
      · simp only [ht, if_true]
      · simp only [ht]
        rfl
    | split | jump | enter | leave | fail | done => rfl

/-- Letting the waiting threads go on one by one is a single sweep over all that go on. -/
theorem consume_eq {t : Token} {parked : List Located} :
    consume program position t marks parked waiting =
      follow program (position + 1) (position + 2) marks parked (entries program t waiting) := by
  induction waiting generalizing marks parked with
  | nil => rw [consume, entries, List.filterMap_nil, follow_nil]
  | cons l waiting ih =>
    rw [consume_cons, entries, List.filterMap_cons, ← entries]
    cases consumed? program t l with
    | none => exact ih
    | some e =>
      dsimp only
      rw [ih, ← List.singleton_append (l := entries program t waiting), follow_append]

/-- All addresses of the program are fresh at the positions from `position` to `last`. -/
def FreshFrom (program : Program) (position last : Nat) (fresh : Finset Spot) : Prop :=
  ∀ pc q, position ≤ q → ((pc, q) ∈ fresh ↔ pc < program.size ∧ q ≤ last)

/-- No mark is `stamp` or above. -/
def StampsBelow (stamp : Nat) (marks : Array Nat) : Prop :=
  ∀ pc m : Nat, marks[pc]? = some m → m < stamp

variable {last : Nat}

theorem freshFrom_allSpots {tokens : List Token} :
    FreshFrom program 0 tokens.length (allSpots program tokens) := by
  intro pc q _
  rw [allSpots, Finset.mem_product, Finset.mem_range, Finset.mem_range, Nat.lt_succ_iff]

theorem stampsBelow_replicate {size : Nat} : StampsBelow 1 (Array.replicate size 0) := by
  intro pc m hm
  obtain ⟨_, hm⟩ := Array.getElem?_eq_some_iff.mp hm
  rw [Array.getElem_replicate] at hm
  omega

/-- A sweep leaves no mark above its own stamp. -/
theorem StampsBelow.sweep (h : StampsBelow stamp marks) :
    StampsBelow (stamp + 1) (sweep program position stamp marks pending).1 := by
  intro pc m hm
  rcases sweep_marks hm with rfl | hm
  · exact Nat.lt_succ_self _
  · exact Nat.lt_succ_of_lt (h pc m hm)

/-- With a stamp that is new, no address is stale. -/
theorem FreshFrom.agree (hfresh : FreshFrom program position last fresh)
    (hsize : marks.size = program.size) (hstamps : StampsBelow stamp marks)
    (hle : position ≤ last) : Agree position stamp marks fresh := by
  intro pc
  rw [hfresh pc position (Nat.le_refl _)]
  constructor
  · rintro ⟨hpc, -⟩ hstale
    rw [← hsize] at hpc
    have hlt := hstamps pc _ (Array.getElem?_eq_getElem hpc)
    exact Nat.ne_of_lt hlt ((stale_iff_of_lt hpc).mp hstale)
  · intro hnew
    exact ⟨Nat.lt_of_not_le fun hout => hnew (stale_of_size_le (hsize ▸ hout)), hle⟩

/-- What is marked at one position is fresh at the positions behind it. -/
theorem FreshFrom.unmarked (hfresh : FreshFrom program position last fresh) :
    FreshFrom program (position + 1) last (unmarked position stamp marks fresh) := by
  intro pc q hq
  have hne : q ≠ position := Nat.ne_of_gt hq
  rw [Lockstep.unmarked, Finset.mem_filter, hfresh pc q (Nat.le_of_succ_le hq)]
  exact and_iff_left fun heq => absurd heq hne

/-- Lockstep goes on from position to position by sweeps. -/
theorem advance_cons {t : Token} {ts : List Token} (h : waiting ≠ []) :
    advance program position marks waiting (t :: ts) =
      advance program (position + 1)
        (sweep program (position + 1) (position + 2) marks (entries program t waiting)).1
        (sweep program (position + 1) (position + 2) marks (entries program t waiting)).2 ts := by
  rw [advance, if_neg (by simpa using h), consume_eq]
  rfl

/-- From waiting threads on, lockstep finds what a search finds. -/
theorem advance_eq_resume (hsize : marks.size = program.size)
    (hstamps : StampsBelow (position + 2) marks)
    (hfresh : FreshFrom program (position + 1) (position + rest.length) fresh) :
    advance program position marks waiting rest =
      (resume program fresh position rest waiting).1.map (·.spans.reverse) := by
  induction rest generalizing position marks waiting fresh with
  | nil => rfl
  | cons t ts ih =>
    by_cases hempty : waiting = []
    · subst hempty
      rw [resume_nil]
      rfl
    · -- the sweep at the next position, with a stamp of its own
      rw [List.length_cons, ← Nat.add_assoc, Nat.add_right_comm] at hfresh
      have hagree := hfresh.agree hsize hstamps (Nat.le_add_right _ _)
      have hsweep := find_sweep program ts (entries program t waiting) hagree
      rw [advance_cons hempty, resume, hsweep.1]
      exact ih (size_sweep.trans hsize) hstamps.sweep hfresh.unmarked

/-- Running a program in lockstep is running it by backtracking. -/
theorem run_eq_backtrack (program : Program) (tokens : List Token) :
    run program tokens = backtrack program tokens := by
  have hsize : (Array.replicate program.size 0).size = program.size := Array.size_replicate
  have hfresh : FreshFrom program 0 (0 + tokens.length) (allSpots program tokens) :=
    (Nat.zero_add _).symm ▸ freshFrom_allSpots
  have hagree := hfresh.agree hsize stampsBelow_replicate (Nat.zero_le _)
  have hsweep := find_sweep program tokens [(0, ⟨[], []⟩)] hagree
  rw [backtrack, show [start tokens] = configs 0 tokens [(0, ⟨[], []⟩)] from rfl, hsweep.1]
  exact advance_eq_resume (size_sweep.trans hsize) stampsBelow_replicate.sweep hfresh.unmarked

end Lockstep

end ContentGrammar
