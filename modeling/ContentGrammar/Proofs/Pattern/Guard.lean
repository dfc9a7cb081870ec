import ContentGrammar.Proofs.Pattern.Nesting
import ContentGrammar.Proofs.Pattern.Sweep

/-!
# No thread is lost

A run drops a thread without a word if its address is out of range, or if it leaves a region while
none is open. In the program of a pattern neither can happen:

* `WellFormed p depth` — the program of `p` is put together properly: branches and jumps stay within
  it, it ends where it says so and fails only for an empty choice, and whichever path leads to an
  address, `depth` says how many regions are open there. At the end of a region the innermost one
  that is open is the one that ends;
* `Guarded.run?` — a run that gives up (`none`) as soon as a thread would be lost, and also if a
  region would be closed by the end of another one; for that its threads remember the address at
  which each open region was entered;
* `program_wellFormed` — every pattern has such a program, and the guarded run of it never gives up:
  it comes to what the run comes to.
-/

namespace ContentGrammar

/-- The addresses at which a run goes on after an instruction. -/
def Instruction.targets (i : Instruction) (pc : Nat) : List Nat :=
  match i with
  | .token _ | .enter | .leave _ _ => [pc + 1]
  | .split first second => [first, second]
  | .jump target => [target]
  | .fail | .done => []

namespace Lockstep

open Pattern

/-- A path from the start of a program to an address, and the addresses at which the regions that
are open there were entered, innermost first. -/
inductive Path (program : Program) : Nat → List Nat → Prop
  | start : Path program 0 []
  | step {pc target : Nat} {opened : List Nat} {i : Instruction} : Path program pc opened →
      program[pc]? = some i → target ∈ i.targets pc →
      Path program target (regionsBehind pc opened i)

/-- The program of a pattern is put together properly, with so many regions around each address. -/
structure WellFormed (p : Pattern) (depth : Nat → Nat) : Prop where
  /-- Every instruction goes on within the program. -/
  target_lt : ∀ {pc target : Nat} {i : Instruction}, p.program[pc]? = some i →
    target ∈ i.targets pc → target < p.program.size
  /-- The program is done at its last instruction, and only there. -/
  done_iff : ∀ {pc}, p.program[pc]? = some .done ↔ pc + 1 = p.program.size
  /-- The program fails where the pattern has an empty choice, and only there. -/
  fail_iff : ∀ {pc}, p.program[pc]? = some .fail ↔ Emits 0 p pc (.choice [])
  /-- On all paths to an address the same number of regions is open. -/
  length_opened : ∀ {pc opened}, Path p.program pc opened → opened.length = depth pc
  /-- Where a region ends, it is the innermost one that is open, and it was entered where the
  region with this label starts. -/
  leave : ∀ {pc opened entered l}, Path p.program pc opened →
    p.program[pc]? = some (.leave entered l) → 1 ≤ depth pc ∧ opened.head? = some entered ∧
      p.program[entered]? = some .enter ∧
      ∃ q, Emits 0 p entered (.labeled l q) ∧ pc = entered + 1 + q.codeSize
  /-- At the end no region is open. -/
  done : ∀ {pc}, p.program[pc]? = some .done → depth pc = 0

namespace Guarded

/-- A thread that remembers of each open region the address at which it was entered, besides its
start. -/
structure Thread where
  opened : List (Nat × Nat)
  spans : List Span

/-- A thread and the address at which it is. -/
abbrev Located := Nat × Thread

/-- The thread without the addresses. -/
def Thread.plain (t : Thread) : Lockstep.Thread := ⟨t.opened.map Prod.snd, t.spans⟩

/-- The thread without the addresses, where it is. -/
def plain (l : Located) : Lockstep.Located := (l.1, l.2.plain)

/-- Where a thread goes without consuming a token, unless it would leave a region that is not the
innermost open one. -/
def successors? (i : Instruction) (pc position : Nat) (t : Thread) : Option (List Located) :=
  match i with
  | .jump target => some [(target, t)]
  | .split first second => some [(first, t), (second, t)]
  | .enter => some [(pc + 1, { t with opened := (pc, position) :: t.opened })]
  | .leave entered label =>
    match t.opened with
    | [] => none
    | (address, start) :: opened =>
      if address = entered then some [(pc + 1, ⟨opened, ⟨label, start, position⟩ :: t.spans⟩)]
      else none
  | .token _ | .fail | .done => some []

/-- Follows threads until they wait, unless one of them would be lost. -/
def follow? (program : Program) (position stamp : Nat) (marks : Array Nat)
    (waiting : List Located) (pending : List Located) : Option (Array Nat × List Located) :=
  match pending with
  | [] => some (marks, waiting)
  | (pc, t) :: rest =>
    if h : pc < marks.size then
      if _hm : marks[pc] = stamp then follow? program position stamp marks waiting rest
      else
        match program[pc]? with
        | none => none
        | some i =>
          match successors? i pc position t with
          | none => none
          | some next =>
            follow? program position stamp (marks.set pc stamp h)
              (if isWaiting i then (pc, t) :: waiting else waiting) (next ++ rest)
    else none
termination_by (unstamped stamp marks, pending.length)
decreasing_by
  · exact Prod.Lex.right _ (by simp)
  · exact Prod.Lex.left _ _ (unstamped_set_lt h _hm)

/-- Lets the waiting threads that accept a token go on after it, unless one would be lost. -/
def consume? (program : Program) (position : Nat) (t : Token) (marks : Array Nat)
    (waiting : List Located) : List Located → Option (Array Nat × List Located)
  | [] => some (marks, waiting)
  | (pc, thread) :: rest =>
    match program[pc]? with
    | none => none
    | some (.token accepted) =>
      if accepted.accepts t then
        match follow? program (position + 1) (position + 2) marks waiting [(pc + 1, thread)] with
        | none => none
        | some (marks, waiting) => consume? program position t marks waiting rest
      else consume? program position t marks waiting rest
    | some _ => consume? program position t marks waiting rest

/-- Runs waiting threads over the tokens from `position` on, unless one would be lost. -/
def advance? (program : Program) (position : Nat) (marks : Array Nat) (waiting : List Located) :
    List Token → Option (Option (List Span))
  | [] => some ((finished? program (waiting.map plain)).map (·.spans.reverse))
  | t :: ts =>
    if waiting.isEmpty then some none
    else
      match consume? program position t marks [] waiting with
      | none => none
      | some (marks, next) => advance? program (position + 1) marks next.reverse ts

/-- Runs a program over tokens, and gives up as soon as a thread would be lost. -/
def run? (program : Program) (tokens : List Token) : Option (Option (List Span)) :=
  match follow? program 0 1 (Array.replicate program.size 0) [] [(0, ⟨[], []⟩)] with
  | none => none
  | some (marks, waiting) => advance? program 0 marks waiting.reverse tokens

/-- A program that leaves a region where none is open, or one that jumps out of its range, is given
up. -/
example : run? #[.leave 0 .transparent, .done] [] = none ∧ run? #[.jump 2, .done] [] = none := by
  cbv

end Guarded

/-! ## Instructions and where they go on -/

variable {program : Program} {p : Pattern} {pc target : Nat} {i : Instruction}

/-- Where an instruction goes on, there are the regions around it that the instruction says. -/
theorem Nested.enclosing_target (h : Nested program) (hi : program[pc]? = some i)
    (ht : target ∈ i.targets pc) :
    enclosing program target = regionsBehind pc (enclosing program pc) i := by
  have respects := h pc i hi
  cases i with
  | token | enter | leave =>
    obtain rfl := List.mem_singleton.mp ht
    exact enclosing_succ hi
  | split first second =>
    rcases List.mem_cons.mp ht with rfl | ht
    · exact respects.1
    · obtain rfl := List.mem_singleton.mp ht
      exact respects.2
  | jump =>
    obtain rfl := List.mem_singleton.mp ht
    exact respects
  | fail | done => cases ht

theorem Path.opened_eq {opened : List Nat} (h : Nested program) (hp : Path program pc opened) :
    opened = enclosing program pc := by
  induction hp with
  | start => rfl
  | step _ hi ht ih => rw [h.enclosing_target hi ht, ih]

/-- An instruction of a program has an origin in the pattern, or is the end of the program. -/
theorem program_cases (h : p.program[pc]? = some i) :
    pc < p.codeSize ∧ Origin 0 p pc i ∨ pc = p.codeSize ∧ i = .done := by
  refine throughout_program (P := fun pc i => pc < p.codeSize ∧ Origin 0 p pc i ∨
    pc = p.codeSize ∧ i = .done) (fun n j hn => .inl ⟨?_, hasOrigins_code p 0 n j hn⟩)
    (.inr ⟨rfl, rfl⟩) h
  rw [Nat.zero_add, ← length_code p 0]
  exact (List.getElem?_eq_some_iff.mp hn).1

/-- An instruction goes on within the program. -/
theorem program_target_lt (h : p.program[pc]? = some i) (ht : target ∈ i.targets pc) :
    target < p.program.size := by
  rw [size_program]
  rcases program_cases h with ⟨hlt, origin⟩ | ⟨-, rfl⟩
  -- the last instruction of the code is followed by the end of the program
  · have hsucc : pc + 1 < p.codeSize + 1 := Nat.succ_lt_succ hlt
    cases origin with
    | token | enter | leave =>
      obtain rfl := List.mem_singleton.mp ht
      exact hsucc
    | split hfirst hsecond =>
      rcases List.mem_cons.mp ht with rfl | ht
      · omega
      · obtain rfl := List.mem_singleton.mp ht
        omega
    | jump htarget =>
      obtain rfl := List.mem_singleton.mp ht
      omega
    | fail => cases ht
  · cases ht

theorem program_done_iff : p.program[pc]? = some .done ↔ pc + 1 = p.program.size := by
  rw [size_program, Nat.add_right_cancel_iff]
  constructor
  · intro h
    rcases program_cases h with ⟨-, origin⟩ | ⟨rfl, -⟩
    · cases origin
    · rfl
  · rintro rfl
    exact program_done p

/-- The instructions of a part stand in the program where the part does. -/
theorem program_of_emits {q : Pattern} (h : Emits 0 p pc q) : Placed p.program pc (q.code pc) :=
  Throughout.of_emits (P := fun a i => p.program[a]? = some i) (placed_program p).left h

theorem program_fail_iff : p.program[pc]? = some .fail ↔ Emits 0 p pc (.choice []) := by
  constructor
  · intro h
    rcases program_cases h with ⟨-, origin⟩ | ⟨-, hdone⟩
    · cases origin with
      | fail hq => exact hq
    · cases hdone
  · intro h
    exact (program_of_emits h).head

/-- The end of a region belongs to the labeled part that starts where the region was entered. -/
theorem program_leave {entered : Nat} {l : Label} (h : p.program[pc]? = some (.leave entered l)) :
    ∃ q, Emits 0 p entered (.labeled l q) ∧ pc = entered + 1 + q.codeSize := by
  rcases program_cases h with ⟨-, origin⟩ | ⟨-, hdone⟩
  · cases origin with
    | leave hq => exact ⟨_, hq, rfl⟩
  · cases hdone

theorem wellFormed_program (p : Pattern) :
    WellFormed p fun pc => (enclosing p.program pc).length where
  target_lt := program_target_lt
  done_iff := program_done_iff
  fail_iff := program_fail_iff
  length_opened h := by rw [h.opened_eq (nested_program p)]
  leave {pc opened entered l} hpath h := by
    have respects : enclosing p.program pc = entered :: enclosing p.program (pc + 1) :=
      nested_program p pc _ h
    obtain ⟨q, hq, hpc⟩ := program_leave h
    refine ⟨?_, ?_, (program_of_emits hq).head, q, hq, hpc⟩
    · rw [respects]
      exact Nat.succ_pos _
    · rw [hpath.opened_eq (nested_program p), respects]
      rfl
  done h := by
    have respects : enclosing p.program _ = [] := nested_program p _ _ h
    exact congrArg List.length respects

/-! ## Guarded runs -/

namespace Guarded

/-- A thread is at an address of the program, in the regions that are around it. -/
structure InPlace (program : Program) (l : Located) : Prop where
  lt_size : l.1 < program.size
  opened : l.2.opened.map Prod.fst = enclosing program l.1

/-- Marks for all addresses of a program, and threads that are in place. -/
structure Ready (program : Program) (marks : Array Nat) (waiting : List Located) : Prop where
  size : marks.size = program.size
  inPlace : ∀ l ∈ waiting, InPlace program l

variable {position stamp : Nat} {marks : Array Nat} {t : Thread} {waiting pending : List Located}

/-- A thread in place is not lost, and goes on to places. -/
theorem InPlace.successors? (h : InPlace p.program (pc, t)) (hi : p.program[pc]? = some i)
    (position : Nat) : ∃ next, successors? i pc position t = some next ∧
      Lockstep.successors i pc position t.plain = next.map plain ∧
      ∀ l ∈ next, InPlace p.program l := by
  have opened := h.opened
  have place : ∀ {target} {u : Thread}, target ∈ i.targets pc →
      u.opened.map Prod.fst = regionsBehind pc (enclosing p.program pc) i →
      InPlace p.program (target, u) := by
    intro target u ht hu
    exact ⟨program_target_lt hi ht, hu.trans ((nested_program p).enclosing_target hi ht).symm⟩
  cases i with
  | token | fail | done => exact ⟨[], rfl, rfl, nofun⟩
  | jump target =>
    exact ⟨_, rfl, rfl, List.forall_mem_singleton.mpr (place List.mem_cons_self opened)⟩
  | split first second =>
    refine ⟨_, rfl, rfl, List.forall_mem_cons.mpr ⟨place List.mem_cons_self opened, ?_⟩⟩
    exact List.forall_mem_singleton.mpr (place (by simp [Instruction.targets]) opened)
  | enter =>
    refine ⟨_, rfl, rfl, List.forall_mem_singleton.mpr (place List.mem_cons_self ?_)⟩
    rw [List.map_cons, opened]
    rfl
  | leave entered label =>
    -- the nesting says which region is the innermost one, and so that there is one
    have respects : enclosing p.program pc = entered :: enclosing p.program (pc + 1) :=
      nested_program p pc _ hi
    obtain ⟨opened', spans⟩ := t
    cases opened' with
    | nil => rw [respects] at opened; cases opened
    | cons region rest =>
      rw [respects, List.map_cons] at opened
      obtain ⟨hentered, hrest⟩ := List.cons.inj opened
      refine ⟨_, if_pos hentered, rfl, List.forall_mem_singleton.mpr ?_⟩
      refine place List.mem_cons_self ?_
      rw [respects]
      exact hrest

/-- A thread in place can be marked as seen, and put to those that wait. -/
theorem Ready.mark (hready : Ready program marks waiting) (h : pc < marks.size)
    (hplace : InPlace program (pc, t)) (i : Instruction) :
    Ready program (marks.set pc stamp h) (if isWaiting i then (pc, t) :: waiting else waiting) := by
  refine ⟨by rw [Array.size_set, hready.size], ?_⟩
  split
  · exact List.forall_mem_cons.mpr ⟨hplace, hready.inPlace⟩
  · exact hready.inPlace

/-- Following threads that are in place loses none of them. -/
theorem follow?_eq (position stamp : Nat) (hready : Ready p.program marks waiting)
    (hpending : ∀ l ∈ pending, InPlace p.program l) : ∃ marks' waiting',
      follow? p.program position stamp marks waiting pending = some (marks', waiting') ∧
      Lockstep.follow p.program position stamp marks (waiting.map plain) (pending.map plain) =
        (marks', waiting'.map plain) ∧ Ready p.program marks' waiting' := by
  induction marks, waiting, pending using follow?.induct p.program position stamp with
  | case1 marks waiting =>
    refine ⟨marks, waiting, by rw [follow?], ?_, hready⟩
    rw [List.map_nil, follow_nil]
  | case2 marks waiting pc t rest h hm ih =>
    obtain ⟨marks', waiting', heq, hplain, hready'⟩ :=
      ih hready (List.forall_mem_cons.mp hpending).2
    refine ⟨marks', waiting', ?_, ?_, hready'⟩
    · rw [follow?, dif_pos h, dif_pos hm, heq]
    · rw [List.map_cons, follow_stale ((stale_iff_of_lt h).mpr hm), hplain]
  | case3 marks waiting pc t rest h hm hi =>
    -- what is in place has an instruction
    have hlt := (List.forall_mem_cons.mp hpending).1.lt_size
    rw [Array.getElem?_eq_getElem hlt] at hi
    cases hi
  | case4 marks waiting pc t rest h hm i hi hnext =>
    -- and the instruction does not lack an open region
    obtain ⟨next, heq, -⟩ := (List.forall_mem_cons.mp hpending).1.successors? hi position
    rw [hnext] at heq
    cases heq
  | case5 marks waiting pc t rest h hm i hi next hnext ih =>
    obtain ⟨hplace, hrest⟩ := List.forall_mem_cons.mp hpending
    obtain ⟨next', hnext', hsuccessors, hin⟩ := hplace.successors? hi position
    obtain rfl := Option.some.inj (hnext.symm.trans hnext')
    have fresh : ¬ Stale stamp marks pc := fun hs => hm ((stale_iff_of_lt h).mp hs)
    have hset : marks.setIfInBounds pc stamp = marks.set pc stamp h := by
      rw [Array.setIfInBounds, dif_pos h]
    have hwaiting : (if waits p.program (plain (pc, t)) then plain (pc, t) :: waiting.map plain
        else waiting.map plain) =
          (if isWaiting i then (pc, t) :: waiting else waiting).map plain := by
      simp only [waits, plain, hi]
      split
      · rfl
      · rfl
    have honward : onward p.program position (plain (pc, t)) = next.map plain := by
      rw [onward, plain, hi]
      exact hsuccessors
    obtain ⟨marks', waiting', heq, hplain, hready'⟩ :=
      ih (hready.mark h hplace i) (List.forall_mem_append.mpr ⟨hin, hrest⟩)
    refine ⟨marks', waiting', ?_, ?_, hready'⟩
    · rw [follow?, dif_pos h, dif_neg hm]
      simp only [hi, hnext]
      exact heq
    · rw [List.map_cons, follow_fresh fresh, hwaiting, honward, ← List.map_append, ← hplain,
        ← hset]
      rfl
  | case6 marks waiting pc t rest h =>
    have hlt := (List.forall_mem_cons.mp hpending).1.lt_size
    rw [hready.size] at h
    exact absurd hlt h

/-- Letting threads that are in place consume a token loses none of them. -/
theorem consume?_eq (position : Nat) (token : Token) (hready : Ready p.program marks waiting)
    (hpending : ∀ l ∈ pending, InPlace p.program l) : ∃ marks' waiting',
      consume? p.program position token marks waiting pending = some (marks', waiting') ∧
      Lockstep.consume p.program position token marks (waiting.map plain) (pending.map plain) =
        (marks', waiting'.map plain) ∧ Ready p.program marks' waiting' := by
  induction pending generalizing marks waiting with
  | nil => exact ⟨marks, waiting, rfl, rfl, hready⟩
  | cons l rest ih =>
    obtain ⟨pc, t⟩ := l
    obtain ⟨hplace, hrest⟩ := List.forall_mem_cons.mp hpending
    obtain ⟨i, hi⟩ : ∃ i, p.program[pc]? = some i := ⟨_, Array.getElem?_eq_getElem hplace.lt_size⟩
    rw [consume?, List.map_cons, plain, Lockstep.consume]
    simp only [hi]
    cases i with
    | token accepted =>
      dsimp only
      split
      case isFalse => exact ih hready hrest
      case isTrue =>
        -- the token is followed by an instruction in the same regions
        have hnext : InPlace p.program (pc + 1, t) :=
          ⟨program_target_lt hi List.mem_cons_self,
            hplace.opened.trans (nested_program p pc _ hi).symm⟩
        obtain ⟨marks', waiting', heq, hplain, hready'⟩ :=
          follow?_eq (position + 1) (position + 2) hready (List.forall_mem_singleton.mpr hnext)
        rw [heq]
        rw [List.map_singleton] at hplain
        rw [show Lockstep.follow p.program (position + 1) (position + 2) marks (waiting.map plain)
          [(pc + 1, t.plain)] = (marks', waiting'.map plain) from hplain]
        exact ih hready' hrest
    | split | jump | enter | leave | fail | done => exact ih hready hrest

theorem Ready.reverse (h : Ready program marks waiting) : Ready program marks waiting.reverse :=
  ⟨h.size, fun l hl => h.inPlace l (List.mem_reverse.mp hl)⟩

/-- Running threads that are in place loses none of them. -/
theorem advance?_eq (hready : Ready p.program marks waiting) (tokens : List Token) :
    advance? p.program position marks waiting tokens =
      some (Lockstep.advance p.program position marks (waiting.map plain) tokens) := by
  induction tokens generalizing position marks waiting with
  | nil => rfl
  | cons token tokens ih =>
    have idle : Ready p.program marks [] := ⟨hready.size, List.forall_mem_nil _⟩
    obtain ⟨marks', next, heq, hplain, hready'⟩ := consume?_eq position token idle hready.inPlace
    rw [advance?, Lockstep.advance, List.isEmpty_map]
    split
    · rfl
    · rw [List.map_nil] at hplain
      rw [heq, hplain]
      dsimp only
      rw [← List.map_reverse]
      exact ih hready'.reverse

theorem run?_eq (p : Pattern) (tokens : List Token) :
    run? p.program tokens = some (Lockstep.run p.program tokens) := by
  have start : InPlace p.program (0, ⟨[], []⟩) := by
    refine ⟨?_, rfl⟩
    rw [size_program]
    exact Nat.succ_pos _
  have unmarked : Ready p.program (Array.replicate p.program.size 0) [] :=
    ⟨Array.size_replicate, List.forall_mem_nil _⟩
  obtain ⟨marks, waiting, heq, hplain, hready⟩ :=
    follow?_eq 0 1 unmarked (List.forall_mem_singleton.mpr start)
  rw [List.map_singleton, List.map_nil] at hplain
  have hplain' : Lockstep.follow p.program 0 1 (Array.replicate p.program.size 0) []
      [(0, ⟨[], []⟩)] = (marks, waiting.map plain) := hplain
  rw [run?, heq, Lockstep.run, hplain']
  dsimp only
  rw [← List.map_reverse]
  exact advance?_eq hready.reverse tokens

end Guarded

/-- The program of a pattern is put together properly, and a run of it loses no thread, whatever the
tokens are. -/
theorem program_wellFormed (p : Pattern) : (∃ depth, WellFormed p depth) ∧
    ∀ tokens, Guarded.run? p.program tokens = some (Lockstep.run p.program tokens) :=
  ⟨⟨_, wellFormed_program p⟩, Guarded.run?_eq p⟩

end Lockstep

end ContentGrammar
