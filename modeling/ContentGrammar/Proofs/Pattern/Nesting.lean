import ContentGrammar.Proofs.Pattern.Layout

/-!
# Nesting of regions in programs

`enclosing program pc` lists the entrances of the regions around an address, innermost first, by
reading the program up to there. `nested_program` says that in the program of a pattern this is what
a run sees as well: every instruction goes on to addresses with the same regions around them, but
for entrances and exits, and an exit leaves the innermost region.
-/

namespace ContentGrammar

namespace Lockstep

/-- The regions around what is behind an instruction, if `outer` are those around it. -/
def regionsBehind (pc : Nat) (outer : List Nat) : Instruction → List Nat
  | .enter => pc :: outer
  | .leave _ _ => outer.tail
  | _ => outer

/-- The addresses of the entrances of the regions around an address, innermost first. -/
def enclosing (program : Program) : Nat → List Nat
  | 0 => []
  | pc + 1 =>
    match program[pc]? with
    | some i => regionsBehind pc (enclosing program pc) i
    | none => enclosing program pc

/-- An instruction goes on to addresses within the program, and they have the regions around them
that the instruction says. -/
def Respects (program : Program) (pc : Nat) : Instruction → Prop
  | .token _ => enclosing program (pc + 1) = enclosing program pc
  | .split first second => enclosing program first = enclosing program pc ∧
      enclosing program second = enclosing program pc
  | .jump target => enclosing program target = enclosing program pc
  | .enter => enclosing program (pc + 1) = pc :: enclosing program pc
  | .leave entered _ => enclosing program pc = entered :: enclosing program (pc + 1)
  | .fail => True
  | .done => enclosing program pc = []

/-- All instructions of a program respect the nesting of regions. -/
def Nested (program : Program) : Prop := ∀ pc i, program[pc]? = some i → Respects program pc i

variable {program : Program} {base : Nat}

/-- Only entrances and exits change what is around an address. -/
theorem enclosing_succ {pc : Nat} {i : Instruction} (h : program[pc]? = some i) :
    enclosing program (pc + 1) = regionsBehind pc (enclosing program pc) i := by
  rw [enclosing, h]

/-- All instructions of a piece of code respect the nesting. -/
def AllRespect (program : Program) (base : Nat) (code : List Instruction) : Prop :=
  ∀ n i, code[n]? = some i → Respects program (base + n) i

theorem AllRespect.single {i : Instruction} (hi : Respects program base i) :
    AllRespect program base [i] := throughout_singleton_iff.mpr hi

theorem AllRespect.append {code more : List Instruction} (h : AllRespect program base code)
    (h' : AllRespect program (base + code.length) more) :
    AllRespect program base (code ++ more) := throughout_append_iff.mpr ⟨h, h'⟩

/-- A piece of code respects the nesting, and what is behind it is in the same regions as what is
in front of it. -/
structure Level (program : Program) (base : Nat) (code : List Instruction) : Prop where
  respects : AllRespect program base code
  closed : enclosing program (base + code.length) = enclosing program base

theorem Level.nil : Level program base [] := ⟨fun n i h => by simp at h, rfl⟩

/-- Pieces of level code one behind the other are level. -/
theorem Level.append {code more : List Instruction} (h : Level program base code)
    (h' : Level program (base + code.length) more) : Level program base (code ++ more) := by
  refine ⟨h.respects.append h'.respects, ?_⟩
  rw [List.length_append, ← Nat.add_assoc, h'.closed, h.closed]

/-- An instruction between whose address and the next one no region is entered or left. -/
theorem Level.cons {i : Instruction} {code : List Instruction} (hi : Respects program base i)
    (hstep : enclosing program (base + 1) = enclosing program base)
    (h : Level program (base + 1) code) : Level program base (i :: code) := by
  have single : Level program base [i] := ⟨.single hi, hstep⟩
  exact single.append h

open Pattern

/-- Code of a pattern that is level wherever it stands. -/
def LevelItem (program : Program) (p : Pattern) : Prop :=
  ∀ base, Placed program base (p.code base) → Level program base (p.code base)

variable {p : Pattern}

/-- Copies one behind the other are level. -/
theorem level_copies (hp : LevelItem program p) (count : Nat)
    (h : Placed program base (copies (p.code ·) p.codeSize base count)) :
    Level program base (copies (p.code ·) p.codeSize base count) := by
  induction count generalizing base with
  | zero => exact .nil
  | succ count ih =>
    rw [copies] at h ⊢
    refine (hp base h.left).append ?_
    rw [length_code]
    exact ih (by simpa using h.right)

/-- The exit `stop` of optional copies is behind the last one of them. -/
theorem level_optionalCopies (hp : LevelItem program p) (count : Nat) {stop : Nat}
    (hstop : stop = base + count * (p.codeSize + 1))
    (h : Placed program base (optionalCopies (p.code ·) p.codeSize stop base count)) :
    Level program base (optionalCopies (p.code ·) p.codeSize stop base count) := by
  induction count generalizing base with
  | zero => exact .nil
  | succ count ih =>
    rw [optionalCopies, List.cons_append] at h ⊢
    have hsplit : enclosing program (base + 1) = enclosing program base := enclosing_succ h.head
    have first := hp (base + 1) h.tail.left
    -- all copies have the same exit, so it is the one of those that are left
    have others : Level program (base + 1 + p.codeSize)
        (optionalCopies (p.code ·) p.codeSize stop (base + 1 + p.codeSize) count) := by
      refine ih ?_ (by simpa using h.tail.right)
      rw [hstop, Nat.succ_mul]
      omega
    have inner := first.append (by rwa [length_code])
    refine Level.cons ⟨hsplit, ?_⟩ hsplit inner
    have hend := inner.closed
    rw [List.length_append, length_code, length_optionalCopies (length_code p)] at hend
    rw [← hsplit, ← hend, hstop, Nat.succ_mul]
    congr 1
    omega

/-- The jump back of a loop comes to as many regions as there were at the split. -/
theorem level_loop (hp : LevelItem program p)
    (h : Placed program base (loop (p.code ·) p.codeSize base)) :
    Level program base (loop (p.code ·) p.codeSize base) := by
  rw [loop, List.cons_append] at h ⊢
  have hsplit : enclosing program (base + 1) = enclosing program base := enclosing_succ h.head
  have item := hp (base + 1) h.tail.left
  have hitem := item.closed
  rw [length_code] at hitem
  have back : program[base + 1 + p.codeSize]? = some (.jump base) := by
    simpa using h.tail.right.head
  have hback : enclosing program (base + 1 + p.codeSize + 1) =
      enclosing program (base + 1 + p.codeSize) := enclosing_succ back
  have jump : Level program (base + 1 + p.codeSize) [.jump base] :=
    Level.cons (by rw [Respects, hitem, hsplit]) hback .nil
  refine Level.cons ⟨hsplit, ?_⟩ hsplit (item.append (by rwa [length_code]))
  rw [← hsplit, ← hitem, ← hback]
  congr 1
  omega

/-- Code of parts in a row is level if that of each part is. -/
theorem level_sequenceCode {ps : List Pattern} (hps : ∀ p ∈ ps, LevelItem program p)
    (h : Placed program base (sequenceCode base ps)) :
    Level program base (sequenceCode base ps) := by
  induction ps generalizing base with
  | nil => exact .nil
  | cons p ps ih =>
    rw [sequenceCode] at h ⊢
    refine (hps p List.mem_cons_self base h.left).append ?_
    rw [length_code]
    exact ih (fun q hq => hps q (List.mem_cons_of_mem _ hq)) (by simpa using h.right)

/-- All alternatives come to the same regions as there were before the choice. -/
theorem level_choiceCode {ps : List Pattern} (hps : ∀ p ∈ ps, LevelItem program p)
    (h : Placed program base (choiceCode base ps)) :
    Level program base (choiceCode base ps) := by
  induction ps generalizing base with
  | nil => exact .cons trivial (enclosing_succ h.head) .nil
  | cons p ps ih =>
    have hp := hps p List.mem_cons_self
    cases ps with
    | nil => exact hp base h
    | cons q ps =>
      simp only [choiceCode, List.cons_append] at h ⊢
      have hsplit : enclosing program (base + 1) = enclosing program base := enclosing_succ h.head
      have first := hp (base + 1) h.tail.left
      have hfirst := first.closed
      have rest := h.tail.right
      rw [length_code] at rest hfirst
      have hnext : base + 1 + p.codeSize + 1 = base + p.codeSize + 2 := by omega
      have hout : enclosing program (base + p.codeSize + 2) =
          enclosing program (base + 1 + p.codeSize) := hnext ▸ enclosing_succ rest.head
      -- all alternatives end where the last one ends
      have others : Level program (base + p.codeSize + 2)
          (choiceCode (base + p.codeSize + 2) (q :: ps)) :=
        ih (fun r hr => hps r (List.mem_cons_of_mem _ hr)) (hnext ▸ rest.tail)
      have hend := others.closed
      rw [length_choiceCode (fun r _ => length_code r)] at hend
      refine Level.cons ⟨hsplit, by rw [hout, hfirst, hsplit]⟩ hsplit (first.append ?_)
      rw [length_code]
      exact Level.cons (by rw [Respects, hend, hout]) (by rw [hnext, hout]) (hnext ▸ others)

/-- A region is entered and left again. -/
theorem level_labeled (hp : LevelItem program p) {l : Label}
    (h : Placed program base ((Pattern.labeled l p).code base)) :
    Level program base ((Pattern.labeled l p).code base) := by
  rw [code, List.cons_append] at h ⊢
  have henter : enclosing program (base + 1) = base :: enclosing program base :=
    enclosing_succ h.head
  have item := hp (base + 1) h.tail.left
  have hitem := item.closed
  have exit := h.tail.right.head
  rw [length_code] at hitem exit
  -- the exit comes upon the regions that are there behind the entrance
  have hinside := hitem.trans henter
  have hend : enclosing program (base + 1 + p.codeSize + 1) = enclosing program base := by
    rw [enclosing_succ exit, hinside]
    rfl
  have entrance : AllRespect program base [.enter] := .single henter
  refine ⟨entrance.append (item.respects.append (.single ?_)), ?_⟩
  · rw [Respects, length_code]
    exact hinside.trans (congrArg _ hend.symm)
  · rw [List.length_cons, List.length_append, length_code, List.length_singleton, ← hend]
    congr 1
    omega

/-- The code of a pattern is level wherever it stands. -/
theorem level_code (p : Pattern) : LevelItem program p := by
  induction p with
  | empty =>
    intro base _
    exact .nil
  | token c =>
    intro base h
    have hstep := enclosing_succ h.head
    exact .cons hstep hstep .nil
  | sequence ps ih =>
    intro base h
    exact level_sequenceCode ih h
  | choice ps ih =>
    intro base h
    exact level_choiceCode ih h
  | repeated p least most ih =>
    intro base h
    have atLeast := level_copies ih least h.left
    have h := h.right
    have hlength := length_copies (length_code p) base least
    cases most with
    | none =>
      rw [hlength] at h
      exact atLeast.append (hlength.symm ▸ level_loop ih h)
    | some most =>
      rw [hlength] at h
      exact atLeast.append (hlength.symm ▸ level_optionalCopies ih (most - least) rfl h)
  | labeled l p ih =>
    intro base h
    exact level_labeled ih h

/-! ## Whole programs -/

theorem placed_program (p : Pattern) : Placed p.program 0 (p.code 0 ++ [.done]) := by
  intro n i hn
  rw [Nat.zero_add, Pattern.program, List.getElem?_toArray]
  exact hn

@[simp] theorem size_program (p : Pattern) : p.program.size = p.codeSize + 1 := by
  simp [Pattern.program]

theorem program_done (p : Pattern) : p.program[p.codeSize]? = some .done := by
  simpa using (placed_program p).right.head

/-- What holds throughout the code and of the end holds of all instructions of the program. -/
theorem throughout_program {P : Nat → Instruction → Prop} {p : Pattern}
    (hcode : Throughout P 0 (p.code 0)) (hdone : P p.codeSize .done) {pc : Nat} {i : Instruction}
    (h : p.program[pc]? = some i) : P pc i := by
  have whole : Throughout P 0 (p.code 0 ++ [.done]) := by
    refine throughout_append_iff.mpr ⟨hcode, throughout_singleton_iff.mpr ?_⟩
    rwa [length_code, Nat.zero_add]
  rw [Pattern.program, List.getElem?_toArray] at h
  simpa only [Nat.zero_add] using whole pc i h

/-- The program of a pattern respects the nesting of its regions. -/
theorem nested_program (p : Pattern) : Nested p.program := by
  have code := level_code p 0 (placed_program p).left
  intro pc i hpc
  refine throughout_program code.respects ?_ hpc
  simpa [Respects, enclosing] using code.closed

end Lockstep

end ContentGrammar
