import ContentGrammar.Proofs.Pattern.Code

/-!
# Where code comes from

The code of a pattern holds the code of its parts, that of a repeated part several times over, and a
few instructions between them:

* `Throughout P base code` — all instructions of a piece of code that stands at `base` are as `P`
  says. There is a lemma for each way to put code together;
* `Emits base p a q` — in the code of `p` at `base` there is the code of its part `q` at `a`;
* `Origin base p a i` — what an instruction has to do with the parts of the pattern. By
  `hasOrigins_code` each instruction has an origin, so whatever does not come from a part is a
  branch or a jump, and these stay within the code or go right behind it.
-/

namespace ContentGrammar

namespace Lockstep

open Pattern

/-- Where the patterns of a row stand if they are placed one behind the other. -/
inductive InSequence : Nat → List Pattern → Nat → Pattern → Prop
  | first {base p ps} : InSequence base (p :: ps) base p
  | behind {base p ps a q} : InSequence (base + p.codeSize) ps a q → InSequence base (p :: ps) a q

/-- Where the alternatives of a choice stand: the last one alone, each other one between a branch
and a jump. -/
inductive InChoice : Nat → List Pattern → Nat → Pattern → Prop
  | last {base p} : InChoice base [p] base p
  | first {base p q ps} : InChoice base (p :: q :: ps) (base + 1) p
  | behind {base p q ps a r} : InChoice (base + p.codeSize + 2) (q :: ps) a r →
      InChoice base (p :: q :: ps) a r

/-- In the code of a pattern that is placed at `base` there is the code of a part of it at `a`. -/
inductive Emits : Nat → Pattern → Nat → Pattern → Prop
  | here {base p} : Emits base p base p
  | sequence {base ps b p a q} : InSequence base ps b p → Emits b p a q →
      Emits base (.sequence ps) a q
  | choice {base ps b p a q} : InChoice base ps b p → Emits b p a q → Emits base (.choice ps) a q
  | copy {base p least most k a q} : k < least → Emits (base + k * p.codeSize) p a q →
      Emits base (.repeated p least most) a q
  | optionalCopy {base p least most k a q} : k < most - least →
      Emits (base + least * p.codeSize + k * (p.codeSize + 1) + 1) p a q →
      Emits base (.repeated p least (some most)) a q
  | loop {base p least a q} : Emits (base + least * p.codeSize + 1) p a q →
      Emits base (.repeated p least none) a q
  | labeled {base l p a q} : Emits (base + 1) p a q → Emits base (.labeled l p) a q

/-- What an instruction at `a` has to do with the pattern at `base` whose code it is in. -/
inductive Origin (base : Nat) (p : Pattern) : Nat → Instruction → Prop
  | token {a c} : Emits base p a (.token c) → Origin base p a (.token c)
  | split {a first second} : first ≤ base + p.codeSize → second ≤ base + p.codeSize →
      Origin base p a (.split first second)
  | jump {a target} : target ≤ base + p.codeSize → Origin base p a (.jump target)
  | enter {a l q} : Emits base p a (.labeled l q) → Origin base p a .enter
  | leave {a l q} : Emits base p a (.labeled l q) → Origin base p (a + 1 + q.codeSize) (.leave a l)
  | fail {a} : Emits base p a (.choice []) → Origin base p a .fail

/-! ## Instructions of a piece of code -/

/-- All instructions of a piece of code that stands at `base` are as `P` says. -/
def Throughout (P : Nat → Instruction → Prop) (base : Nat) (code : List Instruction) : Prop :=
  ∀ n i, code[n]? = some i → P (base + n) i

variable {P Q : Nat → Instruction → Prop} {base a b : Nat} {i : Instruction}
  {code more : List Instruction} {p q r : Pattern} {ps : List Pattern}

/-- What holds throughout a piece of code may be weakened. -/
theorem Throughout.imp (h : Throughout P base code) (hPQ : ∀ a i, P a i → Q a i) :
    Throughout Q base code := fun n i hn => hPQ _ _ (h n i hn)

theorem throughout_nil : Throughout P base [] := fun n i h => by simp at h

theorem throughout_cons_iff :
    Throughout P base (i :: code) ↔ P base i ∧ Throughout P (base + 1) code := by
  constructor
  · intro h
    refine ⟨h 0 i rfl, fun n j hn => ?_⟩
    rw [Nat.add_right_comm, Nat.add_assoc]
    exact h (n + 1) j hn
  · rintro ⟨hi, h⟩ n j hn
    cases n with
    | zero => exact Option.some.inj hn ▸ hi
    | succ n =>
      rw [← Nat.add_assoc, Nat.add_right_comm]
      exact h n j hn

theorem throughout_singleton_iff : Throughout P base [i] ↔ P base i := by
  rw [throughout_cons_iff, and_iff_left throughout_nil]

theorem throughout_append_iff : Throughout P base (code ++ more) ↔
    Throughout P base code ∧ Throughout P (base + code.length) more := by
  induction code generalizing base with
  | nil => simp [throughout_nil]
  | cons i code ih =>
    rw [List.cons_append, throughout_cons_iff, throughout_cons_iff, ih, List.length_cons, and_assoc,
      Nat.add_right_comm base 1, Nat.add_assoc base]

/-! ## Shapes of code -/

/-- Throughout copies is throughout each of them, where it stands. -/
theorem throughout_copies_iff {count : Nat} :
    Throughout P base (copies (p.code ·) p.codeSize base count) ↔
      ∀ k < count, Throughout P (base + k * p.codeSize) (p.code (base + k * p.codeSize)) := by
  induction count generalizing base with
  | zero => simp [copies, throughout_nil]
  | succ count ih =>
    have hshift : ∀ k, base + p.codeSize + k * p.codeSize = base + (k + 1) * p.codeSize := by
      intro k
      rw [Nat.succ_mul]
      omega
    rw [copies, throughout_append_iff, length_code, ih, Nat.forall_lt_succ_left]
    simp only [hshift, Nat.zero_mul, Nat.add_zero]

/-- Each of the copies that may be left out has a branch in front. -/
theorem throughout_optionalCopies_iff {stop count : Nat} :
    Throughout P base (optionalCopies (p.code ·) p.codeSize stop base count) ↔
      ∀ k < count,
        P (base + k * (p.codeSize + 1)) (.split (base + k * (p.codeSize + 1) + 1) stop) ∧
        Throughout P (base + k * (p.codeSize + 1) + 1)
          (p.code (base + k * (p.codeSize + 1) + 1)) := by
  induction count generalizing base with
  | zero => simp [optionalCopies, throughout_nil]
  | succ count ih =>
    have hshift : ∀ k, base + 1 + p.codeSize + k * (p.codeSize + 1) =
        base + (k + 1) * (p.codeSize + 1) := by
      intro k
      rw [Nat.succ_mul]
      omega
    rw [optionalCopies, List.cons_append, throughout_cons_iff, throughout_append_iff, length_code,
      ih, Nat.forall_lt_succ_left, ← and_assoc]
    simp only [hshift, Nat.zero_mul, Nat.add_zero]

/-- A loop is a branch, the item and a jump back. -/
theorem throughout_loop_iff : Throughout P base (loop (p.code ·) p.codeSize base) ↔
    P base (.split (base + 1) (base + p.codeSize + 2)) ∧
      Throughout P (base + 1) (p.code (base + 1)) ∧ P (base + 1 + p.codeSize) (.jump base) := by
  rw [loop, List.cons_append, throughout_cons_iff, throughout_append_iff, length_code,
    throughout_singleton_iff]

theorem throughout_labeled_iff {l : Label} :
    Throughout P base ((Pattern.labeled l p).code base) ↔
      P base .enter ∧ Throughout P (base + 1) (p.code (base + 1)) ∧
        P (base + 1 + p.codeSize) (.leave base l) := by
  rw [Pattern.code, List.cons_append, throughout_cons_iff, throughout_append_iff, length_code,
    throughout_singleton_iff]

/-- Throughout a sequence is throughout each part, where it stands. -/
theorem throughout_sequenceCode_iff : Throughout P base (sequenceCode base ps) ↔
    ∀ a p, InSequence base ps a p → Throughout P a (p.code a) := by
  induction ps generalizing base with
  | nil => exact iff_of_true throughout_nil (fun _ _ h => nomatch h)
  | cons q ps ih =>
    rw [sequenceCode, throughout_append_iff, length_code, ih]
    constructor
    · rintro ⟨first, others⟩ a p (_ | hp)
      · exact first
      · exact others a p hp
    · intro h
      exact ⟨h _ _ .first, fun a p hp => h a p (.behind hp)⟩

/-- The first of several alternatives, with the branch in front of it and the jump behind it. -/
theorem throughout_choiceCode_cons_iff : Throughout P base (choiceCode base (p :: q :: ps)) ↔
    P base (.split (base + 1) (base + p.codeSize + 2)) ∧
      Throughout P (base + 1) (p.code (base + 1)) ∧
      P (base + 1 + p.codeSize) (.jump (base + p.codeSize + 2 + choiceSize (q :: ps))) ∧
      Throughout P (base + p.codeSize + 2) (choiceCode (base + p.codeSize + 2) (q :: ps)) := by
  rw [choiceCode, List.cons_append, throughout_cons_iff, throughout_append_iff, length_code,
    throughout_cons_iff, show base + 1 + p.codeSize + 1 = base + p.codeSize + 2 by omega]
  exact List.cons_ne_nil _ _

theorem Throughout.of_inChoice (h : Throughout P base (choiceCode base ps))
    (hp : InChoice base ps a p) : Throughout P a (p.code a) := by
  induction hp with
  | last => exact h
  | first => exact (throughout_choiceCode_cons_iff.mp h).2.1
  | behind _ ih => exact ih (throughout_choiceCode_cons_iff.mp h).2.2.2

/-- Branches and jumps of a choice stay in front of its end or go there. -/
theorem throughout_choiceCode {stop : Nat} (hne : ps ≠ []) (hstop : base + choiceSize ps ≤ stop)
    (hsplit : ∀ a first second, first ≤ stop → second ≤ stop → P a (.split first second))
    (hjump : ∀ a target, target ≤ stop → P a (.jump target))
    (hps : ∀ a p, InChoice base ps a p → Throughout P a (p.code a)) :
    Throughout P base (choiceCode base ps) := by
  induction ps generalizing base with
  | nil => exact absurd rfl hne
  | cons p ps ih =>
    cases ps with
    | nil => exact hps base p .last
    | cons q ps =>
      have hsize : choiceSize (p :: q :: ps) = p.codeSize + 2 + choiceSize (q :: ps) := rfl
      refine throughout_choiceCode_cons_iff.mpr ⟨hsplit _ _ _ (by omega) (by omega),
        hps _ _ .first, hjump _ _ (by omega), ?_⟩
      exact ih (List.cons_ne_nil _ _) (by omega) fun a r hr => hps a r (.behind hr)

/-! ## Parts -/

theorem InSequence.mem (h : InSequence base ps a p) : p ∈ ps := by
  induction h with
  | first => exact List.mem_cons_self
  | behind _ ih => exact List.mem_cons_of_mem _ ih

theorem InChoice.mem (h : InChoice base ps a p) : p ∈ ps := by
  induction h with
  | last | first => exact List.mem_cons_self
  | behind _ ih => exact List.mem_cons_of_mem _ ih

theorem InSequence.le (h : InSequence base ps a p) :
    a + p.codeSize ≤ base + sequenceSize ps := by
  induction h with
  | first =>
    rw [sequenceSize]
    omega
  | behind _ ih =>
    rw [sequenceSize]
    omega

theorem InChoice.le (h : InChoice base ps a p) : a + p.codeSize ≤ base + choiceSize ps := by
  induction h with
  | last => exact Nat.le_refl _
  | first =>
    simp only [choiceSize]
    omega
  | behind _ ih =>
    simp only [choiceSize] at ih ⊢
    omega

/-- What is repeated `count` times takes up the room of `k` further items and one more. -/
theorem add_mul_add_le {k count : Nat} (h : k < count) (base size : Nat) :
    base + k * size + size ≤ base + count * size := by
  have := Nat.mul_le_mul_right size h
  rw [Nat.succ_mul] at this
  omega

/-- The code of a part ends where the code of the pattern ends or in front of that. -/
theorem Emits.le (h : Emits base p a q) : a + q.codeSize ≤ base + p.codeSize := by
  induction h with
  | here => exact Nat.le_refl _
  | sequence hp _ ih => exact Nat.le_trans ih hp.le
  | choice hp _ ih => exact Nat.le_trans ih hp.le
  | @copy base p least most k a q hk _ ih =>
    have := add_mul_add_le hk base p.codeSize
    cases most <;> simp only [codeSize] <;> omega
  | @optionalCopy base p least most k a q hk _ ih =>
    have := add_mul_add_le hk (base + least * p.codeSize) (p.codeSize + 1)
    simp only [codeSize]
    omega
  | loop _ ih =>
    simp only [codeSize]
    omega
  | labeled _ ih =>
    simp only [codeSize]
    omega

/-- The code of a part of a part is in the code of the pattern. -/
theorem Emits.trans (h : Emits base p b q) (h' : Emits b q a r) : Emits base p a r := by
  induction h with
  | here => exact h'
  | sequence hp _ ih => exact .sequence hp (ih h')
  | choice hp _ ih => exact .choice hp (ih h')
  | copy hk _ ih => exact .copy hk (ih h')
  | optionalCopy hk _ ih => exact .optionalCopy hk (ih h')
  | loop _ ih => exact .loop (ih h')
  | labeled _ ih => exact .labeled (ih h')

theorem throughout_repeated_none_iff {least : Nat} :
    Throughout P base ((Pattern.repeated p least none).code base) ↔
      Throughout P base (copies (p.code ·) p.codeSize base least) ∧
        Throughout P (base + least * p.codeSize)
          (loop (p.code ·) p.codeSize (base + least * p.codeSize)) := by
  rw [Pattern.code, throughout_append_iff, length_copies (length_code p)]

theorem throughout_repeated_some_iff {least most : Nat} :
    Throughout P base ((Pattern.repeated p least (some most)).code base) ↔
      Throughout P base (copies (p.code ·) p.codeSize base least) ∧
        Throughout P (base + least * p.codeSize) (optionalCopies (p.code ·) p.codeSize
          (base + least * p.codeSize + (most - least) * (p.codeSize + 1))
          (base + least * p.codeSize) (most - least)) := by
  rw [Pattern.code, throughout_append_iff, length_copies (length_code p)]

/-- What holds throughout the code of a pattern holds throughout that of its parts. -/
theorem Throughout.of_emits (h : Throughout P base (p.code base)) (hq : Emits base p a q) :
    Throughout P a (q.code a) := by
  induction hq with
  | here => exact h
  | sequence hp _ ih => exact ih (throughout_sequenceCode_iff.mp h _ _ hp)
  | choice hp _ ih => exact ih (h.of_inChoice hp)
  | @copy base p least most k a q hk _ ih =>
    refine ih (throughout_copies_iff.mp ?_ k hk)
    cases most with
    | none => exact (throughout_repeated_none_iff.mp h).1
    | some most => exact (throughout_repeated_some_iff.mp h).1
  | optionalCopy hk _ ih =>
    exact ih (throughout_optionalCopies_iff.mp (throughout_repeated_some_iff.mp h).2 _ hk).2
  | loop _ ih => exact ih (throughout_loop_iff.mp (throughout_repeated_none_iff.mp h).2).2.1
  | labeled _ ih => exact ih (throughout_labeled_iff.mp h).2.1

/-! ## Origins -/

/-- What comes from a part comes from the pattern. -/
theorem Origin.of_emits (h : Origin b q a i) (hq : Emits base p b q) : Origin base p a i := by
  have hle := hq.le
  cases h with
  | token h => exact .token (hq.trans h)
  | split hfirst hsecond => exact .split (Nat.le_trans hfirst hle) (Nat.le_trans hsecond hle)
  | jump htarget => exact .jump (Nat.le_trans htarget hle)
  | enter h => exact .enter (hq.trans h)
  | leave h => exact .leave (hq.trans h)
  | fail h => exact .fail (hq.trans h)

/-- All instructions of the code of a pattern have an origin. -/
def HasOrigins (p : Pattern) : Prop := ∀ base, Throughout (Origin base p) base (p.code base)

/-- The instructions of a part have their origins in the pattern too. -/
theorem HasOrigins.part (hq : HasOrigins q) (h : Emits base p b q) :
    Throughout (Origin base p) b (q.code b) := (hq b).imp fun _ _ ho => ho.of_emits h

theorem hasOrigins_choice (hps : ∀ p ∈ ps, HasOrigins p) : HasOrigins (.choice ps) := by
  intro base
  cases ps with
  | nil => exact throughout_singleton_iff.mpr (.fail .here)
  | cons p ps =>
    have hsize : codeSize (.choice (p :: ps)) = choiceSize (p :: ps) := by rw [codeSize]
    refine throughout_choiceCode (List.cons_ne_nil _ _) (Nat.le_of_eq (by rw [hsize]))
      (fun _ _ _ => .split) (fun _ _ => .jump) ?_
    exact fun a q hq => (hps q hq.mem).part (.choice hq .here)

theorem hasOrigins_loop {least : Nat} (hp : HasOrigins p) : HasOrigins (.repeated p least none) := by
  intro base
  have hsize : codeSize (.repeated p least none) = least * p.codeSize + p.codeSize + 2 := by
    rw [codeSize]
  refine throughout_repeated_none_iff.mpr ⟨?_, ?_⟩
  · exact throughout_copies_iff.mpr fun k hk => hp.part (.copy hk .here)
  · exact throughout_loop_iff.mpr
      ⟨.split (by omega) (by omega), hp.part (.loop .here), .jump (by omega)⟩

theorem hasOrigins_optionalCopies {least most : Nat} (hp : HasOrigins p) :
    HasOrigins (.repeated p least (some most)) := by
  intro base
  have hsize : codeSize (.repeated p least (some most)) =
      least * p.codeSize + (most - least) * (p.codeSize + 1) := by rw [codeSize]
  refine throughout_repeated_some_iff.mpr ⟨?_, throughout_optionalCopies_iff.mpr fun k hk => ?_⟩
  · exact throughout_copies_iff.mpr fun k hk => hp.part (.copy hk .here)
  · have hk' := add_mul_add_le hk (base + least * p.codeSize) (p.codeSize + 1)
    exact ⟨.split (by omega) (by omega), hp.part (.optionalCopy hk .here)⟩

/-- Nothing is in the code of a pattern but what comes from its parts, and branches and jumps. -/
theorem hasOrigins_code (p : Pattern) : HasOrigins p := by
  induction p with
  | empty => exact fun base => throughout_nil
  | token c => exact fun base => throughout_singleton_iff.mpr (.token .here)
  | sequence ps ih =>
    intro base
    exact throughout_sequenceCode_iff.mpr fun a q hq => (ih q hq.mem).part (.sequence hq .here)
  | choice ps ih => exact hasOrigins_choice ih
  | repeated p least most ih =>
    cases most with
    | none => exact hasOrigins_loop ih
    | some most => exact hasOrigins_optionalCopies ih
  | labeled l p ih =>
    intro base
    exact throughout_labeled_iff.mpr ⟨.enter .here, ih.part (.labeled .here), .leave .here⟩

end Lockstep

end ContentGrammar
