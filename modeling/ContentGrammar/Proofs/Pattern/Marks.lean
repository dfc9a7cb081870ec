import Mathlib.Data.Set.Function
import ContentGrammar.Proofs.Model.Language

/-!
# Patterns up to marks

Marks tell the exclusions of one pattern apart and say nothing else, so two patterns are as good as
each other if one comes from the other by renaming marks one to one (`Pattern.Alike`). Where the same
inherited pattern is used several times its marks stay the same throughout, which a renaming keeps.

* `run?_mapMarks` — matching a renamed pattern gives the renamed regions;
* `compile_alike` — what is compiled next to patterns that are alike is alike.
-/

namespace ContentGrammar

open Lockstep

/-- The mark of a label, if it has one. -/
def Label.marks : Label → List Nat
  | .transparent => []
  | .exclusion mark _ => [mark]

theorem Label.marks_mapMark (f : Nat → Nat) (l : Label) : (l.mapMark f).marks = l.marks.map f := by
  cases l <;> rfl

namespace Pattern

mutual

/-- The marks in a pattern. -/
def marks : Pattern → List Nat
  | .empty | .token _ => []
  | .sequence ps | .choice ps => marksAll ps
  | .repeated p _ _ => p.marks
  | .labeled l p => l.marks ++ p.marks

/-- The marks in several patterns. -/
def marksAll : List Pattern → List Nat
  | [] => []
  | p :: ps => p.marks ++ marksAll ps

end

variable {p q : Pattern} {ps : List Pattern} {f g : Nat → Nat} {n : Nat}

theorem mem_marksAll : n ∈ marksAll ps ↔ ∃ p ∈ ps, n ∈ p.marks := by
  induction ps with
  | nil => simp [marksAll]
  | cons p ps ih => simp [marksAll, ih]

theorem mapMarksAll_eq_map (f : Nat → Nat) (ps : List Pattern) :
    mapMarksAll f ps = ps.map (mapMarks f) := by
  induction ps with
  | nil => rfl
  | cons p ps ih => rw [mapMarksAll, ih, List.map_cons]

theorem freshMark_le_freshMarkAll (h : p ∈ ps) : p.freshMark ≤ freshMarkAll ps := by
  induction ps with
  | nil => cases h
  | cons q ps ih =>
    rw [freshMarkAll]
    rcases List.mem_cons.mp h with rfl | h
    · exact Nat.le_max_left _ _
    · exact Nat.le_trans (ih h) (Nat.le_max_right _ _)

/-- A fresh mark is larger than all that a pattern has. -/
theorem lt_freshMark_of_mem (h : n ∈ p.marks) : n < p.freshMark := by
  induction p with
  | empty | token c => cases h
  | sequence ps ih | choice ps ih =>
    obtain ⟨p, hp, hn⟩ := mem_marksAll.mp h
    exact Nat.lt_of_lt_of_le (ih p hp hn) (freshMark_le_freshMarkAll hp)
  | repeated p least most ih => exact ih h
  | labeled l p ih =>
    cases l with
    | transparent => exact ih h
    | exclusion mark x =>
      rw [freshMark]
      rcases List.mem_cons.mp h with rfl | h
      · exact Nat.le_max_left _ _
      · exact Nat.lt_of_lt_of_le (ih h) (Nat.le_max_right _ _)

/-! ## Renaming -/

/-- A renaming matters only at the marks of the pattern. -/
theorem mapMarks_congr (h : ∀ n ∈ p.marks, f n = g n) : p.mapMarks f = p.mapMarks g := by
  induction p with
  | empty | token c => rfl
  | sequence ps ih | choice ps ih =>
    rw [mapMarks, mapMarks, mapMarksAll_eq_map, mapMarksAll_eq_map]
    have hps : ps.map (mapMarks f) = ps.map (mapMarks g) := List.map_congr_left fun p hp =>
      ih p hp fun n hn => h n (mem_marksAll.mpr ⟨p, hp, hn⟩)
    rw [hps]
  | repeated p least most ih => rw [mapMarks, mapMarks, ih h]
  | labeled l p ih =>
    rw [mapMarks, mapMarks, ih fun n hn => h n (List.mem_append_right _ hn)]
    cases l with
    | transparent => rfl
    | exclusion mark x => rw [Label.mapMark, Label.mapMark, h mark List.mem_cons_self]

theorem mapMarks_id (p : Pattern) : p.mapMarks id = p := by
  induction p with
  | empty | token c => rfl
  | sequence ps ih | choice ps ih =>
    rw [mapMarks, mapMarksAll_eq_map, List.map_congr_left ih, List.map_id']
  | repeated p least most ih => rw [mapMarks, ih]
  | labeled l p ih =>
    rw [mapMarks, ih]
    cases l <;> rfl

theorem mapMarks_mapMarks (f g : Nat → Nat) (p : Pattern) :
    (p.mapMarks f).mapMarks g = p.mapMarks (g ∘ f) := by
  induction p with
  | empty | token c => rfl
  | sequence ps ih | choice ps ih =>
    simp only [mapMarks, mapMarksAll_eq_map, List.map_map]
    have hps : ps.map (mapMarks g ∘ mapMarks f) = ps.map (mapMarks (g ∘ f)) :=
      List.map_congr_left ih
    rw [hps]
  | repeated p least most ih => rw [mapMarks, mapMarks, ih, mapMarks]
  | labeled l p ih =>
    rw [mapMarks, mapMarks, ih, mapMarks]
    cases l <;> rfl

theorem marks_mapMarks (f : Nat → Nat) (p : Pattern) : (p.mapMarks f).marks = p.marks.map f := by
  have hall : ∀ {ps : List Pattern}, (∀ p ∈ ps, (p.mapMarks f).marks = p.marks.map f) →
      marksAll (mapMarksAll f ps) = (marksAll ps).map f := by
    intro ps hps
    induction ps with
    | nil => rfl
    | cons p ps ih =>
      rw [mapMarksAll, marksAll, marksAll, hps p List.mem_cons_self,
        ih fun q hq => hps q (List.mem_cons_of_mem _ hq), List.map_append]
  induction p with
  | empty | token c => rfl
  | sequence ps ih | choice ps ih => exact hall ih
  | repeated p least most ih => exact ih
  | labeled l p ih => rw [mapMarks, marks, marks, ih, Label.marks_mapMark, List.map_append]

/-- Two patterns are alike if one comes from the other by renaming marks one to one. -/
def Alike (p q : Pattern) : Prop :=
  ∃ f : Nat → Nat, Set.InjOn f {n | n ∈ p.marks} ∧ q = p.mapMarks f

theorem Alike.refl (p : Pattern) : p.Alike p :=
  ⟨id, Set.injOn_id _, (mapMarks_id p).symm⟩

/-- Renamings one to one can be done one after the other. -/
theorem Alike.trans {r : Pattern} (hpq : p.Alike q) (hqr : q.Alike r) : p.Alike r := by
  obtain ⟨f, hf, rfl⟩ := hpq
  obtain ⟨g, hg, rfl⟩ := hqr
  refine ⟨g ∘ f, hg.comp hf fun n hn => ?_, mapMarks_mapMarks f g p⟩
  show f n ∈ (p.mapMarks f).marks
  rw [marks_mapMarks]
  exact List.mem_map_of_mem hn

end Pattern

/-- Two results are alike if they are the same error, or patterns that are alike. -/
inductive AlikeResult : Except ModelError Pattern → Except ModelError Pattern → Prop
  | ok {p q : Pattern} : p.Alike q → AlikeResult (.ok p) (.ok q)
  | error (e : ModelError) : AlikeResult (.error e) (.error e)

/-! ## Compiling -/

namespace Model

variable {sets : Category.Sets} {parent parent' : Option Pattern} {next after n : Nat}
  {p : Pattern} {r : Except ModelError Pattern}

/-- What is compiled one after the other has inherited marks and new ones. -/
theorem marks_compileAllFrom {ms : List Model} {ps : List Pattern}
    (hms : ∀ m ∈ ms, ∀ next p after, m.compileFrom sets parent next = .ok (p, after) →
      n ∈ p.marks → (∃ q, parent = some q ∧ n ∈ q.marks) ∨ next ≤ n)
    (h : compileAllFrom sets parent next ms = .ok (ps, after)) (hn : n ∈ Pattern.marksAll ps) :
    (∃ q, parent = some q ∧ n ∈ q.marks) ∨ next ≤ n := by
  induction ms generalizing next ps after with
  | nil =>
    obtain ⟨rfl, -⟩ := Prod.mk.inj (Except.ok.inj h)
    cases hn
  | cons m ms ih =>
    rw [compileAllFrom] at h
    obtain ⟨⟨p, middle⟩, hp, h⟩ := ok_of_bind h
    obtain ⟨⟨qs, last⟩, hqs, h⟩ := ok_of_bind h
    obtain ⟨rfl, -⟩ := Prod.mk.inj (Except.ok.inj h)
    rcases List.mem_append.mp hn with hn | hn
    · exact hms m List.mem_cons_self _ _ _ hp hn
    · have hrest := ih (fun n hn => hms n (List.mem_cons_of_mem _ hn)) hqs hn
      exact hrest.imp_right (Nat.le_trans (le_of_compileFrom hp))

/-- The marks of a compiled pattern are inherited or new. -/
theorem marks_compileFrom {m : Model} (h : m.compileFrom sets parent next = .ok (p, after))
    (hn : n ∈ p.marks) : (∃ q, parent = some q ∧ n ∈ q.marks) ∨ next ≤ n := by
  induction m generalizing next p after with
  | any | tag name | text =>
    obtain ⟨rfl, -⟩ := Prod.mk.inj (Except.ok.inj h)
    cases hn
  | category name =>
    obtain ⟨members, -, h⟩ := ok_of_bind h
    obtain ⟨rfl, -⟩ := Prod.mk.inj (Except.ok.inj h)
    cases hn
  | sequence ms ih =>
    rw [compileFrom] at h
    obtain ⟨⟨ps, last⟩, hps, h⟩ := ok_of_bind h
    obtain ⟨rfl, -⟩ := Prod.mk.inj (Except.ok.inj h)
    exact marks_compileAllFrom (fun m hm _ _ _ h => ih m hm h) hps hn
  | choice ms ih =>
    rw [compileFrom] at h
    split at h
    · cases h
    · obtain ⟨⟨ps, last⟩, hps, h⟩ := ok_of_bind h
      obtain ⟨rfl, -⟩ := Prod.mk.inj (Except.ok.inj h)
      exact marks_compileAllFrom (fun m hm _ _ _ h => ih m hm h) hps hn
  | optional m ih | repeated m least most ih =>
    rw [compileFrom] at h
    obtain ⟨⟨q, last⟩, hq, h⟩ := ok_of_bind h
    obtain ⟨rfl, -⟩ := Prod.mk.inj (Except.ok.inj h)
    exact ih hq hn
  | transparent =>
    cases parent with
    | none => cases h
    | some q =>
      obtain ⟨rfl, -⟩ := Prod.mk.inj (Except.ok.inj h)
      exact .inl ⟨q, rfl, hn⟩
  | excluding scope targets ih =>
    rw [compileFrom] at h
    obtain ⟨forbidden, -, h⟩ := ok_of_bind h
    obtain ⟨⟨q, last⟩, hq, h⟩ := ok_of_bind h
    obtain ⟨rfl, -⟩ := Prod.mk.inj (Except.ok.inj h)
    -- the mark of the exclusion is the first free one, and those in its scope come after it
    rcases List.mem_cons.mp hn with rfl | hn
    · exact .inr (Nat.le_refl _)
    · exact (ih hq hn).imp_right Nat.le_of_succ_le

/-- What is compiled next to patterns that are alike is alike. -/
theorem compile_alike (h : Option.Rel Pattern.Alike parent parent') (m : Model) :
    AlikeResult (m.compile sets parent) (m.compile sets parent') := by
  cases h with
  | none =>
    cases m.compile sets none with
    | error e => exact .error e
    | ok q => exact .ok (.refl q)
  | @some q q' hq =>
    obtain ⟨f, hf, rfl⟩ := hq
    -- inherited marks are renamed by `f`; new ones move along with the first free mark
    let g (n : Nat) : Nat :=
      if n < q.freshMark then f n else n - q.freshMark + (q.mapMarks f).freshMark
    have hold : ∀ n ∈ q.marks, g n = f n := fun n hn => if_pos (Pattern.lt_freshMark_of_mem hn)
    have hnew : ∀ n, q.freshMark ≤ n → g n = n - q.freshMark + (q.mapMarks f).freshMark :=
      fun n hn => if_neg (Nat.not_lt_of_le hn)
    have hfrom : m.compileFrom sets (some (q.mapMarks f)) (g q.freshMark) =
        (m.compileFrom sets (some q) q.freshMark).map fun r => (r.1.mapMarks g, g r.2) := by
      refine compileFrom_mapMarks (fun n hn => ?_) (fun _ => ?_)
        (Nat.le_refl _)
      · rw [hnew n hn, hnew (n + 1) (Nat.le_succ_of_le hn)]
        omega
      · rw [Option.map_some, Pattern.mapMarks_congr hold]
    rw [hnew _ (Nat.le_refl _), Nat.sub_self, Nat.zero_add] at hfrom
    rw [compile, compile, Option.map_some, Option.map_some, Option.getD_some, Option.getD_some,
      hfrom]
    cases hm : m.compileFrom sets (some q) q.freshMark with
    | error e => exact .error e
    | ok r =>
      refine .ok ⟨g, fun a ha b hb hab => ?_, rfl⟩
      have hlt : ∀ n ∈ q.marks, g n < (q.mapMarks f).freshMark := fun n hn => by
        rw [hold n hn]
        refine Pattern.lt_freshMark_of_mem ?_
        rw [Pattern.marks_mapMarks]
        exact List.mem_map_of_mem hn
      rcases marks_compileFrom hm ha with ⟨_, ⟨⟩, ha⟩ | ha <;>
        rcases marks_compileFrom hm hb with ⟨_, ⟨⟩, hb⟩ | hb
      · exact hf ha hb (by rw [← hold a ha, ← hold b hb, hab])
      · have := hlt a ha
        have := hnew b hb
        omega
      · have := hlt b hb
        have := hnew a ha
        omega
      · have := hnew a ha
        have := hnew b hb
        omega

/-- Compiling a model with whatever marks: the result is a pattern in which inherited exclusions
have the marks that they came with, and the others any marks that tell them apart. -/
def CompilesTo (sets : Category.Sets) (parent : Option Pattern) (m : Model)
    (r : Except ModelError Pattern) : Prop :=
  match m.compile sets parent with
  | .error e => r = .error e
  | .ok q => ∃ f : Nat → Nat, Set.InjOn f {n | n ∈ q.marks} ∧
      (∀ p ∈ parent, ∀ n ∈ p.marks, f n = n) ∧ r = .ok (q.mapMarks f)

theorem compilesTo_compile (sets : Category.Sets) (parent : Option Pattern) (m : Model) :
    m.CompilesTo sets parent (m.compile sets parent) := by
  rw [CompilesTo]
  cases m.compile sets parent with
  | error e => rfl
  | ok q => exact ⟨id, Set.injOn_id _, fun _ _ _ _ => rfl, by rw [Pattern.mapMarks_id]⟩

/-- What is compiled with other marks is alike, if what is inherited is. -/
theorem CompilesTo.alike {m : Model} (h : Option.Rel Pattern.Alike parent parent')
    (hr : m.CompilesTo sets parent' r) : AlikeResult (m.compile sets parent) r := by
  have halike : AlikeResult (m.compile sets parent) (m.compile sets parent') := compile_alike h m
  rw [CompilesTo] at hr
  cases hm : m.compile sets parent' with
  | error e =>
    rw [hm] at hr halike
    exact hr ▸ halike
  | ok q =>
    rw [hm] at hr halike
    obtain ⟨f, hf, -, rfl⟩ := hr
    generalize m.compile sets parent = x at halike ⊢
    cases halike with
    | ok hpq => exact .ok (hpq.trans ⟨f, hf, rfl⟩)

end Model

/-! ## Programs -/

/-- An instruction with its mark renamed. -/
def Instruction.mapMark (f : Nat → Nat) : Instruction → Instruction
  | .leave entered l => .leave entered (l.mapMark f)
  | i => i

namespace Pattern

variable {p q : Pattern} {ps : List Pattern} {f g : Nat → Nat} {n : Nat}

theorem choiceSize_cons (p q : Pattern) (ps : List Pattern) :
    choiceSize (p :: q :: ps) = p.codeSize + 2 + choiceSize (q :: ps) := by
  rw [choiceSize]
  exact List.cons_ne_nil q ps

/-- Renaming leaves code as long as it is. -/
theorem codeSize_mapMarks (f : Nat → Nat) (p : Pattern) : (p.mapMarks f).codeSize = p.codeSize := by
  induction p with
  | empty | token c => rfl
  | sequence ps ih =>
    rw [mapMarks, codeSize, codeSize]
    induction ps with
    | nil => rfl
    | cons p ps ihs =>
      rw [mapMarksAll, sequenceSize, sequenceSize, ih p List.mem_cons_self,
        ihs fun q hq => ih q (List.mem_cons_of_mem _ hq)]
  | choice ps ih =>
    rw [mapMarks, codeSize, codeSize]
    induction ps with
    | nil => rfl
    | cons p ps ihs =>
      have hp := ih p List.mem_cons_self
      have hps := ihs fun q hq => ih q (List.mem_cons_of_mem _ hq)
      cases ps with
      | nil => exact hp
      | cons q qs => rw [mapMarksAll, mapMarksAll, choiceSize_cons, choiceSize_cons, hp, ← hps, mapMarksAll]
  | repeated p least most ih => cases most <;> rw [mapMarks, codeSize, codeSize, ih]
  | labeled l p ih => rw [mapMarks, codeSize, codeSize, ih]

theorem copies_map (code : Nat → List Instruction) (size base count : Nat) :
    copies (fun b => (code b).map (Instruction.mapMark f)) size base count =
      (copies code size base count).map (Instruction.mapMark f) := by
  induction count generalizing base with
  | zero => rfl
  | succ count ih => rw [copies, copies, ih, List.map_append]

theorem optionalCopies_map (code : Nat → List Instruction) (size stop base count : Nat) :
    optionalCopies (fun b => (code b).map (Instruction.mapMark f)) size stop base count =
      (optionalCopies code size stop base count).map (Instruction.mapMark f) := by
  induction count generalizing base with
  | zero => rfl
  | succ count ih =>
    rw [optionalCopies, optionalCopies, ih, List.map_append, List.map_cons]
    rfl

/-- The code of a renamed pattern is the renamed code. -/
theorem code_mapMarks (f : Nat → Nat) (p : Pattern) (base : Nat) :
    (p.mapMarks f).code base = (p.code base).map (Instruction.mapMark f) := by
  induction p generalizing base with
  | empty | token c => rfl
  | sequence ps ih =>
    rw [mapMarks, code, code]
    induction ps generalizing base with
    | nil => rfl
    | cons p ps ihs =>
      rw [mapMarksAll, sequenceCode, sequenceCode, ih p List.mem_cons_self, codeSize_mapMarks,
        ihs (fun q hq => ih q (List.mem_cons_of_mem _ hq)), List.map_append]
  | choice ps ih =>
    rw [mapMarks, code, code]
    induction ps generalizing base with
    | nil => rfl
    | cons p ps ihs =>
      have hp := ih p List.mem_cons_self
      have hps := ihs (fun q hq => ih q (List.mem_cons_of_mem _ hq))
      cases ps with
      | nil => exact hp base
      | cons q qs =>
        -- the jump behind the first alternative goes over as much code as before
        have hsize := codeSize_mapMarks f (.choice (q :: qs))
        simp only [mapMarksAll, choiceCode, codeSize_mapMarks, hp, mapMarks, codeSize] at hps hsize ⊢
        rw [hps, hsize]
        simp [Instruction.mapMark]
  | repeated p least most ih =>
    cases most with
    | none => simp [mapMarks, code, codeSize_mapMarks, ih, copies_map, loop, Instruction.mapMark]
    | some most => simp [mapMarks, code, codeSize_mapMarks, ih, copies_map, optionalCopies_map]
  | labeled l p ih =>
    rw [mapMarks, code, code, ih, List.map_append]
    rfl

theorem program_mapMarks (f : Nat → Nat) (p : Pattern) :
    (p.mapMarks f).program = p.program.map (Instruction.mapMark f) := by
  rw [program, program, code_mapMarks]
  simp [Instruction.mapMark]

end Pattern

/-! ## Runs -/

/-- A region with its mark renamed. -/
def Span.mapMark (f : Nat → Nat) (s : Span) : Span := { s with label := s.label.mapMark f }

namespace Lockstep

/-- A thread with the marks of its regions renamed. -/
def Thread.mapMarks (f : Nat → Nat) (t : Thread) : Thread :=
  { t with spans := t.spans.map (Span.mapMark f) }

/-- A thread where it is, with the marks of its regions renamed. -/
def Located.mapMarks (f : Nat → Nat) (l : Located) : Located := (l.1, l.2.mapMarks f)

variable {program : Program} {f : Nat → Nat}

/-- A single step treats marks as they come. -/
theorem successors_mapMarks (i : Instruction) (l : Located) (position : Nat) :
    successors (i.mapMark f) l.1 position (l.2.mapMarks f) =
      (successors i l.1 position l.2).map (Located.mapMarks f) := by
  cases i with
  | leave entered label =>
    rw [Instruction.mapMark, successors, successors, Thread.mapMarks]
    cases l.2.opened <;> rfl
  | _ => rfl

theorem isWaiting_mapMark (i : Instruction) : isWaiting (i.mapMark f) = isWaiting i := by
  cases i <;> rfl

theorem onward_mapMarks (l : Located) (position : Nat) :
    onward (program.map (Instruction.mapMark f)) position (l.mapMarks f) =
      (onward program position l).map (Located.mapMarks f) := by
  rw [onward, onward, Array.getElem?_map, Located.mapMarks]
  cases program[l.1]? with
  | none => rfl
  | some i => exact successors_mapMarks i l position

theorem waits_mapMarks (l : Located) :
    waits (program.map (Instruction.mapMark f)) (l.mapMarks f) = waits program l := by
  rw [waits, waits, Array.getElem?_map, Located.mapMarks]
  cases program[l.1]? with
  | none => rfl
  | some i => exact isWaiting_mapMark i

/-- Following threads to where they wait does not look at marks. -/
theorem follow_mapMarks (position stamp : Nat) (marks : Array Nat) (waiting pending : List Located) :
    follow (program.map (Instruction.mapMark f)) position stamp marks
        (waiting.map (Located.mapMarks f)) (pending.map (Located.mapMarks f)) =
      ((follow program position stamp marks waiting pending).1,
        (follow program position stamp marks waiting pending).2.map (Located.mapMarks f)) := by
  induction marks, pending using follow_induct program position stamp generalizing waiting with
  | nil marks => rw [List.map_nil, follow_nil, follow_nil]
  | stale marks l pending h ih =>
    rw [List.map_cons, follow_stale (l := l.mapMarks f) h, follow_stale h, ih]
  | fresh marks l pending h ih =>
    rw [List.map_cons, follow_fresh (l := l.mapMarks f) h, follow_fresh h, ← ih, List.map_append,
      onward_mapMarks, waits_mapMarks]
    cases waits program l <;> rfl

/-- Taking a token does not look at marks. -/
theorem consume_mapMarks (position : Nat) (t : Token) (marks : Array Nat)
    (waiting ls : List Located) :
    consume (program.map (Instruction.mapMark f)) position t marks
        (waiting.map (Located.mapMarks f)) (ls.map (Located.mapMarks f)) =
      ((consume program position t marks waiting ls).1,
        (consume program position t marks waiting ls).2.map (Located.mapMarks f)) := by
  induction ls generalizing marks waiting with
  | nil => rfl
  | cons l ls ih =>
    obtain ⟨pc, thread⟩ := l
    rw [List.map_cons, Located.mapMarks, consume, consume, Array.getElem?_map]
    cases program[pc]? with
    | none => exact ih marks waiting
    | some i =>
      cases i with
      | token accepted =>
        show (if accepted.accepts t then _ else _) = _
        dsimp only
        have hfollow := @follow_mapMarks program f (position + 1) (position + 2)
          marks waiting [(pc + 1, thread)]
        split
        · rw [show [(pc + 1, thread.mapMarks f)] = [(pc + 1, thread)].map (Located.mapMarks f) from
            rfl, hfollow]
          exact ih _ _
        · exact ih marks waiting
      | _ => exact ih marks waiting

theorem finished?_mapMarks (ls : List Located) :
    finished? (program.map (Instruction.mapMark f)) (ls.map (Located.mapMarks f)) =
      (finished? program ls).map (Thread.mapMarks f) := by
  induction ls with
  | nil => rfl
  | cons l ls ih =>
    obtain ⟨pc, thread⟩ := l
    rw [List.map_cons, Located.mapMarks, finished?, finished?, Array.getElem?_map]
    cases program[pc]? with
    | none => exact ih
    | some i => cases i <;> first | rfl | exact ih

/-- A run over all tokens does not look at marks. -/
theorem advance_mapMarks (position : Nat) (marks : Array Nat) (waiting : List Located)
    (ts : List Token) :
    advance (program.map (Instruction.mapMark f)) position marks
        (waiting.map (Located.mapMarks f)) ts =
      (advance program position marks waiting ts).map (List.map (Span.mapMark f)) := by
  induction ts generalizing position marks waiting with
  | nil =>
    rw [advance, advance, finished?_mapMarks, Option.map_map, Option.map_map]
    congr 1
    funext t
    exact (List.map_reverse ..).symm
  | cons t ts ih =>
    rw [advance, advance, List.isEmpty_map]
    split
    · rfl
    · have hconsume := @consume_mapMarks program f position t marks [] waiting
      rw [List.map_nil] at hconsume
      rw [hconsume]
      dsimp only
      rw [← List.map_reverse]
      exact ih _ _ _

theorem run_mapMarks (program : Program) (f : Nat → Nat) (tokens : List Token) :
    run (program.map (Instruction.mapMark f)) tokens =
      (run program tokens).map (List.map (Span.mapMark f)) := by
  have hfollow := @follow_mapMarks program f 0 1
    (Array.replicate program.size 0) [] [(0, ⟨[], []⟩)]
  rw [run, run, Array.size_map]
  dsimp only
  rw [show follow (program.map (Instruction.mapMark f)) 0 1 (Array.replicate program.size 0) []
    [(0, ⟨[], []⟩)] = _ from hfollow, ← List.map_reverse]
  exact advance_mapMarks _ _ _ _

end Lockstep

/-- Matching a renamed pattern gives the renamed regions. -/
theorem Pattern.run?_mapMarks (f : Nat → Nat) (p : Pattern) (tokens : List Token) :
    (p.mapMarks f).run? tokens = (p.run? tokens).map (List.map (Span.mapMark f)) := by
  rw [run?, run?, program_mapMarks, run_mapMarks]

end ContentGrammar
