import ContentGrammar.Pattern.Program

/-!
# Running programs in lockstep

A program is run over a row of tokens by threads that advance together. Before each token the
threads wait at instructions that consume one, in order of preference, at most one thread at an
instruction: a thread that comes to an instruction after another one at the same place is dropped.
So the work for a token is bounded by the length of the program, and of the ways in which all
tokens can be matched the most preferred one is left over. Each thread carries the regions that it
has gone through.
-/

namespace ContentGrammar

/-- The tokens, from `start` on and before `stop`, that a labeled region took. -/
structure Span where
  label : Label
  start : Nat
  stop : Nat

namespace Lockstep

/-- What a thread has gone through: where the regions it is in start, innermost first, and the
regions it has left, latest first. -/
structure Thread where
  opened : List Nat
  spans : List Span

/-- A thread and the address at which it is. -/
abbrev Located := Nat × Thread

/-- Where a thread at an instruction goes without consuming a token, in order of preference. -/
def successors (i : Instruction) (pc position : Nat) (t : Thread) : List Located :=
  match i with
  | .jump target => [(target, t)]
  | .split first second => [(first, t), (second, t)]
  | .enter => [(pc + 1, { t with opened := position :: t.opened })]
  | .leave _ label =>
    match t.opened with
    | [] => []
    | start :: opened => [(pc + 1, ⟨opened, ⟨label, start, position⟩ :: t.spans⟩)]
  | .token _ | .fail | .done => []

/-- Whether threads wait at an instruction. -/
def isWaiting : Instruction → Bool
  | .token _ | .done => true
  | _ => false

/-- How many entries differ from `stamp`. -/
def unstamped (stamp : Nat) (marks : Array Nat) : Nat := marks.toList.countP (· != stamp)

theorem unstamped_set_lt {stamp pc : Nat} {marks : Array Nat} (h : pc < marks.size)
    (hne : marks[pc] ≠ stamp) : unstamped stamp (marks.set pc stamp h) < unstamped stamp marks := by
  have key : ∀ (xs : List Nat) (i : Nat) (hi : i < xs.length), xs[i] ≠ stamp →
      (xs.set i stamp).countP (· != stamp) < xs.countP (· != stamp) := by
    intro xs
    induction xs with
    | nil => intro i hi; simp at hi
    | cons x xs ih =>
      intro i hi hx
      cases i with
      | zero =>
        have : (x != stamp) = true := by simpa using hx
        simp [this]
      | succ i =>
        have := ih i (by simpa using hi) (by simpa using hx)
        simp only [List.set_cons_succ, List.countP_cons]
        omega
  simp only [unstamped, Array.toList_set]
  exact key marks.toList pc (by simpa using h) (by simpa using hne)

/-- Follows threads until they wait, depth first. An instruction is gone into once for each
`stamp`; `marks` holds the latest stamp of each. The waiting threads are put in front of
`waiting`, so the latest comes first. -/
def follow (program : Program) (position stamp : Nat) (marks : Array Nat)
    (waiting : List Located) (pending : List Located) : Array Nat × List Located :=
  match pending with
  | [] => (marks, waiting)
  | (pc, t) :: rest =>
    if h : pc < marks.size then
      if _hm : marks[pc] = stamp then follow program position stamp marks waiting rest
      else
        let marks' := marks.set pc stamp h
        match program[pc]? with
        | none => follow program position stamp marks' waiting rest
        | some i =>
          follow program position stamp marks' (if isWaiting i then (pc, t) :: waiting else waiting)
            (successors i pc position t ++ rest)
    else follow program position stamp marks waiting rest
termination_by (unstamped stamp marks, pending.length)
decreasing_by
  · exact Prod.Lex.right _ (by simp)
  · exact Prod.Lex.left _ _ (unstamped_set_lt h _hm)
  · exact Prod.Lex.left _ _ (unstamped_set_lt h _hm)
  · exact Prod.Lex.right _ (by simp)

/-- Lets the waiting threads that accept a token go on after it. -/
def consume (program : Program) (position : Nat) (t : Token) (marks : Array Nat)
    (waiting : List Located) : List Located → Array Nat × List Located
  | [] => (marks, waiting)
  | (pc, thread) :: rest =>
    match program[pc]? with
    | some (.token accepted) =>
      if accepted.accepts t then
        let (marks, waiting) :=
          follow program (position + 1) (position + 2) marks waiting [(pc + 1, thread)]
        consume program position t marks waiting rest
      else consume program position t marks waiting rest
    | _ => consume program position t marks waiting rest

/-- The first thread that waits at the end of the program. -/
def finished? (program : Program) : List Located → Option Thread
  | [] => none
  | (pc, t) :: rest =>
    match program[pc]? with
    | some .done => some t
    | _ => finished? program rest

/-- Runs waiting threads, in order of preference, over the tokens from `position` on. -/
def advance (program : Program) (position : Nat) (marks : Array Nat) (waiting : List Located) :
    List Token → Option (List Span)
  | [] => (finished? program waiting).map (·.spans.reverse)
  | t :: ts =>
    if waiting.isEmpty then none
    else
      let (marks, next) := consume program position t marks [] waiting
      advance program (position + 1) marks next.reverse ts

/-- Runs a program over tokens, from its first instruction on. -/
def run (program : Program) (tokens : List Token) : Option (List Span) :=
  let marks := Array.replicate program.size 0
  let (marks, waiting) := follow program 0 1 marks [] [(0, ⟨[], []⟩)]
  advance program 0 marks waiting.reverse tokens

end Lockstep

/-- Matches all of a row of tokens: the regions of the most preferred match in the order in which
they end, or nothing if there is no match. -/
def Pattern.run? (p : Pattern) (tokens : List Token) : Option (List Span) :=
  Lockstep.run p.program tokens

end ContentGrammar
