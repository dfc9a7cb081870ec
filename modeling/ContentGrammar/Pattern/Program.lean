import ContentGrammar.Pattern.Basic

/-!
# Programs

A pattern is run as a program: a row of instructions that consume a token, branch, jump, or enter
and leave a labeled region. A branch prefers its first target, so a program tries alternatives in
order and prefers repeating to stopping. `Pattern.code` places the instructions of a pattern at a
given address, and `Pattern.codeSize` says how many there are, wherever they are placed.
-/

namespace ContentGrammar

/-- An instruction of a program; targets are addresses. -/
inductive Instruction
  /-- Consume a token of a class and go on to the next instruction. -/
  | token (accepted : TokenClass)
  /-- Go on at both targets, at the first one by preference. -/
  | split (first second : Nat)
  | jump (target : Nat)
  /-- Start a labeled region. -/
  | enter
  /-- End the labeled region that starts at the address `entered`. -/
  | leave (entered : Nat) (label : Label)
  | fail
  /-- The whole pattern has been gone through. -/
  | done

/-- A row of instructions; it runs from the first one. -/
abbrev Program := Array Instruction

namespace Pattern

mutual

/-- The number of instructions of a pattern. -/
def codeSize : Pattern → Nat
  | .empty => 0
  | .token _ => 1
  | .sequence ps => sequenceSize ps
  | .choice ps => choiceSize ps
  | .repeated p min none => min * p.codeSize + p.codeSize + 2
  | .repeated p min (some max) => min * p.codeSize + (max - min) * (p.codeSize + 1)
  | .labeled _ p => p.codeSize + 2

/-- The number of instructions of patterns in sequence. -/
def sequenceSize : List Pattern → Nat
  | [] => 0
  | p :: ps => p.codeSize + sequenceSize ps

/-- The number of instructions of a choice. -/
def choiceSize : List Pattern → Nat
  | [] => 1
  | [p] => p.codeSize
  | p :: ps => p.codeSize + 2 + choiceSize ps

end

/-- Code of `size` instructions, `count` times in a row from the address `base` on. -/
def copies (code : Nat → List Instruction) (size base : Nat) : Nat → List Instruction
  | 0 => []
  | count + 1 => code base ++ copies code size (base + size) count

/-- Code that may be gone through up to `count` times, leaving to `stop` from before each time. -/
def optionalCopies (code : Nat → List Instruction) (size stop base : Nat) :
    Nat → List Instruction
  | 0 => []
  | count + 1 =>
    .split (base + 1) stop :: code (base + 1)
      ++ optionalCopies code size stop (base + 1 + size) count

/-- Code that is gone through any number of times. -/
def loop (code : Nat → List Instruction) (size base : Nat) : List Instruction :=
  .split (base + 1) (base + size + 2) :: code (base + 1) ++ [.jump base]

mutual

/-- The instructions of a pattern, to be placed from the address `base` on. -/
def code (base : Nat) : Pattern → List Instruction
  | .empty => []
  | .token accepted => [.token accepted]
  | .sequence ps => sequenceCode base ps
  | .choice ps => choiceCode base ps
  | .repeated p min max =>
    let size := p.codeSize
    let afterMin := base + min * size
    copies (p.code ·) size base min ++
      match max with
      | none => loop (p.code ·) size afterMin
      | some max =>
        optionalCopies (p.code ·) size (afterMin + (max - min) * (size + 1)) afterMin (max - min)
  | .labeled label p => .enter :: p.code (base + 1) ++ [.leave base label]

/-- The instructions of patterns in sequence. -/
def sequenceCode (base : Nat) : List Pattern → List Instruction
  | [] => []
  | p :: ps => p.code base ++ sequenceCode (base + p.codeSize) ps

/-- The instructions of a choice; each alternative but the last jumps to the end. -/
def choiceCode (base : Nat) : List Pattern → List Instruction
  | [] => [.fail]
  | [p] => p.code base
  | p :: ps =>
    let next := base + p.codeSize + 2
    .split (base + 1) next :: p.code (base + 1)
      ++ .jump (next + choiceSize ps) :: choiceCode next ps

end

/-- The program of a pattern. -/
def program (p : Pattern) : Program := (p.code 0 ++ [Instruction.done]).toArray

end Pattern

end ContentGrammar
