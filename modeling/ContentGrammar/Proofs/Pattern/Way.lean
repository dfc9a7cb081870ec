import ContentGrammar.Proofs.Pattern.Derivation

/-!
# Ways through programs

A program over tokens as a graph, with no thread lists and no visited marks:

* `Config` — an instruction, a position with the tokens from there on, and a thread;
* `Config.next` — the configurations that follow, in order of preference;
* `Way program c visited forks t` — a way from `c` to the end of the program at the end of the
  tokens, with the spots that it visits, the number of the successor it takes at each of them and
  the thread with which it arrives.
-/

namespace ContentGrammar

namespace Lockstep

/-- An address and a position in the row of tokens. -/
abbrev Spot := Nat × Nat

/-- A thread at an address and at a position, with the tokens that are left. -/
structure Config where
  pc : Nat
  position : Nat
  rest : List Token
  thread : Thread

/-- The thread that has left further regions, the latest one last. -/
def Thread.after (t : Thread) (ss : List Span) : Thread := { t with spans := ss.reverse ++ t.spans }

@[simp] theorem Thread.after_nil (t : Thread) : t.after [] = t := rfl

@[simp] theorem Thread.after_opened (t : Thread) (ss : List Span) :
    (t.after ss).opened = t.opened := rfl

@[simp] theorem Thread.after_append (t : Thread) (ss rs : List Span) :
    t.after (ss ++ rs) = (t.after ss).after rs := by
  simp [Thread.after]

namespace Config

/-- The place of a configuration, which is all that a search remembers of it. -/
def spot (c : Config) : Spot := (c.pc, c.position)

/-- Whether a configuration is at the end of the program and of the tokens. -/
def isFinal (program : Program) (c : Config) : Bool :=
  match program[c.pc]?, c.rest with
  | some .done, [] => true
  | _, _ => false

/-- The configurations to which a configuration goes on, in order of preference. -/
def next (program : Program) (c : Config) : List Config :=
  match program[c.pc]? with
  | none => []
  | some (.token accepted) =>
    match c.rest with
    | [] => []
    | t :: ts => if accepted.accepts t then [⟨c.pc + 1, c.position + 1, ts, c.thread⟩] else []
  | some i => (successors i c.pc c.position c.thread).map fun l => ⟨l.1, c.position, c.rest, l.2⟩

end Config

/-- A way through a program, from a configuration to the end of the program and of the tokens. -/
inductive Way (program : Program) : Config → List Spot → List Nat → Thread → Prop
  | final {c} : c.isFinal program = true → Way program c [c.spot] [] c.thread
  | step {c d n visited forks t} : (c.next program)[n]? = some d →
      Way program d visited forks t → Way program c (c.spot :: visited) (n :: forks) t

variable {program : Program} {pc position : Nat} {rest : List Token} {thread t : Thread}
  {c d : Config} {visited : List Spot} {forks : List Nat}

theorem Config.isFinal_iff :
    c.isFinal program = true ↔ program[c.pc]? = some .done ∧ c.rest = [] := by
  unfold Config.isFinal
  split <;> simp_all

/-! ## Ways from one instruction -/

/-- Every way that goes on from `d` is the end of one from `c`. -/
def Leads (program : Program) (c d : Config) : Prop :=
  ∀ visited forks t, Way program d visited forks t →
    ∃ visited' forks', Way program c visited' forks' t

theorem Leads.refl (c : Config) : Leads program c c := fun v f _ h => ⟨v, f, h⟩

theorem Leads.trans {e : Config} (h : Leads program c d) (h' : Leads program d e) :
    Leads program c e := by
  intro v f t hw
  obtain ⟨v, f, hw⟩ := h' v f t hw
  exact h v f t hw

/-- A configuration leads to each of its successors. -/
theorem Leads.of_mem_next (h : d ∈ c.next program) : Leads program c d := by
  intro v f t hw
  obtain ⟨n, hn⟩ := List.mem_iff_getElem?.mp h
  exact ⟨_, _, .step hn hw⟩

/-- A way from a configuration that is not at the end goes on by one of its successors. -/
theorem Way.exists_next (h : Way program c visited forks t) (hne : c.isFinal program = false) :
    ∃ d ∈ c.next program, ∃ v f, Way program d v f t ∧ v.length < visited.length := by
  cases h with
  | final hf => rw [hf] at hne; cases hne
  | step hn hw => exact ⟨_, List.mem_of_getElem? hn, _, _, hw, Nat.lt_succ_self _⟩

theorem Config.isFinal_eq_false {i : Instruction} (h : program[c.pc]? = some i) (hi : i ≠ .done) :
    c.isFinal program = false := by
  rw [Bool.eq_false_iff]
  intro hf
  rw [(Config.isFinal_iff.mp hf).1] at h
  exact hi (Option.some.inj h).symm

theorem Config.next_token {accepted : TokenClass} (h : program[pc]? = some (.token accepted)) :
    Config.next program ⟨pc, position, rest, thread⟩ =
      match rest with
      | [] => []
      | t :: ts => if accepted.accepts t then [⟨pc + 1, position + 1, ts, thread⟩] else [] := by
  simp only [Config.next, h]

theorem Config.next_split {first second : Nat} (h : program[pc]? = some (.split first second)) :
    Config.next program ⟨pc, position, rest, thread⟩ =
      [⟨first, position, rest, thread⟩, ⟨second, position, rest, thread⟩] := by
  simp only [Config.next, h, successors, List.map_cons, List.map_nil]

theorem Config.next_jump {target : Nat} (h : program[pc]? = some (.jump target)) :
    Config.next program ⟨pc, position, rest, thread⟩ = [⟨target, position, rest, thread⟩] := by
  simp only [Config.next, h, successors, List.map_cons, List.map_nil]

theorem Config.next_enter (h : program[pc]? = some .enter) :
    Config.next program ⟨pc, position, rest, thread⟩ =
      [⟨pc + 1, position, rest, ⟨position :: thread.opened, thread.spans⟩⟩] := by
  simp only [Config.next, h, successors, List.map_cons, List.map_nil]

theorem Config.next_leave {entered start : Nat} {label : Label} {opened : List Nat}
    {spans : List Span} (h : program[pc]? = some (.leave entered label)) :
    Config.next program ⟨pc, position, rest, ⟨start :: opened, spans⟩⟩ =
      [⟨pc + 1, position, rest, ⟨opened, ⟨label, start, position⟩ :: spans⟩⟩] := by
  simp only [Config.next, h, successors, List.map_cons, List.map_nil]

theorem Config.next_fail (h : program[pc]? = some .fail) :
    Config.next program ⟨pc, position, rest, thread⟩ = [] := by
  simp only [Config.next, h, successors, List.map_nil]

theorem Way.spot_mem (h : Way program c visited forks t) : c.spot ∈ visited := by
  cases h <;> exact List.mem_cons_self

theorem Config.isFinal_of_next (h : c.next program ≠ []) : c.isFinal program = false := by
  rw [Bool.eq_false_iff]
  intro hf
  apply h
  rw [Config.next, (Config.isFinal_iff.mp hf).1]
  rfl

/-- Where there is one way to go on, all ways take it. -/
theorem Way.single_iff (h : c.next program = [d]) : Way program c visited forks t ↔
    ∃ v f, visited = c.spot :: v ∧ forks = 0 :: f ∧ Way program d v f t := by
  constructor
  · intro hw
    cases hw with
    | final hf => rw [Config.isFinal_of_next (by simp [h])] at hf; cases hf
    | step hn hw =>
      obtain ⟨hn, hd⟩ := List.getElem?_eq_some_iff.mp hn
      simp only [h, List.length_singleton, Nat.lt_one_iff] at hn
      subst hn
      simp only [h, List.getElem_cons_zero] at hd
      subst hd
      exact ⟨_, _, rfl, rfl, hw⟩
  · rintro ⟨v, f, rfl, rfl, hw⟩
    exact .step (by rw [h]; rfl) hw

/-- Where there are two ways to go on, a way takes the first or the second. -/
theorem Way.split_iff (h : c.next program = [d, e]) : Way program c visited forks t ↔
    ∃ v f, visited = c.spot :: v ∧
      (forks = 0 :: f ∧ Way program d v f t ∨ forks = 1 :: f ∧ Way program e v f t) := by
  constructor
  · intro hw
    cases hw with
    | final hf => rw [Config.isFinal_of_next (by simp [h])] at hf; cases hf
    | @step _ _ n _ _ _ hn hw =>
      rw [h] at hn
      match n with
      | 0 => cases hn; exact ⟨_, _, rfl, .inl ⟨rfl, hw⟩⟩
      | 1 => cases hn; exact ⟨_, _, rfl, .inr ⟨rfl, hw⟩⟩
      | n + 2 => cases hn
  · rintro ⟨v, f, rfl, ⟨rfl, hw⟩ | ⟨rfl, hw⟩⟩
    · exact .step (by rw [h]; rfl) hw
    · exact .step (by rw [h]; rfl) hw

/-! ## Code at an address -/

/-- The code stands in the program from the address `base` on. -/
def Placed (program : Program) (base : Nat) (code : List Instruction) : Prop :=
  ∀ n i, code[n]? = some i → program[base + n]? = some i

theorem Placed.head {base : Nat} {i : Instruction} {code : List Instruction}
    (h : Placed program base (i :: code)) : program[base]? = some i := h 0 i rfl

theorem Placed.tail {base : Nat} {i : Instruction} {code : List Instruction}
    (h : Placed program base (i :: code)) : Placed program (base + 1) code := by
  intro n j hn
  rw [Nat.add_right_comm, Nat.add_assoc]
  exact h (n + 1) j hn

theorem Placed.left {base : Nat} {code more : List Instruction}
    (h : Placed program base (code ++ more)) : Placed program base code := by
  intro n i hn
  apply h n i
  rw [List.getElem?_append_left (List.getElem?_eq_some_iff.mp hn).1]
  exact hn

theorem Placed.right {base : Nat} {code more : List Instruction}
    (h : Placed program base (code ++ more)) : Placed program (base + code.length) more := by
  intro n i hn
  rw [Nat.add_assoc]
  apply h (code.length + n) i
  rw [List.getElem?_append_right (Nat.le_add_right _ _), Nat.add_sub_cancel_left]
  exact hn

end Lockstep

end ContentGrammar
