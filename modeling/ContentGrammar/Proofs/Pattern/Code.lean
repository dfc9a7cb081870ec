import ContentGrammar.Proofs.Pattern.Way

/-!
# The code of a pattern

`realises_code` ties ways through a program to derivations of a pattern whose code stands in it:
each way that comes to the code goes on behind it after some derivation of the pattern (`sound`),
and each derivation leads there (`complete`). It is put together from one lemma for each shape of
code: sequences, choices, copies, copies that may be left out, and loops.
-/

namespace ContentGrammar

namespace Pattern

/-! ## Sizes of code -/

theorem length_copies {code : Nat → List Instruction} {size : Nat}
    (h : ∀ base, (code base).length = size) (base count : Nat) :
    (copies code size base count).length = count * size := by
  induction count generalizing base with
  | zero => simp [copies]
  | succ count ih => rw [copies, List.length_append, h, ih, Nat.succ_mul, Nat.add_comm]

theorem length_optionalCopies {code : Nat → List Instruction} {size : Nat}
    (h : ∀ base, (code base).length = size) (stop base count : Nat) :
    (optionalCopies code size stop base count).length = count * (size + 1) := by
  induction count generalizing base with
  | zero => simp [optionalCopies]
  | succ count ih =>
    rw [optionalCopies, List.cons_append, List.length_cons, List.length_append, h, ih,
      Nat.succ_mul]
    omega

theorem length_sequenceCode {ps : List Pattern}
    (h : ∀ p ∈ ps, ∀ base, (p.code base).length = p.codeSize) (base : Nat) :
    (sequenceCode base ps).length = sequenceSize ps := by
  induction ps generalizing base with
  | nil => rfl
  | cons p ps ih =>
    rw [sequenceCode, List.length_append, h p List.mem_cons_self,
      ih (fun q hq => h q (List.mem_cons_of_mem _ hq)), sequenceSize]

theorem length_choiceCode {ps : List Pattern}
    (h : ∀ p ∈ ps, ∀ base, (p.code base).length = p.codeSize) (base : Nat) :
    (choiceCode base ps).length = choiceSize ps := by
  induction ps generalizing base with
  | nil => rfl
  | cons p ps ih =>
    cases ps with
    | nil => exact h p List.mem_cons_self base
    | cons q ps =>
      have hp := h p List.mem_cons_self (base + 1)
      have hps := ih (fun r hr => h r (List.mem_cons_of_mem _ hr)) (base + p.codeSize + 2)
      simp only [choiceCode, choiceSize, List.cons_append, List.length_cons, List.length_append,
        hp] at hps ⊢
      omega

@[simp] theorem length_code (p : Pattern) (base : Nat) : (p.code base).length = p.codeSize := by
  induction p generalizing base with
  | empty => rfl
  | token c => rfl
  | sequence ps ih => exact length_sequenceCode ih base
  | choice ps ih => exact length_choiceCode ih base
  | repeated p least most ih =>
    cases most with
    | none => simp [code, codeSize, loop, length_copies ih, ih, Nat.add_assoc]
    | some most => simp [code, codeSize, length_copies ih, length_optionalCopies ih]
  | labeled l p ih => simp [code, codeSize, ih]

end Pattern

namespace Lockstep

open Pattern

variable {program : Program} {a b m : Nat}

/-- What a piece of code does from a position on: the tokens it takes, the regions it leaves. -/
abbrev Effect := Nat → List Token → List Span → Prop

/-- The code between two addresses does what `D` says, and whatever `D` says can be done by it.
Ways do not get longer on the way, which is what loops are unrolled by. -/
structure Realises (program : Program) (a b : Nat) (D : Effect) : Prop where
  sound : ∀ i rest t v f r, Way program ⟨a, i, rest, t⟩ v f r → ∃ ts rest' ss v' f',
    rest = ts ++ rest' ∧ D i ts ss ∧ Way program ⟨b, i + ts.length, rest', t.after ss⟩ v' f' r ∧
      v'.length ≤ v.length
  complete : ∀ i ts ss rest t, D i ts ss →
    Leads program ⟨a, i, ts ++ rest, t⟩ ⟨b, i + ts.length, rest, t.after ss⟩

/-! ## Shapes of code -/

variable {D D₁ D₂ : Effect}

/-- Taking nothing. -/
def Effect.skip : Effect := fun _ ts ss => ts = [] ∧ ss = []

/-- One effect after the other. -/
def Effect.andThen (D₁ D₂ : Effect) : Effect := fun i ts ss => ∃ ts₁ ts₂ ss₁ ss₂,
  ts = ts₁ ++ ts₂ ∧ ss = ss₁ ++ ss₂ ∧ D₁ i ts₁ ss₁ ∧ D₂ (i + ts₁.length) ts₂ ss₂

theorem Realises.congr (h : Realises program a b D₁) (hD : ∀ i ts ss, D₁ i ts ss ↔ D₂ i ts ss) :
    Realises program a b D₂ := by
  have : D₁ = D₂ := by
    funext i ts ss
    exact propext (hD i ts ss)
  exact this ▸ h

theorem Realises.skip (a : Nat) : Realises program a a Effect.skip := by
  constructor
  · intro i rest t v f r h
    exact ⟨[], rest, [], v, f, rfl, ⟨rfl, rfl⟩, h, Nat.le_refl _⟩
  · rintro i _ _ rest t ⟨rfl, rfl⟩
    exact Leads.refl _

/-- Pieces of code one behind the other have one effect after the other. -/
theorem Realises.andThen (h₁ : Realises program a m D₁) (h₂ : Realises program m b D₂) :
    Realises program a b (D₁.andThen D₂) := by
  constructor
  · intro i rest t v f r h
    obtain ⟨ts₁, _, ss₁, v₁, f₁, rfl, hd₁, h, hv₁⟩ := h₁.sound _ _ _ _ _ _ h
    obtain ⟨ts₂, rest, ss₂, v₂, f₂, rfl, hd₂, h, hv₂⟩ := h₂.sound _ _ _ _ _ _ h
    refine ⟨ts₁ ++ ts₂, rest, ss₁ ++ ss₂, v₂, f₂, by simp,
      ⟨ts₁, ts₂, ss₁, ss₂, rfl, rfl, hd₁, hd₂⟩, ?_, Nat.le_trans hv₂ hv₁⟩
    simpa [Nat.add_assoc] using h
  · rintro i _ _ rest t ⟨ts₁, ts₂, ss₁, ss₂, rfl, rfl, hd₁, hd₂⟩
    have l₁ := h₁.complete i ts₁ ss₁ (ts₂ ++ rest) t hd₁
    have l₂ := h₂.complete (i + ts₁.length) ts₂ ss₂ rest (t.after ss₁) hd₂
    simpa [Nat.add_assoc] using l₁.trans l₂

/-- A branch does what either of its targets does. -/
theorem Realises.split {x y : Nat} (hs : program[a]? = some (.split x y))
    (h₁ : Realises program x b D₁) (h₂ : Realises program y b D₂) :
    Realises program a b fun i ts ss => D₁ i ts ss ∨ D₂ i ts ss := by
  constructor
  · intro i rest t v f r h
    obtain ⟨d, hd, v', f', h, hv⟩ := h.exists_next (Config.isFinal_eq_false hs (by simp))
    rw [Config.next_split hs] at hd
    rcases List.mem_cons.mp hd with rfl | hd
    · obtain ⟨ts, rest', ss, v'', f'', hr, hd, h, hv'⟩ := h₁.sound _ _ _ _ _ _ h
      exact ⟨ts, rest', ss, v'', f'', hr, .inl hd, h, by omega⟩
    · obtain rfl := List.mem_singleton.mp hd
      obtain ⟨ts, rest', ss, v'', f'', hr, hd, h, hv'⟩ := h₂.sound _ _ _ _ _ _ h
      exact ⟨ts, rest', ss, v'', f'', hr, .inr hd, h, by omega⟩
  · rintro i ts ss rest t (hd | hd)
    · exact (Leads.of_mem_next (by simp [Config.next_split hs])).trans
        (h₁.complete i ts ss rest t hd)
    · exact (Leads.of_mem_next (by simp [Config.next_split hs])).trans
        (h₂.complete i ts ss rest t hd)

theorem Realises.jump (hj : program[a]? = some (.jump b)) : Realises program a b Effect.skip := by
  constructor
  · intro i rest t v f r h
    obtain ⟨d, hd, v', f', h, hv⟩ := h.exists_next (Config.isFinal_eq_false hj (by simp))
    rw [Config.next_jump hj, List.mem_singleton] at hd
    subst hd
    exact ⟨[], rest, [], v', f', rfl, ⟨rfl, rfl⟩, h, Nat.le_of_lt hv⟩
  · rintro i _ _ rest t ⟨rfl, rfl⟩
    exact Leads.of_mem_next (by simp [Config.next_jump hj])

theorem Realises.token {c : TokenClass} (hc : program[a]? = some (.token c)) :
    Realises program a (a + 1) (Derivation (.token c)) := by
  constructor
  · intro i rest t v f r h
    obtain ⟨d, hd, v', f', h, hv⟩ := h.exists_next (Config.isFinal_eq_false hc (by simp))
    rw [Config.next_token hc] at hd
    cases rest with
    | nil => cases hd
    | cons k rest =>
      dsimp only at hd
      split at hd
      case isTrue hk =>
        obtain rfl := List.mem_singleton.mp hd
        exact ⟨[k], rest, [], v', f', rfl, .token hk, h, Nat.le_of_lt hv⟩
      case isFalse => cases hd
  · intro i ts ss rest t hd
    cases hd with
    | token hk => exact Leads.of_mem_next (by simp [Config.next_token hc, hk])

/-- Where the program fails it does nothing, as an empty choice does. -/
theorem Realises.fail (hf : program[a]? = some .fail) :
    Realises program a b (Derivation (.choice [])) := by
  constructor
  · intro i rest t v f r h
    obtain ⟨d, hd, _⟩ := h.exists_next (Config.isFinal_eq_false hf (by simp))
    rw [Config.next_fail hf] at hd
    cases hd
  · intro i ts ss rest t hd
    obtain ⟨p, hp, _⟩ := Derivation.choice_iff.mp hd
    cases hp

/-- Code between an entrance and an exit does the same and leaves one more region. -/
theorem Realises.labeled {p : Pattern} {l : Label} {x : Nat} (he : program[a]? = some .enter)
    (h : Realises program (a + 1) b (Derivation p)) (hl : program[b]? = some (.leave x l)) :
    Realises program a (b + 1) (Derivation (.labeled l p)) := by
  constructor
  · intro i rest t v f r hw
    obtain ⟨d, hd, v₁, f₁, hw, hv₁⟩ := hw.exists_next (Config.isFinal_eq_false he (by simp))
    rw [Config.next_enter he, List.mem_singleton] at hd
    subst hd
    obtain ⟨ts, rest', ss, v₂, f₂, hr, hp, hw, hv₂⟩ := h.sound _ _ _ _ _ _ hw
    obtain ⟨e, he, v₃, f₃, hw, hv₃⟩ := hw.exists_next (Config.isFinal_eq_false hl (by simp))
    simp only [Thread.after] at he
    rw [Config.next_leave hl, List.mem_singleton] at he
    subst he
    refine ⟨ts, rest', _, v₃, f₃, hr, .labeled hp, ?_, by omega⟩
    simpa [Thread.after] using hw
  · intro i ts ss rest t hd
    obtain ⟨rs, rfl, hp⟩ := Derivation.labeled_iff.mp hd
    have into : Leads program ⟨a, i, ts ++ rest, t⟩
        ⟨a + 1, i, ts ++ rest, ⟨i :: t.opened, t.spans⟩⟩ :=
      Leads.of_mem_next (by simp [Config.next_enter he])
    have inside := h.complete i ts rs rest ⟨i :: t.opened, t.spans⟩ hp
    refine (into.trans inside).trans (Leads.of_mem_next ?_)
    simp [Thread.after, Config.next_leave hl]

/-! ## Repetition -/

variable {p : Pattern}

/-- Going through an item `k` times. -/
abbrev Effect.times (p : Pattern) (k : Nat) : Effect := Derivation (.sequence (List.replicate k p))

theorem Effect.times_zero : Effect.times p 0 = Effect.skip := by
  funext i ts ss
  exact propext Derivation.sequence_nil_iff

theorem Effect.times_succ (k : Nat) :
    Effect.times p (k + 1) = (Effect.andThen (Derivation p) (Effect.times p k)) := by
  funext i ts ss
  exact propext Derivation.sequence_cons_iff

theorem Effect.times_add (j k : Nat) :
    Effect.times p (j + k) = (Effect.times p j).andThen (Effect.times p k) := by
  funext i ts ss
  rw [Effect.times, List.replicate_add]
  exact propext Derivation.sequence_append_iff

/-- Going through an item `least` times and then a number of times that is fine with `P`. -/
theorem Effect.times_andThen_iff {least : Nat} (P : Nat → Prop) {i : Nat} {ts : List Token}
    {ss : List Span} :
    (Effect.times p least).andThen (fun i ts ss => ∃ k, P k ∧ Effect.times p k i ts ss) i ts ss ↔
      ∃ k, least ≤ k ∧ P (k - least) ∧ Effect.times p k i ts ss := by
  constructor
  · rintro ⟨ts₁, ts₂, ss₁, ss₂, ht, hs, hd, k, hk, hd'⟩
    refine ⟨least + k, Nat.le_add_right _ _, by rwa [Nat.add_sub_cancel_left], ?_⟩
    rw [Effect.times_add]
    exact ⟨ts₁, ts₂, ss₁, ss₂, ht, hs, hd, hd'⟩
  · rintro ⟨k, hle, hk, hd⟩
    rw [← Nat.add_sub_of_le hle, Effect.times_add] at hd
    obtain ⟨ts₁, ts₂, ss₁, ss₂, ht, hs, hd, hd'⟩ := hd
    exact ⟨ts₁, ts₂, ss₁, ss₂, ht, hs, hd, k - least, hk, hd'⟩

/-- The code of `p` does what its derivations say, wherever it stands. -/
def RealisesItem (program : Program) (p : Pattern) : Prop :=
  ∀ base, Placed program base (p.code base) →
    Realises program base (base + p.codeSize) (Derivation p)

/-- Copies that are needed go through the item that often. -/
theorem realises_copies (hp : RealisesItem program p) (base count : Nat)
    (h : Placed program base (copies (p.code ·) p.codeSize base count)) :
    Realises program base (base + count * p.codeSize) (Effect.times p count) := by
  induction count generalizing base with
  | zero =>
    rw [Nat.zero_mul, Effect.times_zero]
    exact Realises.skip base
  | succ count ih =>
    rw [copies] at h
    have first := hp base h.left
    have others := ih (base + p.codeSize) (by simpa using h.right)
    rw [Effect.times_succ, Nat.succ_mul, Nat.add_comm (count * _), ← Nat.add_assoc]
    exact first.andThen others

/-- Copies each of which may be the last go through the item at most that often. -/
theorem realises_optionalCopies (hp : RealisesItem program p) (base count : Nat)
    {stop : Nat} (hstop : stop = base + count * (p.codeSize + 1))
    (h : Placed program base (optionalCopies (p.code ·) p.codeSize stop base count)) :
    Realises program base stop fun i ts ss => ∃ k ≤ count, Effect.times p k i ts ss := by
  induction count generalizing base with
  | zero =>
    rw [Nat.zero_mul, Nat.add_zero] at hstop
    subst hstop
    refine (Realises.skip stop).congr fun i ts ss => ?_
    simp [Effect.times_zero]
  | succ count ih =>
    rw [optionalCopies, List.cons_append] at h
    have first := hp (base + 1) h.tail.left
    have others := ih (base + 1 + p.codeSize) (by rw [hstop, Nat.succ_mul]; omega)
      (by simpa using h.tail.right)
    -- leaving this copy out leaves out all that are behind it
    refine (Realises.split h.head (first.andThen others) (Realises.skip stop)).congr ?_
    intro i ts ss
    constructor
    · rintro (⟨ts₁, ts₂, ss₁, ss₂, rfl, rfl, hd₁, k, hk, hd₂⟩ | hd)
      · exact ⟨k + 1, Nat.succ_le_succ hk, .sequenceCons hd₁ hd₂⟩
      · exact ⟨0, Nat.zero_le _, Derivation.sequence_nil_iff.mpr hd⟩
    · rintro ⟨k, hk, hd⟩
      cases k with
      | zero => exact .inr (Derivation.sequence_nil_iff.mp hd)
      | succ k =>
        obtain ⟨ts₁, ts₂, ss₁, ss₂, ht, hs, hd₁, hd₂⟩ := Derivation.sequence_cons_iff.mp hd
        exact .inl ⟨ts₁, ts₂, ss₁, ss₂, ht, hs, hd₁, k, Nat.le_of_succ_le_succ hk, hd₂⟩

/-- Ways through a loop get shorter with each round, which begins and ends at the branch. -/
theorem loop_sound {base stop : Nat} (branch : program[base]? = some (.split (base + 1) stop))
    (round : Realises program (base + 1) base (Derivation p)) (i : Nat) (rest : List Token)
    (t : Thread) (v : List Spot) (f : List Nat) (r : Thread)
    (hw : Way program ⟨base, i, rest, t⟩ v f r) : ∃ ts rest' ss v' f', rest = ts ++ rest' ∧
      (∃ k, Effect.times p k i ts ss) ∧
      Way program ⟨stop, i + ts.length, rest', t.after ss⟩ v' f' r ∧ v'.length ≤ v.length := by
  induction hn : v.length using Nat.strongRecOn generalizing i rest t v f with
  | ind n ih =>
    subst hn
    obtain ⟨d, hd, v₁, f₁, hw, hv₁⟩ := hw.exists_next (Config.isFinal_eq_false branch (by simp))
    rw [Config.next_split branch] at hd
    rcases List.mem_cons.mp hd with rfl | hd
    · -- one more round, and then what the rest of the way does
      obtain ⟨ts₁, rest₁, ss₁, v₂, f₂, rfl, hp, hw, hv₂⟩ := round.sound _ _ _ _ _ _ hw
      obtain ⟨ts₂, rest', ss₂, v₃, f₃, rfl, ⟨k, hk⟩, hw, hv₃⟩ :=
        ih v₂.length (by omega) _ _ _ v₂ f₂ hw rfl
      refine ⟨ts₁ ++ ts₂, rest', ss₁ ++ ss₂, v₃, f₃, by simp, ⟨k + 1, .sequenceCons hp hk⟩, ?_,
        by omega⟩
      simpa [Nat.add_assoc] using hw
    · obtain rfl := List.mem_singleton.mp hd
      exact ⟨[], rest, [], v₁, f₁, rfl, ⟨0, .sequenceNil⟩, hw, Nat.le_of_lt hv₁⟩

/-- Each round is a way from the branch back to it, and the last way leads out. -/
theorem loop_complete {base stop : Nat} (branch : program[base]? = some (.split (base + 1) stop))
    (round : Realises program (base + 1) base (Derivation p)) (i k : Nat) (ts : List Token)
    (ss : List Span) (rest : List Token) (t : Thread) (hd : Effect.times p k i ts ss) :
    Leads program ⟨base, i, ts ++ rest, t⟩ ⟨stop, i + ts.length, rest, t.after ss⟩ := by
  induction k generalizing i ts ss t with
  | zero =>
    obtain ⟨rfl, rfl⟩ := Derivation.sequence_nil_iff.mp hd
    exact Leads.of_mem_next (by simp [Config.next_split branch])
  | succ k ih =>
    obtain ⟨ts₁, ts₂, ss₁, ss₂, rfl, rfl, hd₁, hd₂⟩ := Derivation.sequence_cons_iff.mp hd
    have into : Leads program ⟨base, i, ts₁ ++ (ts₂ ++ rest), t⟩
        ⟨base + 1, i, ts₁ ++ (ts₂ ++ rest), t⟩ :=
      Leads.of_mem_next (by simp [Config.next_split branch])
    have once := round.complete i ts₁ ss₁ (ts₂ ++ rest) t hd₁
    have others := ih (i + ts₁.length) ts₂ ss₂ (t.after ss₁) hd₂
    simpa [Nat.add_assoc] using (into.trans once).trans others

/-- A loop goes through the item any number of times. -/
theorem realises_loop (hp : RealisesItem program p) (base : Nat)
    (h : Placed program base (loop (p.code ·) p.codeSize base)) :
    Realises program base (base + p.codeSize + 2) fun i ts ss =>
      ∃ k, Effect.times p k i ts ss := by
  rw [loop, List.cons_append] at h
  have item := hp (base + 1) h.tail.left
  have back : program[base + 1 + p.codeSize]? = some (.jump base) := by
    simpa using h.tail.right.head
  have round : Realises program (base + 1) base (Derivation p) := by
    refine (item.andThen (Realises.jump back)).congr fun i ts ss => ?_
    simp [Effect.andThen, Effect.skip]
  constructor
  · exact loop_sound h.head round
  · rintro i ts ss rest t ⟨k, hd⟩
    exact loop_complete h.head round i k ts ss rest t hd

/-- A repetition is the copies that are needed and then optional ones or a loop. -/
theorem realises_repeated (hp : RealisesItem program p) {least : Nat} {most : Option Nat}
    (base : Nat) (h : Placed program base ((Pattern.repeated p least most).code base)) :
    Realises program base (base + codeSize (.repeated p least most))
      (Derivation (.repeated p least most)) := by
  have atLeast := realises_copies hp base least h.left
  have h := h.right
  rw [length_copies (length_code p)] at h
  cases most with
  | none =>
    have more := realises_loop hp _ h
    have hstop : base + codeSize (.repeated p least none) =
        base + least * p.codeSize + p.codeSize + 2 := by
      simp only [codeSize]
      omega
    rw [hstop]
    refine (atLeast.andThen more).congr fun i ts ss => ?_
    rw [Derivation.repeated_iff]
    simpa using Effect.times_andThen_iff (fun _ => True)
  | some most =>
    have more := realises_optionalCopies hp _ (most - least) rfl h
    have hstop : base + codeSize (.repeated p least (some most)) =
        base + least * p.codeSize + (most - least) * (p.codeSize + 1) := by
      simp only [codeSize]
      omega
    rw [hstop]
    refine (atLeast.andThen more).congr fun i ts ss => ?_
    rw [Effect.times_andThen_iff (· ≤ most - least), Derivation.repeated_iff]
    refine exists_congr fun k => and_congr_right fun hk => and_congr_left fun _ => ?_
    -- counted from `least` on, an upper bound below `least` leaves no further round
    have bound : k - least ≤ most - least ↔ k ≤ max least most := by omega
    simpa using bound

/-! ## Sequences and choices -/

theorem realises_sequenceCode {ps : List Pattern} (hps : ∀ p ∈ ps, RealisesItem program p)
    (base : Nat) (h : Placed program base (sequenceCode base ps)) :
    Realises program base (base + sequenceSize ps) (Derivation (.sequence ps)) := by
  induction ps generalizing base with
  | nil => exact (Realises.skip base).congr fun i ts ss => Derivation.sequence_nil_iff.symm
  | cons p ps ih =>
    rw [sequenceCode] at h
    have first := hps p List.mem_cons_self base h.left
    have others := ih (fun q hq => hps q (List.mem_cons_of_mem _ hq)) (base + p.codeSize)
      (by simpa using h.right)
    rw [sequenceSize, ← Nat.add_assoc]
    exact (first.andThen others).congr fun i ts ss => Derivation.sequence_cons_iff.symm

/-- A chain of splits does what one of the alternatives does. -/
theorem realises_choiceCode {ps : List Pattern} (hps : ∀ p ∈ ps, RealisesItem program p)
    (base : Nat) (h : Placed program base (choiceCode base ps)) :
    Realises program base (base + choiceSize ps) (Derivation (.choice ps)) := by
  induction ps generalizing base with
  | nil => exact Realises.fail h.head
  | cons p ps ih =>
    have hp := hps p List.mem_cons_self
    cases ps with
    | nil =>
      refine (hp base h).congr fun i ts ss => ?_
      simp [Derivation.choice_iff]
    | cons q ps =>
      simp only [choiceCode, List.cons_append] at h
      have first := hp (base + 1) h.tail.left
      have rest := h.tail.right
      rw [length_code] at rest
      -- behind the first alternative the program jumps over the others
      have out := Realises.jump rest.head
      have hnext : base + 1 + p.codeSize + 1 = base + p.codeSize + 2 := by omega
      have others := ih (fun r hr => hps r (List.mem_cons_of_mem _ hr)) (base + p.codeSize + 2)
        (hnext ▸ rest.tail)
      have hstop : base + choiceSize (p :: q :: ps) =
          base + p.codeSize + 2 + choiceSize (q :: ps) := by
        simp only [choiceSize]
        omega
      rw [hstop]
      refine (Realises.split h.head (first.andThen out) others).congr fun i ts ss => ?_
      simp [Derivation.choice_iff, Effect.andThen, Effect.skip]

/-- The code of a pattern does what its derivations say, wherever it stands. -/
theorem realises_code (p : Pattern) : RealisesItem program p := by
  induction p with
  | empty =>
    intro base _
    exact (Realises.skip base).congr fun i ts ss => Derivation.empty_iff.symm
  | token c =>
    intro base h
    exact Realises.token h.head
  | sequence ps ih =>
    intro base h
    exact realises_sequenceCode ih base h
  | choice ps ih =>
    intro base h
    exact realises_choiceCode ih base h
  | repeated p least most ih =>
    intro base h
    exact realises_repeated ih base h
  | labeled l p ih =>
    intro base h
    rw [code, List.cons_append] at h
    have inside := ih (base + 1) h.tail.left
    have exit : program[base + 1 + p.codeSize]? = some (.leave base l) := by
      simpa using h.tail.right.head
    have hstop : base + codeSize (.labeled l p) = base + 1 + p.codeSize + 1 := by
      simp only [codeSize]
      omega
    rw [hstop]
    exact Realises.labeled h.head inside exit

end Lockstep

end ContentGrammar
