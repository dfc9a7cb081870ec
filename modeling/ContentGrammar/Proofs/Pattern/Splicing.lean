import ContentGrammar.Proofs.Pattern.Trail

/-!
# First ways are simple

Of the ways to one point, does the preferred one visit a spot twice? Only a loop can make it do so:
with two rounds that share a spot, the first one at its end and the second one at its beginning.

* `Splices m` — such ways can go on with each other's rest;
* `FirstSimple m` — a way that no other one to the same point comes before visits no spot twice.

Both are kept by every way to put matchers together. A loop keeps the second one if the ways of its
item that take nothing come last (`FirstSimple.loop`): then the rest of the second round, which
takes something, would have been preferred in the first round.
-/

namespace ContentGrammar

namespace Lockstep

open Trail

variable {lo mid hi lo' hi' pc base back : Nat} {m n : Matcher Event} {x : Point}
  {c d : Point × Trail}

/-! ## Splicing ways -/

/-- Two ways, the second one from where the first one ends, can go on with each other's rest: the
first one to where the second one ends, and the second one back to where it begins. -/
def Spliced (m : Matcher Event) (x : Point) (c d : Point × Trail) : Prop :=
  ∃ fs gs fs' gs', forks c.2 = fs ++ gs ∧ forks d.2 = fs' ++ gs' ∧
    (∃ e ∈ m x, e.1 = d.1 ∧ forks e.2 = fs ++ gs') ∧
    ∃ e ∈ m c.1, e.1 = c.1 ∧ forks e.2 = fs' ++ gs

/-- Ways that share a spot, the second one from where the first one ends, can be spliced. -/
def Splices (m : Matcher Event) : Prop :=
  ∀ x, ∀ c ∈ m x, ∀ d ∈ m c.1, ∀ s, s ∈ visited c.2 → s ∈ visited d.2 → Spliced m x c d

theorem Splices.skip : Splices Matcher.skip := by
  intro x c hc d _ s hs _
  obtain rfl := List.mem_singleton.mp hc
  cases hs

theorem Splices.fail : Splices Matcher.fail := by
  intro x c hc
  cases hc

theorem Splices.take (accepted : TokenClass) : Splices (Matcher.take accepted) := by
  intro x c hc d _ s hs _
  obtain ⟨t, ts, -, -, rfl⟩ := Matcher.mem_take.mp hc
  cases hs

/-- There is nothing to splice if the first way takes nothing. -/
theorem Spliced.of_eq (hc : c ∈ m x) (hd : d ∈ m c.1) (h : c.1 = x) : Spliced m x c d :=
  ⟨[], forks c.2, [], forks d.2, rfl, rfl, ⟨d, h ▸ hd, rfl, rfl⟩, c, h.symm ▸ hc, rfl, rfl⟩

/-- Ways that can be spliced in one matcher can be in one with more ways. -/
theorem Spliced.mono (h : Spliced m x c d) (hsub : ∀ y, ∀ e ∈ m y, e ∈ n y) : Spliced n x c d := by
  obtain ⟨fs, gs, fs', gs', hfs, hfs', ⟨e, he, hforks⟩, e', he', hforks'⟩ := h
  exact ⟨fs, gs, fs', gs', hfs, hfs', ⟨e, hsub x e he, hforks⟩, e', hsub c.1 e' he', hforks'⟩

theorem Splices.visit (pc k : Nat) : Splices (visit pc k) := by
  intro x c hc d hd _ _ _
  exact Spliced.of_eq hc hd (by rw [mem_visit.mp hc])

theorem Splices.noting (h : Splices m) (note : Point → Point → Span) :
    Splices (m.noting fun x y => .region (note x y)) := by
  intro x c hc d hd s hs hs'
  obtain ⟨a, ha, rfl⟩ := Matcher.mem_noting.mp hc
  obtain ⟨b, hb, rfl⟩ := Matcher.mem_noting.mp hd
  obtain ⟨fs, gs, fs', gs', hc, hd, ⟨e, he, hstop, hforks⟩, e', he', hstop', hforks'⟩ :=
    h x a ha b hb s (by simpa using hs) (by simpa using hs')
  refine ⟨fs, gs, fs', gs', by simpa using hc, by simpa using hd,
    ⟨_, Matcher.mem_noting.mpr ⟨e, he, rfl⟩, hstop, by simpa using hforks⟩,
    _, Matcher.mem_noting.mpr ⟨e', he', rfl⟩, hstop', by simpa using hforks'⟩

/-- A spot at the end of a way and at the beginning of one that begins there or later is at the
point where both meet. -/
theorem eq_of_shared {y : Point} {s : Spot} (h : Tidy lo hi m) (h' : Tidy lo' hi' n)
    (hc : c ∈ m x) (hd : d ∈ n y) (hreach : c.1.Reaches y) (hs : s ∈ visited c.2)
    (hs' : s ∈ visited d.2) : y = c.1 := by
  have hle := (h.within x c hc s hs).2.2.2
  have hge := (h'.within y d hd s hs').2.2.1
  exact hreach.eq_of_position_le (Nat.le_trans hge hle)

/-- Spots in the one of two pieces of code are none in the other. -/
theorem not_shared {y : Point} {s : Spot} (h : Tidy lo mid m) (h' : Tidy mid hi n) (hc : c ∈ m x)
    (hd : d ∈ n y) (hs : s ∈ visited c.2) (hs' : s ∈ visited d.2) : False := by
  have hlt := (h.within x c hc s hs).2.1
  have hge := (h'.within y d hd s hs').1
  omega

/-- Ways of two matchers in a row share spots in the first parts or in the second ones, and the
parts that do not have to be spliced take nothing. -/
theorem Splices.andThen (h : Splices m) (h' : Splices n) (ht : Tidy lo mid m)
    (ht' : Tidy mid hi n) : Splices (m.andThen n) := by
  intro x c hc d hd s hs hs'
  obtain ⟨a, ha, b, hb, rfl⟩ := Matcher.mem_andThen.mp hc
  obtain ⟨a', ha', b', hb', rfl⟩ := Matcher.mem_andThen.mp hd
  dsimp only at ha' ⊢
  have reach := ht'.reaches a.1 b hb
  have reach' := ht.reaches b.1 a' ha'
  rw [visited_append, List.mem_append] at hs hs'
  rcases hs with hs | hs
  · rcases hs' with hs' | hs'
    case inr => exact (not_shared ht ht' ha hb' hs hs').elim
    -- a spot in both first parts: these are spliced, and the second parts go with their ends
    have hmeet : b.1 = a.1 := eq_of_shared ht ht ha ha' reach hs hs'
    rw [hmeet] at ha'
    obtain ⟨fs, gs, fs', gs', hfs, hfs', ⟨e, he, hstop, hforks⟩, e', he', hstop', hforks'⟩ :=
      h x a ha a' ha' s hs hs'
    refine ⟨fs, gs ++ forks b.2, fs', gs' ++ forks b'.2, by simp [hfs], by simp [hfs'],
      ⟨_, Matcher.mem_andThen.mpr ⟨e, he, b', hstop ▸ hb', rfl⟩, rfl, by simp [hforks]⟩,
      _, Matcher.mem_andThen.mpr ⟨e', hmeet ▸ he', b, hstop' ▸ hb, rfl⟩, rfl, by simp [hforks']⟩
  · rcases hs' with hs' | hs'
    case inl => exact (not_shared ht ht' ha' hb hs' hs).elim
    -- a spot in both second parts: these are spliced behind the first parts
    have hmeet : a'.1 = b.1 := eq_of_shared ht' ht' hb hb' reach' hs hs'
    obtain ⟨fs, gs, fs', gs', hfs, hfs', ⟨e, he, hstop, hforks⟩, e', he', hstop', hforks'⟩ :=
      h' a.1 b hb b' (hmeet ▸ hb') s hs hs'
    refine ⟨forks a.2 ++ fs, gs, forks a'.2 ++ fs', gs', by simp [hfs], by simp [hfs'],
      ⟨_, Matcher.mem_andThen.mpr ⟨a, ha, e, he, rfl⟩, hstop, by simp [hforks]⟩,
      _, Matcher.mem_andThen.mpr ⟨a', ha', e', hmeet.symm ▸ he', rfl⟩, hstop', by simp [hforks']⟩

/-- Ways by different alternatives share no spot but the one at which they part. -/
theorem Splices.orElse (h : Splices m) (h' : Splices n)
    (hcross : ∀ x, ∀ c ∈ m.orElse n x, ∀ d ∈ m.orElse n c.1, ∀ s, s ∈ visited c.2 →
      s ∈ visited d.2 → c ∈ m x ∧ d ∈ m c.1 ∨ c ∈ n x ∧ d ∈ n c.1 ∨ c.1 = x) :
    Splices (m.orElse n) := by
  intro x c hc d hd s hs hs'
  rcases hcross x c hc d hd s hs hs' with ⟨hc, hd⟩ | ⟨hc, hd⟩ | hmeet
  · exact (h x c hc d hd s hs hs').mono fun _ _ he => Matcher.mem_orElse.mpr (.inl he)
  · exact (h' x c hc d hd s hs hs').mono fun _ _ he => Matcher.mem_orElse.mpr (.inr he)
  · exact Spliced.of_eq hc hd hmeet

/-- Ways by different successors of an address share that address only. -/
theorem eq_of_shared_visit {k l : Nat} {s : Spot} (h : Tidy lo hi m) (h' : Tidy lo' hi' n)
    (hpc : pc < lo) (hpc' : pc < lo') (hapart : hi ≤ lo' ∨ hi' ≤ lo)
    (hc : c ∈ (visit pc k).andThen m x) (hd : d ∈ (visit pc l).andThen n c.1)
    (hs : s ∈ visited c.2) (hs' : s ∈ visited d.2) : c.1 = x := by
  obtain ⟨a, ha, rfl⟩ := mem_visit_andThen.mp hc
  obtain ⟨b, hb, rfl⟩ := mem_visit_andThen.mp hd
  rw [visited_visit, List.mem_cons] at hs hs'
  have inside := fun hs => h.within x a ha s hs
  have inside' := fun hs => h'.within a.1 b hb s hs
  rcases hs with rfl | hs
  · rcases hs' with heq | hs'
    · refine (h.reaches x a ha).eq_of_position_le ?_
      exact Nat.le_of_eq (Prod.mk.inj heq).2.symm
    · have := (inside' hs').1
      dsimp only at this
      omega
  · have := inside hs
    rcases hs' with rfl | hs'
    · dsimp only at this
      omega
    · have := inside' hs'
      omega

/-- The two sides of a branch share no spot but the branch. -/
theorem Splices.branch (h : Splices m) (h' : Splices n) (ht : Tidy (pc + 1) mid m)
    (ht' : Tidy mid hi n) (hmid : pc + 1 ≤ mid) : Splices (branch pc m n) := by
  have first : Splices ((Lockstep.visit pc 0).andThen m) :=
    (Splices.visit pc 0).andThen h (Tidy.visit_self pc 0) ht
  have second : Splices ((Lockstep.visit pc 1).andThen n) :=
    (Splices.visit pc 1).andThen h' (Tidy.visit 1 (Nat.le_refl pc) hmid) ht'
  refine first.orElse second fun x c hc d hd s hs hs' => ?_
  rcases Matcher.mem_orElse.mp hc with hc | hc <;> rcases Matcher.mem_orElse.mp hd with hd | hd
  · exact .inl ⟨hc, hd⟩
  · exact .inr <| .inr <|
      eq_of_shared_visit ht ht' (Nat.lt_succ_self pc) hmid (.inl (Nat.le_refl _)) hc hd hs hs'
  · exact .inr <| .inr <|
      eq_of_shared_visit ht' ht hmid (Nat.lt_succ_self pc) (.inr (Nat.le_refl _)) hc hd hs hs'
  · exact .inr (.inl ⟨hc, hd⟩)

/-- A round adds a spot at its start and one at its end, which no way has twice. -/
theorem Splices.round (h : Splices m) (ht : Tidy (base + 1) back m) (hback : base < back) :
    Splices (round base back m) := by
  have inside : Splices (m.andThen (Lockstep.visit back 0)) :=
    h.andThen (Splices.visit back 0) ht (Tidy.visit_self back 0)
  exact (Splices.visit base 0).andThen inside (Tidy.visit_self base 0) (ht.andThen_visit hback 0)

/-- What goes through a loop from where a way through it ends goes through it with that way in
front: it takes the place of the last fork, which leaves the loop. -/
theorem exists_more_rounds (hc : c ∈ loop base back m x) :
    ∃ fs, forks c.2 = fs ++ [1] ∧ ∀ d ∈ loop base back m c.1,
      ∃ e ∈ loop base back m x, e.1 = d.1 ∧ forks e.2 = fs ++ forks d.2 := by
  induction x, c, hc using Matcher.more_induct with
  | stop x c hc =>
    obtain rfl := mem_visit.mp hc
    exact ⟨[], rfl, fun d hd => ⟨d, hd, rfl, rfl⟩⟩
  | round x a b ha hlt hb ih =>
    obtain ⟨fs, hfs, hmore⟩ := ih
    refine ⟨forks a.2 ++ fs, by simp [hfs], fun d hd => ?_⟩
    obtain ⟨e, he, hstop, hforks⟩ := hmore d hd
    exact ⟨_, Matcher.mem_more.mpr (.inl ⟨a, ha, hlt, e, he, rfl⟩), hstop, by simp [hforks]⟩

/-- Where one way through a loop ends and another one begins, both are at the branch. -/
theorem Splices.loop (base back : Nat) (m : Matcher Event) : Splices (loop base back m) := by
  intro x c hc d hd _ _ _
  obtain ⟨fs, hfs, hmore⟩ := exists_more_rounds hc
  refine ⟨fs, [1], [], forks d.2, hfs, rfl, hmore d hd, (c.1, [.visit (base, c.1.position) 1]), ?_,
    rfl, rfl⟩
  exact Matcher.mem_more.mpr (.inr (mem_visit.mpr rfl))

/-! ## First ways -/

/-- No way to the same point comes before this one. -/
def IsForemost (m : Matcher Event) (x : Point) (c : Point × Trail) : Prop :=
  c ∈ m x ∧ ∀ d ∈ m x, d.1 = c.1 → ¬ Ahead (forks d.2) (forks c.2)

/-- The first way to a point visits no spot twice. -/
def FirstSimple (m : Matcher Event) : Prop :=
  ∀ x c, IsForemost m x c → (visited c.2).Nodup

theorem FirstSimple.skip : FirstSimple Matcher.skip := by
  intro x c hc
  obtain rfl := List.mem_singleton.mp hc.1
  exact List.nodup_nil

theorem FirstSimple.fail : FirstSimple Matcher.fail := by
  intro x c hc
  cases hc.1

theorem FirstSimple.take (accepted : TokenClass) : FirstSimple (Matcher.take accepted) := by
  intro x c hc
  obtain ⟨t, ts, -, -, rfl⟩ := Matcher.mem_take.mp hc.1
  exact List.nodup_nil

theorem FirstSimple.visit (pc k : Nat) : FirstSimple (visit pc k) := by
  intro x c hc
  obtain rfl := mem_visit.mp hc.1
  exact List.nodup_singleton _

theorem FirstSimple.noting (h : FirstSimple m) (note : Point → Point → Span) :
    FirstSimple (m.noting fun x y => .region (note x y)) := by
  rintro x c ⟨hc, hfirst⟩
  obtain ⟨a, ha, rfl⟩ := Matcher.mem_noting.mp hc
  have hsimple := h x a ⟨ha, fun d hd hstop hahead =>
    hfirst _ (Matcher.mem_noting.mpr ⟨d, hd, rfl⟩) hstop (by simpa using hahead)⟩
  simpa using hsimple

/-- The first part of a foremost way is foremost. -/
theorem IsForemost.left {a b : Point × Trail} (ha : a ∈ m x) (hb : b ∈ n a.1)
    (h : ∀ d ∈ m.andThen n x, d.1 = b.1 → ¬ Ahead (forks d.2) (forks (a.2 ++ b.2))) :
    IsForemost m x a := by
  refine ⟨ha, fun d hd hstop hahead => ?_⟩
  refine h _ (Matcher.mem_andThen.mpr ⟨d, hd, b, hstop ▸ hb, rfl⟩) rfl ?_
  rw [forks_append, forks_append]
  exact hahead.append

/-- The parts of the first way are first ways, and share a spot only where they meet. -/
theorem FirstSimple.andThen (h : FirstSimple m) (h' : FirstSimple n) (ht : Tidy lo mid m)
    (ht' : Tidy mid hi n) : FirstSimple (m.andThen n) := by
  rintro x c ⟨hc, hfirst⟩
  obtain ⟨a, ha, b, hb, rfl⟩ := Matcher.mem_andThen.mp hc
  have first := h x a (IsForemost.left ha hb hfirst)
  have second := h' a.1 b ⟨hb, fun d hd hstop hahead =>
    hfirst _ (Matcher.mem_andThen.mpr ⟨a, ha, d, hd, rfl⟩) hstop (by simpa using hahead)⟩
  rw [visited_append, List.nodup_append']
  exact ⟨first, second, fun s hs hs' => not_shared ht ht' ha hb hs hs'⟩

theorem FirstSimple.orElse (h : FirstSimple m) (h' : FirstSimple n) :
    FirstSimple (m.orElse n) := by
  rintro x c ⟨hc, hfirst⟩
  rcases Matcher.mem_orElse.mp hc with hc | hc
  · exact h x c ⟨hc, fun d hd => hfirst d (Matcher.mem_orElse.mpr (.inl hd))⟩
  · exact h' x c ⟨hc, fun d hd => hfirst d (Matcher.mem_orElse.mpr (.inr hd))⟩

theorem FirstSimple.branch (h : FirstSimple m) (h' : FirstSimple n) (ht : Tidy (pc + 1) mid m)
    (ht' : Tidy mid hi n) (hmid : pc + 1 ≤ mid) : FirstSimple (branch pc m n) := by
  have first : FirstSimple ((Lockstep.visit pc 0).andThen m) :=
    (FirstSimple.visit pc 0).andThen h (Tidy.visit_self pc 0) ht
  have second : FirstSimple ((Lockstep.visit pc 1).andThen n) :=
    (FirstSimple.visit pc 1).andThen h' (Tidy.visit 1 (Nat.le_refl pc) hmid) ht'
  exact first.orElse second

theorem FirstSimple.round (h : FirstSimple m) (ht : Tidy (base + 1) back m) (hback : base < back) :
    FirstSimple (round base back m) := by
  have inside : FirstSimple (m.andThen (Lockstep.visit back 0)) :=
    h.andThen (FirstSimple.visit back 0) ht (Tidy.visit_self back 0)
  exact (FirstSimple.visit base 0).andThen inside (Tidy.visit_self base 0)
    (ht.andThen_visit hback 0)

/-- Ways that take nothing come last. -/
def EmptyLast (m : Matcher Event) : Prop := ∀ x, (m x).Pairwise fun c d => c.1 = x → d.1 = x

/-- Of two ways in a list one comes before the other. -/
theorem related_of_mem {α : Type} {R : α → α → Prop} {as : List α} {a b : α}
    (h : as.Pairwise R) (ha : a ∈ as) (hb : b ∈ as) : a = b ∨ R a b ∨ R b a := by
  obtain ⟨i, hi, rfl⟩ := List.getElem_of_mem ha
  obtain ⟨j, hj, rfl⟩ := List.getElem_of_mem hb
  rw [List.pairwise_iff_getElem] at h
  rcases Nat.lt_trichotomy i j with hij | rfl | hij
  · exact .inr (.inl (h i j hi hj hij))
  · exact .inl rfl
  · exact .inr (.inr (h j i hj hi hij))

/-- If a way shares a spot with one that takes something from where it ends, it was not the best
choice: another way, preferred to it, leads to where both together do. -/
theorem exists_ahead_of_shared (hs : Splices m) (ht : Tidy lo hi m) (hlast : EmptyLast m)
    {a b : Point × Trail} {s : Spot} (ha : a ∈ m x) (hb : b ∈ m a.1) (hne : b.1 ≠ a.1)
    (hsa : s ∈ visited a.2) (hsb : s ∈ visited b.2) :
    ∃ e ∈ m x, e.1 = b.1 ∧ Ahead (forks e.2) (forks a.2) := by
  obtain ⟨fs, gs, fs', gs', hfs, hfs', ⟨e, he, hstop, hforks⟩, e', he', hstop', hforks'⟩ :=
    hs x a ha b hb s hsa hsb
  refine ⟨e, he, hstop, ?_⟩
  rw [hforks, hfs, ahead_append_left]
  -- the rest of `b` takes something and the rest of `a` does not
  have order := (ht.ordered a.1).and (hlast a.1)
  rcases related_of_mem order hb he' with heq | ⟨hahead, -⟩ | ⟨-, hempty⟩
  · exact absurd (heq ▸ hstop') hne
  · rwa [hfs', hforks', ahead_append_left] at hahead
  · exact absurd (hempty hstop') hne

theorem EmptyLast.round (h : EmptyLast m) : EmptyLast (round base back m) := by
  intro x
  rw [round_eq, List.pairwise_map]
  exact h x

/-- A round goes through the branch of its loop at its start only. -/
theorem branch_not_mem_round (ht : Tidy (base + 1) back m) (hback : base < back)
    {y : Point} (hc : c ∈ round base back m x) (hy : x.position < y.position) :
    (base, y.position) ∉ visited c.2 := by
  rw [round_eq, List.mem_map] at hc
  obtain ⟨a, ha, rfl⟩ := hc
  intro hs
  simp only [List.cons_append, visited_visit, visited_append, visited_nil, List.mem_cons,
    List.mem_append, List.not_mem_nil, or_false, Prod.mk.injEq] at hs
  rcases hs with ⟨-, heq⟩ | hs | ⟨heq, -⟩
  · omega
  · have := (ht.within x a ha _ hs).1
    dsimp only at this
    omega
  · omega

/-- In the first way through a loop a round shares no spot with what is behind it: a spot that it
shared with the next round would be in the end of the one and in the beginning of the other, and the
rest of the next round would have been preferred in the first one. -/
theorem round_disjoint (hs : Splices m) (ht : Tidy (base + 1) back m) (hback : base < back)
    (hlast : EmptyLast m) {a b : Point × Trail} (ha : a ∈ round base back m x)
    (hlt : a.1.rest.length < x.rest.length) (hb : b ∈ loop base back m a.1)
    (hfirst : ∀ d ∈ loop base back m x, d.1 = b.1 → ¬ Ahead (forks d.2) (forks (a.2 ++ b.2))) :
    (visited a.2).Disjoint (visited b.2) := by
  have tidy := ht.round hback
  intro s hsa hsb
  rcases Matcher.mem_more.mp hb with ⟨a', ha', hlt', b', hb', rfl⟩ | hb
  · rcases List.mem_append.mp (visited_append _ _ ▸ hsb) with hsb | hsb
    · have hne : a'.1 ≠ a.1 := fun heq => by simp [heq] at hlt'
      obtain ⟨e, he, hstop, hahead⟩ :=
        exists_ahead_of_shared (hs.round ht hback) tidy hlast.round ha ha' hne hsa hsb
      refine hfirst _ (Matcher.mem_more.mpr (.inl ⟨e, he, ?_, b', hstop ▸ hb', rfl⟩)) rfl ?_
      · rw [hstop]
        exact Nat.lt_trans hlt' hlt
      · rw [forks_append, forks_append, forks_append]
        exact hahead.append
    · -- the second round has taken something, so behind it all spots are further on
      have hmove := (tidy.reaches a.1 a' ha').length_lt_iff.mp hlt'
      have hle := (tidy.within x a ha s hsa).2.2.2
      have hge := ((ht.loop hback).within a'.1 b' hb' s hsb).2.2.1
      omega
  · obtain rfl := mem_visit.mp hb
    obtain rfl := List.mem_singleton.mp hsb
    exact branch_not_mem_round ht hback ha ((tidy.reaches x a ha).length_lt_iff.mp hlt) hsa

/-- The first way through a loop is simple if the first ways through its item are. -/
theorem FirstSimple.loop (h : FirstSimple m) (hs : Splices m) (ht : Tidy (base + 1) back m)
    (hback : base < back) (hlast : EmptyLast m) : FirstSimple (loop base back m) := by
  rintro x c ⟨hc, hfirst⟩
  induction x, c, hc using Matcher.more_induct with
  | stop x c hc =>
    obtain rfl := mem_visit.mp hc
    exact List.nodup_singleton _
  | round x a b ha hlt hb ih =>
    have first : (visited a.2).Nodup := by
      refine h.round ht hback x a ⟨ha, fun d hd hstop hahead => ?_⟩
      refine hfirst _ (Matcher.mem_more.mpr (.inl ⟨d, hd, hstop ▸ hlt, b, hstop ▸ hb, rfl⟩)) rfl ?_
      rw [forks_append, forks_append]
      exact hahead.append
    have others : (visited b.2).Nodup := by
      refine ih fun d hd hstop hahead => ?_
      refine hfirst _ (Matcher.mem_more.mpr (.inl ⟨a, ha, hlt, d, hd, rfl⟩)) hstop ?_
      rw [forks_append, forks_append, ahead_append_left]
      exact hahead
    rw [visited_append, List.nodup_append']
    exact ⟨first, others, round_disjoint hs ht hback hlast ha hlt hb hfirst⟩

end Lockstep

end ContentGrammar
