import ContentGrammar.Proofs.Pattern.Code
import ContentGrammar.Proofs.Pattern.Splicing

/-!
# Charts of code

A chart of a piece of code is a matcher that leaves trails: its ways go through the code, every
simple way through the code is one of them (`Follows`), and without the trails it is a matcher of a
pattern (`Charts`). `charted_code` gives a chart of the code of each pattern, wherever it stands; it
is put together from one lemma for each shape of code, as `realises_code` is.

A way is told from the others by its forks, so a chart says which ways through a program are those
of backtracking, and in which order, and not only what they match.
-/

namespace ContentGrammar

/-- A thread at an address and a point. -/
abbrev Point.config (x : Point) (pc : Nat) (t : Lockstep.Thread) : Lockstep.Config :=
  ⟨pc, x.position, x.rest, t⟩

namespace Lockstep

open Pattern Trail

variable {program : Program} {a b lo mid hi : Nat}

/-! ## Simple ways through code -/

/-- The ways of the matcher go through the code between two addresses, and no simple way goes
through it otherwise. -/
structure Follows (program : Program) (a b : Nat) (m : Matcher Event) : Prop where
  sound : ∀ x, ∀ c ∈ m x, ∀ t v f r, Way program (c.1.config b (t.after (regions c.2))) v f r →
    Way program (x.config a t) (visited c.2 ++ v) (forks c.2 ++ f) r
  complete : ∀ x t v f r, Way program (x.config a t) v f r → v.Nodup → ∃ c ∈ m x, ∃ v' f',
    v = visited c.2 ++ v' ∧ f = forks c.2 ++ f' ∧
      Way program (c.1.config b (t.after (regions c.2))) v' f' r

section

variable {m n : Matcher Event}

theorem Follows.skip : Follows program a a Matcher.skip := by
  constructor
  · intro x c hc t v f r hw
    obtain rfl := List.mem_singleton.mp hc
    exact hw
  · intro x t v f r hw _
    exact ⟨_, List.mem_singleton_self _, v, f, rfl, rfl, hw⟩

theorem Follows.fail (h : program[a]? = some .fail) : Follows program a b Matcher.fail := by
  constructor
  · intro x c hc
    cases hc
  · intro x t v f r hw _
    obtain ⟨d, hd, _⟩ := hw.exists_next (Config.isFinal_eq_false h (by simp))
    rw [Config.next_fail h] at hd
    cases hd

theorem Follows.jump (h : program[a]? = some (.jump b)) : Follows program a b (visit a 0) := by
  have hnext : ∀ x t, Config.next program (Point.config x a t) = [x.config b t] :=
    fun _ _ => Config.next_jump h
  constructor
  · intro x c hc t v f r hw
    obtain rfl := mem_visit.mp hc
    exact (Way.single_iff (hnext x t)).mpr ⟨v, f, rfl, rfl, hw⟩
  · intro x t v f r hw _
    obtain ⟨v', f', rfl, rfl, hw'⟩ := (Way.single_iff (hnext x t)).mp hw
    exact ⟨_, mem_visit.mpr rfl, v', f', rfl, rfl, hw'⟩

theorem Follows.token {accepted : TokenClass} (h : program[a]? = some (.token accepted)) :
    Follows program a (a + 1) ((visit a 0).andThen (Matcher.take accepted)) := by
  have hnext : ∀ i k ts t, accepted.accepts k = true →
      Config.next program (Point.config ⟨i, k :: ts⟩ a t) =
        [Point.config ⟨i + 1, ts⟩ (a + 1) t] := by
    intro i k ts t hk
    simp [Config.next_token h, hk]
  constructor
  · rintro ⟨i, rest⟩ c hc t v f r hw
    obtain ⟨e, he, rfl⟩ := mem_visit_andThen.mp hc
    obtain ⟨k, ts, hk, rfl, rfl⟩ := Matcher.mem_take.mp he
    exact (Way.single_iff (hnext i k ts t hk)).mpr ⟨v, f, rfl, rfl, hw⟩
  · rintro ⟨i, rest⟩ t v f r hw _
    -- a way through the instruction goes on from it, so there is a token that it accepts
    obtain ⟨d, hd, -⟩ := hw.exists_next (Config.isFinal_eq_false h (by simp))
    rw [Config.next_token h] at hd
    cases rest with
    | nil => cases hd
    | cons k ts =>
      dsimp only at hd
      split at hd
      case isFalse => cases hd
      case isTrue hk =>
        obtain ⟨v', f', rfl, rfl, hw'⟩ := (Way.single_iff (hnext i k ts t hk)).mp hw
        exact ⟨_, mem_visit_andThen.mpr ⟨_, Matcher.mem_take.mpr ⟨k, ts, hk, rfl, rfl⟩, rfl⟩, v',
          f', rfl, rfl, hw'⟩

/-- Code behind code is gone through by one matcher behind the other. -/
theorem Follows.andThen (h : Follows program a mid m) (h' : Follows program mid b n) :
    Follows program a b (m.andThen n) := by
  constructor
  · intro x c hc t v f r hw
    obtain ⟨d, hd, e, he, rfl⟩ := Matcher.mem_andThen.mp hc
    simp only [regions_append, Thread.after_append] at hw
    have second := h'.sound d.1 e he _ v f r hw
    simpa using h.sound x d hd t _ _ r second
  · intro x t v f r hw hnodup
    obtain ⟨d, hd, v', f', rfl, rfl, hw'⟩ := h.complete x t v f r hw hnodup
    have hnodup' := (List.nodup_append'.mp hnodup).2.1
    obtain ⟨e, he, v'', f'', rfl, rfl, hw''⟩ := h'.complete d.1 _ v' f' r hw' hnodup'
    exact ⟨_, Matcher.mem_andThen.mpr ⟨d, hd, e, he, rfl⟩, v'', f'', by simp, by simp,
      by simpa using hw''⟩

/-- A split is gone through by the ways from its first successor and those from its second. -/
theorem Follows.branch {first second : Nat} (hs : program[a]? = some (.split first second))
    (h : Follows program first b m) (h' : Follows program second b n) :
    Follows program a b (branch a m n) := by
  have hnext : ∀ x t, Config.next program (Point.config x a t) =
      [x.config first t, x.config second t] := fun _ _ => Config.next_split hs
  constructor
  · intro x c hc t v f r hw
    rw [Way.split_iff (hnext x t)]
    rcases Matcher.mem_orElse.mp hc with hc | hc
    · obtain ⟨e, he, rfl⟩ := mem_visit_andThen.mp hc
      exact ⟨_, _, rfl, .inl ⟨rfl, h.sound x e he t v f r hw⟩⟩
    · obtain ⟨e, he, rfl⟩ := mem_visit_andThen.mp hc
      exact ⟨_, _, rfl, .inr ⟨rfl, h'.sound x e he t v f r hw⟩⟩
  · intro x t v f r hw hnodup
    obtain ⟨v', f', rfl, ⟨rfl, hw'⟩ | ⟨rfl, hw'⟩⟩ := (Way.split_iff (hnext x t)).mp hw
    · obtain ⟨e, he, v'', f'', rfl, rfl, hw''⟩ :=
        h.complete x t v' f' r hw' (List.nodup_cons.mp hnodup).2
      exact ⟨_, Matcher.mem_orElse.mpr (.inl (mem_visit_andThen.mpr ⟨e, he, rfl⟩)), v'', f'', rfl,
        rfl, hw''⟩
    · obtain ⟨e, he, v'', f'', rfl, rfl, hw''⟩ :=
        h'.complete x t v' f' r hw' (List.nodup_cons.mp hnodup).2
      exact ⟨_, Matcher.mem_orElse.mpr (.inr (mem_visit_andThen.mpr ⟨e, he, rfl⟩)), v'', f'', rfl,
        rfl, hw''⟩

/-- The way into a labeled region, through it, and out of it. -/
def labeledBy (l : Label) (enter leave : Nat) (m : Matcher Event) : Matcher Event :=
  (visit enter 0).andThen ((m.andThen (visit leave 0)).noting
    fun x y => .region ⟨l, x.position, y.position⟩)

theorem mem_labeledBy {l : Label} {x : Point} {c : Point × Trail} :
    c ∈ labeledBy l a b m x ↔ ∃ e ∈ m x, c = (e.1, .visit (a, x.position) 0 ::
      (e.2 ++ [.visit (b, e.1.position) 0, .region ⟨l, x.position, e.1.position⟩])) := by
  simp [labeledBy, Matcher.mem_noting, Matcher.mem_andThen, mem_visit]

/-- Code between an entry and an exit is gone through as without them, and leaves a region. -/
theorem Follows.labeled {l : Label} {k : Nat} (he : program[a]? = some .enter)
    (h : Follows program (a + 1) b m) (hl : program[b]? = some (.leave k l)) :
    Follows program a (b + 1) (labeledBy l a b m) := by
  have into : ∀ x t, Config.next program (Point.config x a t) =
      [x.config (a + 1) ⟨x.position :: t.opened, t.spans⟩] := fun _ _ => Config.next_enter he
  have out : ∀ (x y : Point) (t : Thread) (ss : List Span),
      Config.next program (y.config b (Thread.after ⟨x.position :: t.opened, t.spans⟩ ss)) =
        [y.config (b + 1) (t.after (ss ++ [⟨l, x.position, y.position⟩]))] := by
    intro x y t ss
    simp [Thread.after, Config.next_leave hl]
  constructor
  · intro x c hc t v f r hw
    obtain ⟨e, he, rfl⟩ := mem_labeledBy.mp hc
    simp only [regions_visit, regions_append, regions_region, regions_nil] at hw
    have last := (Way.single_iff (out x e.1 t (regions e.2))).mpr ⟨v, f, rfl, rfl, hw⟩
    have inside := h.sound x e he _ _ _ r last
    refine (Way.single_iff (into x t)).mpr ⟨_, _, ?_, ?_, inside⟩
    · simp [Config.spot]
    · simp
  · intro x t v f r hw hnodup
    obtain ⟨v₁, f₁, rfl, rfl, hw₁⟩ := (Way.single_iff (into x t)).mp hw
    obtain ⟨e, he, v₂, f₂, rfl, rfl, hw₂⟩ :=
      h.complete x _ v₁ f₁ r hw₁ (List.nodup_cons.mp hnodup).2
    obtain ⟨v₃, f₃, rfl, rfl, hw₃⟩ := (Way.single_iff (out x e.1 t (regions e.2))).mp hw₂
    refine ⟨_, mem_labeledBy.mpr ⟨e, he, rfl⟩, v₃, f₃, ?_, ?_, ?_⟩
    · simp [Config.spot]
    · simp
    · simpa using hw₃

/-- A simple way does not come back to the branch of a loop at one position, so each of its rounds
takes a token. -/
theorem Follows.loop {base back stop : Nat} (h : Follows program (base + 1) back m)
    (ht : Tidy lo hi m) (hs : program[base]? = some (.split (base + 1) stop))
    (hj : program[back]? = some (.jump base)) : Follows program base stop (loop base back m) := by
  have branch : ∀ x t, Config.next program (Point.config x base t) =
      [x.config (base + 1) t, x.config stop t] := fun _ _ => Config.next_split hs
  have jump : ∀ x t, Config.next program (Point.config x back t) = [x.config base t] :=
    fun _ _ => Config.next_jump hj
  have mem_round : ∀ {x : Point} {e : Point × Trail}, e ∈ m x → (e.1,
      .visit (base, x.position) 0 :: e.2 ++ [.visit (back, e.1.position) 0]) ∈
        round base back m x := by
    intro x e he
    rw [round_eq]
    exact List.mem_map.mpr ⟨e, he, rfl⟩
  constructor
  · intro x c hc t v f r hw
    induction x, c, hc using Matcher.more_induct generalizing t with
    | stop x c hc =>
      obtain rfl := mem_visit.mp hc
      exact (Way.split_iff (branch x t)).mpr ⟨v, _, rfl, .inr ⟨rfl, hw⟩⟩
    | round x c d hc hlt hd ih =>
      rw [round_eq, List.mem_map] at hc
      obtain ⟨e, he, rfl⟩ := hc
      have others := ih (t.after (regions e.2)) (by simpa using hw)
      have last := (Way.single_iff (jump e.1 _)).mpr ⟨_, _, rfl, rfl, others⟩
      have first := h.sound x e he t _ _ r last
      refine (Way.split_iff (branch x t)).mpr ⟨_, _, ?_, .inl ⟨?_, first⟩⟩
      · simp [Config.spot]
      · simp
  · intro x t v f r hw hnodup
    -- a round is followed by a shorter way, which leaves the loop or goes round again
    induction hl : v.length using Nat.strongRecOn generalizing x t v f with
    | ind l ih =>
      subst hl
      obtain ⟨v₁, f₁, rfl, ⟨rfl, hw₁⟩ | ⟨rfl, hw₁⟩⟩ := (Way.split_iff (branch x t)).mp hw
      · obtain ⟨hnew, hnodup₁⟩ := List.nodup_cons.mp hnodup
        obtain ⟨e, he, v₂, f₂, rfl, rfl, hw₂⟩ := h.complete x t v₁ f₁ r hw₁ hnodup₁
        obtain ⟨v₃, f₃, rfl, rfl, hw₃⟩ := (Way.single_iff (jump e.1 _)).mp hw₂
        have hnodup₃ := (List.nodup_cons.mp (List.nodup_append'.mp hnodup₁).2.1).2
        -- without a token the round would come back to a spot that is on the way already
        have hlt : e.1.rest.length < x.rest.length := by
          have hreach := ht.reaches x e he
          refine hreach.length_lt_iff.mpr (Nat.lt_of_not_le fun hle => hnew ?_)
          have hmem := hw₃.spot_mem
          rw [hreach.eq_of_position_le hle] at hmem
          exact List.mem_append_right _ (List.mem_cons_of_mem _ hmem)
        obtain ⟨d, hd, v', f', rfl, rfl, hw'⟩ :=
          ih v₃.length (by simp; omega) e.1 _ v₃ f₃ hw₃ hnodup₃ rfl
        refine ⟨_, Matcher.mem_more.mpr (.inl ⟨_, mem_round he, hlt, d, hd, rfl⟩), v', f', ?_, ?_,
          ?_⟩
        · simp [Config.spot]
        · simp
        · simpa using hw'
      · exact ⟨_, Matcher.mem_more.mpr (.inr (mem_visit.mpr rfl)), v₁, f₁, rfl, rfl, hw₁⟩

/-! ## What a matcher reports -/

/-- A matcher without the spots that its ways visit. -/
def spansOf (m : Matcher Event) : Matcher Span := fun x => (m x).map fun c => (c.1, regions c.2)

@[simp] theorem spansOf_skip : spansOf Matcher.skip = Matcher.skip := rfl

@[simp] theorem spansOf_fail : spansOf Matcher.fail = Matcher.fail := rfl

@[simp] theorem spansOf_visit (pc k : Nat) : spansOf (visit pc k) = Matcher.skip := rfl

@[simp] theorem spansOf_take (accepted : TokenClass) :
    spansOf (Matcher.take accepted) = Matcher.take accepted := by
  funext x
  unfold spansOf Matcher.take
  split
  · rfl
  · split <;> rfl

@[simp] theorem spansOf_andThen : spansOf (m.andThen n) = (spansOf m).andThen (spansOf n) := by
  funext x
  simp [spansOf, Matcher.andThen, List.map_flatMap, List.flatMap_map, Function.comp_def]

@[simp] theorem spansOf_orElse : spansOf (m.orElse n) = (spansOf m).orElse (spansOf n) := by
  funext x
  simp [spansOf, Matcher.orElse]

@[simp] theorem spansOf_noting (note : Point → Point → Span) :
    spansOf (m.noting fun x y => .region (note x y)) = (spansOf m).noting note := by
  funext x
  simp [spansOf, Matcher.noting]

@[simp] theorem spansOf_more : spansOf (m.more n) = (spansOf m).more (spansOf n) := by
  funext x
  induction hl : x.rest.length using Nat.strongRecOn generalizing x with
  | ind l ih =>
    subst hl
    rw [spansOf, Matcher.more, Matcher.more, List.map_append, List.map_flatMap, spansOf, spansOf,
      List.flatMap_map]
    congr 1
    refine List.flatMap_congr fun c _ => ?_
    by_cases hlt : c.1.rest.length < x.rest.length
    · have others := ih _ hlt c.1 rfl
      rw [spansOf] at others
      rw [if_pos hlt, if_pos hlt, ← others]
      simp [Function.comp_def]
    · rw [if_neg hlt, if_neg hlt, List.map_nil]

end

/-! ## Charts -/

/-- Code from `a` on and below `hi`, left at `b`, is gone through by a matcher that reports what
`m` does. Under the assumption `E` its first ways are simple. -/
structure Charts (program : Program) (E : Prop) (a hi b : Nat) (m : Matcher Span)
    (chart : Matcher Event) : Prop where
  spans : spansOf chart = m
  le : a ≤ hi
  follows : Follows program a b chart
  tidy : Tidy a hi chart
  splices : Splices chart
  simple : E → FirstSimple chart

/-- Some matcher charts the code. -/
def Charted (program : Program) (E : Prop) (a hi b : Nat) (m : Matcher Span) : Prop :=
  ∃ chart, Charts program E a hi b m chart

variable {E : Prop} {m n : Matcher Span}

theorem Charted.skip : Charted program E a a a Matcher.skip :=
  ⟨_, spansOf_skip, Nat.le_refl a, .skip, .skip, .skip, fun _ => .skip⟩

theorem Charted.fail (h : program[a]? = some .fail) : Charted program E a (a + 1) b Matcher.fail :=
  ⟨_, spansOf_fail, Nat.le_succ a, .fail h, .fail, .fail, fun _ => .fail⟩

theorem Charted.jump (h : program[a]? = some (.jump b)) :
    Charted program E a (a + 1) b Matcher.skip :=
  ⟨_, spansOf_visit a 0, Nat.le_succ a, .jump h, .visit_self a 0, .visit a 0,
    fun _ => .visit a 0⟩

/-- Pieces of code one behind the other have a chart if each has. -/
theorem Charted.andThen (h : Charted program E a mid mid m) (h' : Charted program E mid hi b n) :
    Charted program E a hi b (m.andThen n) := by
  obtain ⟨chart, h⟩ := h
  obtain ⟨chart', h'⟩ := h'
  refine ⟨chart.andThen chart', by rw [spansOf_andThen, h.spans, h'.spans],
    Nat.le_trans h.le h'.le, h.follows.andThen h'.follows, ?_,
    h.splices.andThen h'.splices h.tidy h'.tidy,
    fun hE => (h.simple hE).andThen (h'.simple hE) h.tidy h'.tidy⟩
  exact (h.tidy.mono (Nat.le_refl a) h'.le).andThen (h'.tidy.mono h.le (Nat.le_refl hi))

theorem Charted.token {accepted : TokenClass} (h : program[a]? = some (.token accepted)) :
    Charted program E a (a + 1) (a + 1) (Matcher.take accepted) := by
  have visited : Tidy a (a + 1) (visit a 0) := .visit_self a 0
  have taken : Tidy (a + 1) (a + 1) (Matcher.take accepted) := .take accepted
  refine ⟨(visit a 0).andThen (Matcher.take accepted), by simp, Nat.le_succ a, .token h,
    visited.andThen (.take accepted), (Splices.visit a 0).andThen (.take accepted) visited taken,
    fun _ => (FirstSimple.visit a 0).andThen (.take accepted) visited taken⟩

/-- Alternative pieces of code behind a split have a chart. -/
theorem Charted.branch (hs : program[a]? = some (.split (a + 1) mid))
    (h : Charted program E (a + 1) mid b m) (h' : Charted program E mid hi b n) :
    Charted program E a hi b (m.orElse n) := by
  obtain ⟨chart, h⟩ := h
  obtain ⟨chart', h'⟩ := h'
  have hmid := h.le
  have hhi := h'.le
  refine ⟨Lockstep.branch a chart chart', ?_, by omega, .branch hs h.follows h'.follows,
    h.tidy.branch h'.tidy hmid hhi, h.splices.branch h'.splices h.tidy h'.tidy hmid,
    fun hE => (h.simple hE).branch (h'.simple hE) h.tidy h'.tidy hmid⟩
  simp [Lockstep.branch, h.spans, h'.spans]

/-- A piece of code between an entry and an exit has a chart. -/
theorem Charted.labeled {l : Label} {k : Nat} (he : program[a]? = some .enter)
    (h : Charted program E (a + 1) b b m) (hl : program[b]? = some (.leave k l)) :
    Charted program E a (b + 1) (b + 1) (m.noting fun x y => ⟨l, x.position, y.position⟩) := by
  obtain ⟨chart, h⟩ := h
  have hb := h.le
  have enter := Tidy.visit_self a 0
  have leave := Tidy.visit_self b 0
  have inside := h.tidy.andThen_visit hb 0
  refine ⟨labeledBy l a b chart, ?_, by omega, .labeled he h.follows hl, ?_, ?_, fun hE => ?_⟩
  · simp [labeledBy, h.spans]
  · exact (enter.mono (Nat.le_refl a) (by omega)).andThen
      ((inside.mono (Nat.le_succ a) (Nat.le_refl _)).noting _)
  · exact (Splices.visit a 0).andThen ((h.splices.andThen (.visit b 0) h.tidy leave).noting _)
      enter (inside.noting _)
  · exact (FirstSimple.visit a 0).andThen
      (((h.simple hE).andThen (.visit b 0) h.tidy leave).noting _) enter (inside.noting _)

/-- A piece of code with a split before it and a jump back behind it has a chart. -/
theorem Charted.loop {back stop : Nat} (hs : program[a]? = some (.split (a + 1) stop))
    (h : Charted program E (a + 1) back back m) (hj : program[back]? = some (.jump a))
    (hlast : E → ∀ x, (m x).Pairwise fun c d => c.1 = x → d.1 = x) :
    Charted program E a (back + 1) stop (m.more Matcher.skip) := by
  obtain ⟨chart, h⟩ := h
  have hback := h.le
  refine ⟨Lockstep.loop a back chart, ?_, by omega, .loop h.follows h.tidy hs hj,
    h.tidy.loop hback, .loop a back chart, fun hE => ?_⟩
  · simp [Lockstep.loop, round, h.spans]
  · refine (h.simple hE).loop h.splices h.tidy hback fun x => ?_
    have := hlast hE x
    rw [← h.spans, spansOf, List.pairwise_map] at this
    exact this

/-! ## Charts of patterns -/

variable {p : Pattern}

/-- The code of `p` has a chart, wherever it stands. -/
def ChartedItem (program : Program) (E : Prop) (p : Pattern) : Prop :=
  ∀ base, Placed program base (p.code base) →
    Charted program E base (base + p.codeSize) (base + p.codeSize) p.ways

/-- Copies that are needed, one behind the other, have a chart. -/
theorem charted_copies (hp : ChartedItem program E p) (base count : Nat)
    (h : Placed program base (copies (p.code ·) p.codeSize base count)) :
    Charted program E base (base + count * p.codeSize) (base + count * p.codeSize)
      (p.ways.times count) := by
  induction count generalizing base with
  | zero =>
    rw [Nat.zero_mul]
    exact Charted.skip
  | succ count ih =>
    rw [copies] at h
    have first := hp base h.left
    have others := ih (base + p.codeSize) (by simpa using h.right)
    rw [Nat.succ_mul, Nat.add_comm (count * _), ← Nat.add_assoc]
    exact first.andThen others

/-- Copies each of which may be the last have a chart. -/
theorem charted_optionalCopies (hp : ChartedItem program E p) (base count : Nat) {stop : Nat}
    (hstop : stop = base + count * (p.codeSize + 1))
    (h : Placed program base (optionalCopies (p.code ·) p.codeSize stop base count)) :
    Charted program E base stop stop (p.ways.upTo count) := by
  induction count generalizing base with
  | zero =>
    rw [Nat.zero_mul, Nat.add_zero] at hstop
    subst hstop
    exact Charted.skip
  | succ count ih =>
    rw [optionalCopies, List.cons_append] at h
    have first := hp (base + 1) h.tail.left
    have others := ih (base + 1 + p.codeSize) (by rw [hstop, Nat.succ_mul]; omega)
      (by simpa using h.tail.right)
    exact Charted.branch h.head (first.andThen others) Charted.skip

theorem charted_loop (hp : ChartedItem program E p) (hE : E → p.Eager) (base : Nat)
    (h : Placed program base (Pattern.loop (p.code ·) p.codeSize base)) :
    Charted program E base (base + p.codeSize + 2) (base + p.codeSize + 2)
      (p.ways.more Matcher.skip) := by
  rw [Pattern.loop, List.cons_append] at h
  have item := hp (base + 1) h.tail.left
  have back : program[base + 1 + p.codeSize]? = some (.jump base) := by
    simpa using h.tail.right.head
  have hhi : base + p.codeSize + 2 = base + 1 + p.codeSize + 1 := by omega
  rw [hhi]
  exact Charted.loop (hhi ▸ h.head) item back hE

/-- A repetition is copies that are needed, and then optional ones or a loop. -/
theorem charted_repeated (hp : ChartedItem program E p) {least : Nat} {most : Option Nat}
    (hE : E → most = none → p.Eager) : ChartedItem program E (.repeated p least most) := by
  intro base h
  have atLeast := charted_copies hp base least h.left
  have h := h.right
  rw [length_copies (length_code p)] at h
  cases most with
  | none =>
    have more := charted_loop hp (fun h => hE h rfl) _ h
    have hstop : base + codeSize (.repeated p least none) =
        base + least * p.codeSize + p.codeSize + 2 := by
      simp only [codeSize]
      omega
    rw [hstop, ways]
    exact atLeast.andThen more
  | some most =>
    have more := charted_optionalCopies hp _ (most - least) rfl h
    have hstop : base + codeSize (.repeated p least (some most)) =
        base + least * p.codeSize + (most - least) * (p.codeSize + 1) := by
      simp only [codeSize]
      omega
    rw [hstop, ways]
    exact atLeast.andThen more

theorem charted_sequenceCode {ps : List Pattern} (hps : ∀ p ∈ ps, ChartedItem program E p)
    (base : Nat) (h : Placed program base (sequenceCode base ps)) :
    Charted program E base (base + sequenceSize ps) (base + sequenceSize ps)
      (sequenceWays ps) := by
  induction ps generalizing base with
  | nil => exact Charted.skip
  | cons p ps ih =>
    rw [sequenceCode] at h
    have first := hps p List.mem_cons_self base h.left
    have others := ih (fun q hq => hps q (List.mem_cons_of_mem _ hq)) (base + p.codeSize)
      (by simpa using h.right)
    rw [sequenceSize, ← Nat.add_assoc, sequenceWays]
    exact first.andThen others

/-- Alternatives have a chart, as a chain of splits with the last of them at its end. -/
theorem charted_choiceCode {ps : List Pattern} (hps : ∀ p ∈ ps, ChartedItem program E p)
    (base : Nat) (h : Placed program base (choiceCode base ps)) :
    Charted program E base (base + choiceSize ps) (base + choiceSize ps) (choiceWays ps) := by
  induction ps generalizing base with
  | nil => exact Charted.fail h.head
  | cons p ps ih =>
    have hp := hps p List.mem_cons_self
    cases ps with
    | nil =>
      have alone := hp base h
      rwa [choiceWays, choiceWays, Matcher.orElse_fail]
    | cons q ps =>
      simp only [choiceCode, List.cons_append] at h
      have rest := h.tail.right
      rw [length_code] at rest
      have hnext : base + 1 + p.codeSize + 1 = base + p.codeSize + 2 := by omega
      -- behind the first alternative the program jumps over the others
      have first := (hp (base + 1) h.tail.left).andThen (Charted.jump rest.head)
      have others := ih (fun r hr => hps r (List.mem_cons_of_mem _ hr)) (base + p.codeSize + 2)
        (hnext ▸ rest.tail)
      have hstop : base + choiceSize (p :: q :: ps) =
          base + p.codeSize + 2 + choiceSize (q :: ps) := by
        simp only [choiceSize]
        omega
      rw [Matcher.andThen_skip, hnext] at first
      rw [hstop, choiceWays]
      exact Charted.branch h.head first others

/-- The code of a pattern has a chart, wherever it stands. Its first ways are simple if whatever it
repeats without an upper bound prefers to take tokens. -/
theorem charted_code (p : Pattern) (hE : E → ∀ q, p.HasLoop q → q.Eager) :
    ChartedItem program E p := by
  induction p with
  | empty =>
    intro base _
    exact Charted.skip
  | token c =>
    intro base h
    exact Charted.token h.head
  | sequence ps ih =>
    intro base h
    exact charted_sequenceCode (fun p hp => ih p hp fun h q hq => hE h q (.sequence hp hq)) base h
  | choice ps ih =>
    intro base h
    exact charted_choiceCode (fun p hp => ih p hp fun h q hq => hE h q (.choice hp hq)) base h
  | repeated p least most ih =>
    refine charted_repeated (ih fun h q hq => hE h q (.repeated hq)) fun h hmost => ?_
    subst hmost
    exact hE h p .here
  | labeled l p ih =>
    intro base h
    rw [code, List.cons_append] at h
    have inside := ih (fun h q hq => hE h q (.labeled hq)) (base + 1) h.tail.left
    have exit : program[base + 1 + p.codeSize]? = some (.leave base l) := by
      simpa using h.tail.right.head
    have hstop : base + codeSize (.labeled l p) = base + 1 + p.codeSize + 1 := by
      simp only [codeSize]
      omega
    rw [hstop]
    exact Charted.labeled h.head inside exit

end Lockstep

end ContentGrammar
