import Mathlib.Data.Finset.Insert
import ContentGrammar.Proofs.Pattern.Search

/-!
# The way that a search finds

Ways from one configuration are ordered by preference: by the numbers of the successors that they
take, lexicographically. A way is simple if it visits no spot twice.

* `closed_find` — when a search fails, what it has visited is closed: it goes on only to visited
  spots, and ends nowhere but at spots that are still being searched (`Closed`);
* `firstFrom_of_find` — what a search finds is a simple way, and none that avoids the spots still
  being searched comes before it;
* `backtrack_eq_some_iff`, `backtrack_eq_none_iff` — backtracking gives the regions of the first
  simple way in order of preference, and nothing if there is no way at all.

That a spot visited in vain needs no second visit takes more than the spot: an exit of a region
leads on only from a thread that has entered one. `Regular` configurations have entered as many
regions as the program nests around their address, so that what follows depends on the spot alone.
-/

namespace ContentGrammar

namespace Lockstep

/-- A configuration as it comes up in a run over `tokens`: with the tokens behind its position, and
in as many regions as there are around its address. -/
structure Regular (program : Program) (tokens : List Token) (c : Config) : Prop where
  rest : c.rest = tokens.drop c.position
  position_le : c.position ≤ tokens.length
  opened : c.thread.opened.length = (enclosing program c.pc).length

/-- Spots that are neither fresh nor active are done with: no run ends there, and none goes on to a
fresh spot. -/
def Closed (program : Program) (tokens : List Token) (fresh active : Finset Spot) : Prop :=
  ∀ c, Regular program tokens c → c.spot ∉ fresh → c.spot ∉ active →
    c.isFinal program = false ∧ ∀ d ∈ c.next program, d.spot ∉ fresh

variable {program : Program} {tokens : List Token} {fresh active : Finset Spot} {c d : Config}
  {cs : List Config} {t : Thread} {visited : List Spot} {forks : List Nat}

theorem regular_start : Regular program tokens (start tokens) :=
  ⟨rfl, Nat.zero_le _, rfl⟩

/-! ## What follows a regular configuration -/

/-- A thread that is in as many regions as there are around its address stays so. -/
theorem length_opened_successors (hn : Nested program) {pc position : Nat} {i : Instruction}
    {l : Located} (hi : program[pc]? = some i)
    (ht : t.opened.length = (enclosing program pc).length)
    (hl : l ∈ successors i pc position t) :
    l.2.opened.length = (enclosing program l.1).length := by
  have hi := hn _ _ hi
  cases i with
  | split first second =>
    obtain ⟨hfirst, hsecond⟩ := hi
    rcases List.mem_cons.mp hl with rfl | hl
    · rw [hfirst, ht]
    · obtain rfl := List.mem_singleton.mp hl
      rw [hsecond, ht]
  | jump target =>
    obtain rfl := List.mem_singleton.mp hl
    rw [show enclosing program target = _ from hi, ht]
  | enter =>
    obtain rfl := List.mem_singleton.mp hl
    rw [show enclosing program (pc + 1) = _ from hi]
    exact congrArg Nat.succ ht
  | leave entered label =>
    -- the thread is in a region, the one that is left
    rw [show enclosing program pc = _ from hi] at ht
    obtain ⟨opened, spans⟩ := t
    cases opened with
    | nil => cases hl
    | cons start opened =>
      obtain rfl := List.mem_singleton.mp hl
      exact Nat.succ.inj ht
  | token | fail | done => cases hl

theorem Regular.next (hn : Nested program) (hc : Regular program tokens c)
    (h : d ∈ c.next program) : Regular program tokens d := by
  obtain ⟨hrest, hle, hopened⟩ := hc
  unfold Config.next at h
  split at h
  · cases h
  · rename_i accepted hi
    have hi' : enclosing program (c.pc + 1) = enclosing program c.pc := hn _ _ hi
    split at h
    · cases h
    · rename_i k ts hts
      split at h
      · obtain rfl := List.mem_singleton.mp h
        rw [hrest] at hts
        -- there is a token left, so the position is in front of the end
        have hlt : c.position < tokens.length := by
          refine Nat.lt_of_not_le fun hge => ?_
          rw [List.drop_of_length_le hge] at hts
          cases hts
        refine ⟨?_, hlt, by rw [hi', hopened]⟩
        rw [← List.drop_drop, hts]
        rfl
      · cases h
  · rename_i i _ hi
    obtain ⟨l, hl, rfl⟩ := List.mem_map.mp h
    exact ⟨hrest, hle, length_opened_successors hn hi hopened hl⟩

/-- Where a regular configuration goes depends on its spot alone. -/
theorem Regular.same_next (hn : Nested program) (hc : Regular program tokens c)
    (hd : Regular program tokens d) (hs : c.spot = d.spot) :
    c.isFinal program = d.isFinal program ∧
      (c.next program).map Config.spot = (d.next program).map Config.spot := by
  obtain ⟨pc, position, rest, thread⟩ := c
  obtain ⟨pc', position', rest', thread'⟩ := d
  obtain ⟨rfl, rfl⟩ : pc = pc' ∧ position = position' := Prod.mk.inj hs
  obtain ⟨hrest, -, hopened⟩ := hc
  obtain ⟨hrest', -, hopened'⟩ := hd
  obtain rfl : rest = rest' := hrest.trans hrest'.symm
  refine ⟨rfl, ?_⟩
  unfold Config.next
  cases hi : program[pc]? with
  | none => rfl
  | some i =>
    cases i with
    | token accepted =>
      dsimp only
      split
      · rfl
      · split <;> rfl
    | leave entered label =>
      have hi := hn _ _ hi
      rw [show enclosing program pc = _ from hi] at hopened hopened'
      -- both threads are in a region, which they leave
      obtain ⟨_ | ⟨x, xs⟩, _⟩ := thread
      · cases hopened
      obtain ⟨_ | ⟨y, ys⟩, _⟩ := thread'
      · cases hopened'
      rfl
    | split | jump | enter | fail | done => rfl

/-! ## What a failed search leaves behind -/

/-- From a spot that is done with no way leads to the end but through an active one. -/
theorem Closed.not_way (hn : Nested program) (hclosed : Closed program tokens fresh active)
    (hw : Way program c visited forks t) (hc : Regular program tokens c) (hs : c.spot ∉ fresh)
    (havoid : ∀ s ∈ visited, s ∉ active) : False := by
  induction hw with
  | final hf =>
    have := (hclosed _ hc hs (havoid _ List.mem_cons_self)).1
    rw [hf] at this
    cases this
  | step hnext _ ih =>
    have hd := List.mem_of_getElem? hnext
    have hs' := (hclosed _ hc hs (havoid _ List.mem_cons_self)).2 _ hd
    exact ih (hc.next hn hd) hs' fun s h => havoid s (List.mem_cons_of_mem _ h)

/-- While what follows a configuration is searched, the configuration itself is active. -/
theorem Closed.enter (hclosed : Closed program tokens fresh active) :
    Closed program tokens (fresh.erase c.spot) (insert c.spot active) := by
  intro d hd hs ha
  rw [Finset.mem_insert, not_or] at ha
  have hs : d.spot ∉ fresh := fun h => hs (Finset.mem_erase.mpr ⟨ha.1, h⟩)
  obtain ⟨hf, hnext⟩ := hclosed d hd hs ha.2
  exact ⟨hf, fun e he h => hnext e he (Finset.mem_of_mem_erase h)⟩

/-- Once all that follows a configuration has been visited, the configuration is done with. -/
theorem Closed.leave (hn : Nested program) (hc : Regular program tokens c)
    (hf : c.isFinal program = false) (hnext : ∀ d ∈ c.next program, d.spot ∉ fresh)
    (hclosed : Closed program tokens fresh (insert c.spot active)) :
    Closed program tokens fresh active := by
  intro d hd hs ha
  by_cases heq : d.spot = c.spot
  · obtain ⟨hsame, hspots⟩ := hd.same_next hn hc heq
    refine ⟨hsame.trans hf, fun e he h => ?_⟩
    have hmem : e.spot ∈ (c.next program).map Config.spot :=
      hspots ▸ List.mem_map_of_mem he
    obtain ⟨e', he', heq'⟩ := List.mem_map.mp hmem
    exact hnext e' he' (heq' ▸ h)
  · exact hclosed d hd hs fun h => (Finset.mem_insert.mp h).elim heq ha

/-- A search that fails has visited all that it was sent to, and all it has visited is closed. -/
theorem closed_find (hn : Nested program) (hcs : ∀ c ∈ cs, Regular program tokens c)
    (hclosed : Closed program tokens fresh active) (hnone : (find program fresh cs).1 = none) :
    Closed program tokens (find program fresh cs).2 active ∧
      ∀ c ∈ cs, c.spot ∉ (find program fresh cs).2 := by
  induction fresh, cs using find_induct program generalizing active with
  | nil fresh => simpa using hclosed
  | stale fresh c cs h ih =>
    rw [find_stale h] at hnone ⊢
    obtain ⟨hleft, hvisited⟩ := ih (fun d hd => hcs d (List.mem_cons_of_mem _ hd)) hclosed hnone
    refine ⟨hleft, fun d hd => ?_⟩
    rcases List.mem_cons.mp hd with rfl | hd
    · exact fun hm => h (find_subset hm)
    · exact hvisited d hd
  | final fresh c cs h hf =>
    rw [find_final h hf] at hnone
    cases hnone
  | next fresh c cs h hf ih ih' =>
    have hc := hcs c List.mem_cons_self
    rw [find_fresh h hf] at hnone ⊢
    cases hr : find program (fresh.erase c.spot) (c.next program) with
    | mk found left =>
      rw [hr] at ih hnone
      cases found with
      | some t => cases hnone
      | none =>
        obtain ⟨hinner, hnext⟩ := ih (fun d hd => hc.next hn hd) hclosed.enter rfl
        have hdone := Closed.leave hn hc hf hnext hinner
        obtain ⟨hleft, hvisited⟩ :=
          ih' left hr (fun d hd => hcs d (List.mem_cons_of_mem _ hd)) hdone hnone
        refine ⟨hleft, fun d hd => ?_⟩
        rcases List.mem_cons.mp hd with rfl | hd
        · -- its spot was taken out before its successors were searched
          intro hm
          have hm := find_subset hm
          have hm' : d.spot ∈ (find program (fresh.erase d.spot) (d.next program)).2 := by
            rwa [hr]
          exact absurd rfl (Finset.ne_of_mem_erase (find_subset hm'))
        · exact hvisited d hd

/-! ## What a search finds -/

/-- A way from one of several configurations: its forks begin with the number of the
configuration. -/
def WayFrom (program : Program) (cs : List Config) (visited : List Spot) (forks : List Nat)
    (t : Thread) : Prop :=
  ∃ n c rest, cs[n]? = some c ∧ Way program c visited rest t ∧ forks = n :: rest

/-- A way comes before another one if it takes the smaller number at the first difference. -/
abbrev Before (forks forks' : List Nat) : Prop := List.Lex (· < ·) forks forks'

theorem not_before_cons {n : Nat} {forks' : List Nat} :
    ¬ Before (n :: forks) (n :: forks') ↔ ¬ Before forks forks' := by
  simp [Before, List.cons_lex_cons_iff]

theorem not_before_zero {n : Nat} {forks' : List Nat} :
    ¬ Before ((n + 1) :: forks) (0 :: forks') := by
  simp [Before, List.cons_lex_cons_iff]

/-- Of two ways with different forks one comes before the other. -/
theorem eq_of_not_before {forks' : List Nat} (h : ¬ Before forks forks')
    (h' : ¬ Before forks' forks) : forks = forks' :=
  List.lex_trichotomous (fun _ _ h h' => Nat.le_antisymm (Nat.not_lt.mp h') (Nat.not_lt.mp h)) h' h

/-- Among the ways from several configurations there is a simple one through fresh spots, before
which no simple one comes that avoids the active spots, and it arrives with the thread `t`. -/
def FirstFrom (program : Program) (cs : List Config) (fresh active : Finset Spot) (t : Thread) :
    Prop :=
  ∃ visited forks, WayFrom program cs visited forks t ∧ visited.Nodup ∧
    (∀ s ∈ visited, s ∈ fresh) ∧
    ∀ visited' forks' t', WayFrom program cs visited' forks' t' → visited'.Nodup →
      (∀ s ∈ visited', s ∉ active) → ¬ Before forks' forks

theorem WayFrom.cons_iff : WayFrom program (c :: cs) visited forks t ↔
    (∃ rest, forks = 0 :: rest ∧ Way program c visited rest t) ∨
      ∃ n rest, forks = (n + 1) :: rest ∧ WayFrom program cs visited (n :: rest) t := by
  constructor
  · rintro ⟨n, d, rest, hd, hw, rfl⟩
    cases n with
    | zero =>
      obtain rfl := Option.some.inj hd
      exact .inl ⟨rest, rfl, hw⟩
    | succ n => exact .inr ⟨n, rest, rfl, n, d, rest, hd, hw, rfl⟩
  · rintro (⟨rest, rfl, hw⟩ | ⟨n, rest, rfl, m, d, rest', hd, hw, heq⟩)
    · exact ⟨0, c, rest, rfl, hw, rfl⟩
    · obtain ⟨rfl, rfl⟩ := List.cons.inj heq
      exact ⟨n + 1, d, rest, hd, hw, rfl⟩

theorem FirstFrom.mono {more : Finset Spot} (h : FirstFrom program cs fresh active t)
    (hsub : fresh ⊆ more) : FirstFrom program cs more active t := by
  obtain ⟨visited, forks, hw, hnodup, hfresh, hfirst⟩ := h
  exact ⟨visited, forks, hw, hnodup, fun s hs => hsub (hfresh s hs), hfirst⟩

/-- A configuration from which no way leads to the end can be put in front. -/
theorem FirstFrom.skip (h : FirstFrom program cs fresh active t)
    (hc : ∀ visited forks t', Way program c visited forks t' → ¬ ∀ s ∈ visited, s ∉ active) :
    FirstFrom program (c :: cs) fresh active t := by
  obtain ⟨visited, _, ⟨n, d, rest, hd, hw, rfl⟩, hnodup, hfresh, hfirst⟩ := h
  refine ⟨visited, (n + 1) :: rest, ⟨n + 1, d, rest, hd, hw, rfl⟩, hnodup, hfresh, ?_⟩
  intro visited' forks' t' hw' hnodup' havoid
  rcases WayFrom.cons_iff.mp hw' with ⟨rest', rfl, hw⟩ | ⟨m, rest', rfl, hw⟩
  · exact absurd havoid (hc _ _ _ hw)
  · have hle := hfirst _ _ _ hw hnodup' havoid
    simpa [Before, List.cons_lex_cons_iff] using hle

/-- A configuration at the end comes before whatever is behind it. -/
theorem FirstFrom.final (h : c.spot ∈ fresh) (hf : c.isFinal program = true) :
    FirstFrom program (c :: cs) fresh active c.thread := by
  refine ⟨[c.spot], [0], ⟨0, c, [], rfl, .final hf, rfl⟩, List.nodup_singleton _, ?_, ?_⟩
  · intro s hs
    exact List.mem_singleton.mp hs ▸ h
  · intro visited' forks' t' hw' _ _
    rw [WayFrom.cons_iff] at hw'
    rcases hw' with ⟨rest', rfl, _⟩ | ⟨m, rest', rfl, _⟩
    · exact not_before_cons.mpr List.not_lex_nil
    · exact not_before_zero

/-- The first way from the successors of a configuration is the first one from it and from whatever
is behind it. A simple way does not come back to the configuration. -/
theorem FirstFrom.enter (h : c.spot ∈ fresh) (hf : c.isFinal program = false)
    (hnext : FirstFrom program (c.next program) (fresh.erase c.spot) (insert c.spot active) t) :
    FirstFrom program (c :: cs) fresh active t := by
  obtain ⟨visited, _, ⟨n, d, rest, hd, hw, rfl⟩, hnodup, hfresh, hfirst⟩ := hnext
  have hnew : c.spot ∉ visited := fun hm => Finset.ne_of_mem_erase (hfresh _ hm) rfl
  refine ⟨c.spot :: visited, 0 :: n :: rest, ⟨0, c, n :: rest, rfl, .step hd hw, rfl⟩,
    List.nodup_cons.mpr ⟨hnew, hnodup⟩, ?_, ?_⟩
  · intro s hs
    rcases List.mem_cons.mp hs with rfl | hs
    · exact h
    · exact Finset.mem_of_mem_erase (hfresh s hs)
  · intro visited' forks' t' hw' hnodup' havoid
    rw [WayFrom.cons_iff] at hw'
    rcases hw' with ⟨rest', rfl, hw'⟩ | ⟨m, rest', rfl, _⟩
    · cases hw' with
      | final hf' =>
        rw [hf] at hf'
        cases hf'
      | step hd' hw' =>
        -- a simple way does not come back to `c`, so it avoids what is active now
        obtain ⟨hnew', hnodup'⟩ := List.nodup_cons.mp hnodup'
        refine not_before_cons.mpr (hfirst _ _ _ ⟨_, _, _, hd', hw', rfl⟩ hnodup' ?_)
        intro s hs hm
        rcases Finset.mem_insert.mp hm with rfl | hm
        · exact hnew' hs
        · exact havoid s (List.mem_cons_of_mem _ hs) hm
    · exact not_before_zero

/-- What a search finds is the thread of a simple way through fresh spots. The way comes before all
simple ways that avoid the spots which are still being searched. -/
theorem firstFrom_of_find (hn : Nested program) (hcs : ∀ c ∈ cs, Regular program tokens c)
    (hclosed : Closed program tokens fresh active) (hsome : (find program fresh cs).1 = some t) :
    FirstFrom program cs fresh active t := by
  induction fresh, cs using find_induct program generalizing active with
  | nil fresh =>
    rw [find_nil] at hsome
    cases hsome
  | stale fresh c cs h ih =>
    rw [find_stale h] at hsome
    have hfirst := ih (fun d hd => hcs d (List.mem_cons_of_mem _ hd)) hclosed hsome
    exact hfirst.skip fun _ _ _ hw havoid =>
      hclosed.not_way hn hw (hcs c List.mem_cons_self) h havoid
  | final fresh c cs h hf =>
    rw [find_final h hf] at hsome
    obtain rfl := Option.some.inj hsome
    exact .final h hf
  | next fresh c cs h hf ih ih' =>
    have hc := hcs c List.mem_cons_self
    have hnexts : ∀ d ∈ c.next program, Regular program tokens d := fun d hd => hc.next hn hd
    rw [find_fresh h hf] at hsome
    cases hr : find program (fresh.erase c.spot) (c.next program) with
    | mk found left =>
      cases found with
      | some t' =>
        rw [hr] at hsome
        obtain rfl := Option.some.inj hsome
        exact .enter h hf (ih hnexts hclosed.enter (by rw [hr]))
      | none =>
        rw [hr] at hsome
        -- nothing is found behind `c`, which is done with when the others are searched
        have hnone : (find program (fresh.erase c.spot) (c.next program)).1 = none := by rw [hr]
        obtain ⟨hinner, hvisited⟩ := closed_find hn hnexts hclosed.enter hnone
        rw [hr] at hinner hvisited
        have hdone := Closed.leave hn hc hf hvisited hinner
        have hsub : left ⊆ fresh.erase c.spot := by
          have hleft : (find program (fresh.erase c.spot) (c.next program)).2 ⊆
              fresh.erase c.spot := find_subset
          rwa [hr] at hleft
        have hfirst := ih' left hr (fun d hd => hcs d (List.mem_cons_of_mem _ hd)) hdone hsome
        refine (hfirst.mono (hsub.trans (Finset.erase_subset _ _))).skip ?_
        intro _ _ _ hw havoid
        exact hdone.not_way hn hw hc (fun hm => Finset.ne_of_mem_erase (hsub hm) rfl) havoid

/-! ## Backtracking -/

theorem closed_allSpots : Closed program tokens (allSpots program tokens) ∅ := by
  intro c hc hs _
  have hnone : program[c.pc]? = none := by
    refine Array.getElem?_eq_none (Nat.le_of_not_lt fun hlt => hs ?_)
    exact Finset.mem_product.mpr
      ⟨Finset.mem_range.mpr hlt, Finset.mem_range.mpr (Nat.lt_succ_of_le hc.position_le)⟩
  constructor
  · rw [Bool.eq_false_iff]
    intro hf
    rw [(Config.isFinal_iff.mp hf).1] at hnone
    cases hnone
  · simp [Config.next, hnone]

/-- Ways are told apart by their forks. -/
theorem Way.eq_of_forks {t' : Thread} {visited' : List Spot} (h : Way program c visited forks t)
    (h' : Way program c visited' forks t') : t = t' := by
  induction h generalizing visited' with
  | final =>
    cases h' with
    | final => rfl
  | step hd _ ih =>
    cases h' with
    | step hd' hw' =>
      rw [hd] at hd'
      obtain rfl := Option.some.inj hd'
      exact ih hw'

/-- A way before which no simple way comes. -/
def Way.IsFirst (program : Program) (c : Config) (visited : List Spot) (forks : List Nat)
    (t : Thread) : Prop :=
  Way program c visited forks t ∧ visited.Nodup ∧
    ∀ visited' forks' t', Way program c visited' forks' t' → visited'.Nodup → ¬ Before forks' forks

theorem regular_of_mem_start : ∀ c ∈ [start tokens], Regular program tokens c := by
  intro c hc
  obtain rfl := List.mem_singleton.mp hc
  exact regular_start

theorem not_way_of_find (hn : Nested program)
    (h : (find program (allSpots program tokens) [start tokens]).1 = none) :
    ¬ Way program (start tokens) visited forks t := by
  intro hw
  obtain ⟨hclosed, hvisited⟩ := closed_find hn regular_of_mem_start closed_allSpots h
  exact hclosed.not_way hn hw regular_start (hvisited _ List.mem_cons_self)
    fun s _ => Finset.notMem_empty s

theorem isFirst_of_find (hn : Nested program)
    (h : (find program (allSpots program tokens) [start tokens]).1 = some t) :
    ∃ visited forks, Way.IsFirst program (start tokens) visited forks t := by
  obtain ⟨visited, forks, hfrom, hnodup, _, hfirst⟩ :=
    firstFrom_of_find hn regular_of_mem_start closed_allSpots h
  rcases WayFrom.cons_iff.mp hfrom with ⟨rest, rfl, hw⟩ | ⟨n, rest, _, m, c, _, hc, _⟩
  · refine ⟨visited, rest, hw, hnodup, fun visited' forks' t' hw' hnodup' => ?_⟩
    exact not_before_cons.mp <| hfirst visited' (0 :: forks') t' ⟨0, _, _, rfl, hw', rfl⟩ hnodup'
      fun s _ => Finset.notMem_empty s
  · cases hc

/-- Backtracking gives the regions of the first simple way in order of preference. -/
theorem backtrack_eq_some_iff (hn : Nested program) {ss : List Span} :
    backtrack program tokens = some ss ↔
      ∃ visited forks t, Way.IsFirst program (start tokens) visited forks t ∧
        ss = t.spans.reverse := by
  rw [backtrack, Option.map_eq_some_iff]
  constructor
  · rintro ⟨t, ht, rfl⟩
    obtain ⟨visited, forks, hfirst⟩ := isFirst_of_find hn ht
    exact ⟨visited, forks, t, hfirst, rfl⟩
  · rintro ⟨visited, forks, t, ⟨hw, hnodup, hfirst⟩, rfl⟩
    -- where there is a way the search finds one, and two first ways have the same forks
    cases hr : (find program (allSpots program tokens) [start tokens]).1 with
    | none => exact absurd hw (not_way_of_find hn hr)
    | some t' =>
      obtain ⟨visited', forks', hw', hnodup', hfirst'⟩ := isFirst_of_find hn hr
      obtain rfl := eq_of_not_before (hfirst' _ _ _ hw hnodup) (hfirst _ _ _ hw' hnodup')
      exact ⟨t', rfl, by rw [hw.eq_of_forks hw']⟩

/-- Backtracking gives nothing only if no way leads to the end. -/
theorem backtrack_eq_none_iff (hn : Nested program) :
    backtrack program tokens = none ↔
      ∀ visited forks t, ¬ Way program (start tokens) visited forks t := by
  rw [backtrack, Option.map_eq_none_iff]
  constructor
  · intro h visited forks t
    exact not_way_of_find hn h
  · intro h
    cases hr : (find program (allSpots program tokens) [start tokens]).1 with
    | none => rfl
    | some t =>
      obtain ⟨visited, forks, hw, _⟩ := isFirst_of_find hn hr
      exact absurd hw (h visited forks t)

end Lockstep

end ContentGrammar
