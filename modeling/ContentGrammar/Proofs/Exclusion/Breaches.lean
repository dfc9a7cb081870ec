import ContentGrammar.Exclusion
import ContentGrammar.Proofs.Document.Order
import ContentGrammar.Proofs.Pattern.Marks

/-!
# Which breaches are reported

An exclusion concerns the names that its regions took, of these only the ones that transparent
regions took as well if it is restricted to them (`Concerns`). It is breached by a child of such a
name that offends: a text where text is forbidden, or an element that is or contains a forbidden one
(`Offends`).

`breaches_exact` says that just the exclusions with such a child are reported, each once and with
its first such child and the first culprit in it, in the order in which their regions come first,
and that the regions of other exclusions do not matter.
-/

namespace ContentGrammar

/-! ## Names that are concerned -/

/-- Whether a span took a token of a name. A span that does not fit the tokens took none. -/
def Span.Covers (s : Span) (ts : List Token) (name : String) : Prop :=
  s.stop ≤ ts.length ∧ ∃ i t, s.start ≤ i ∧ i < s.stop ∧ ts[i]? = some t ∧ t.name = name

/-- Whether an exclusion of some mark is about the children of a name. -/
def Concerns (spans : List Span) (ts : List Token) (mark : Nat) (x : Exclusion) (name : String) :
    Prop :=
  (∃ s ∈ spans, mark ∈ s.label.marks ∧ s.Covers ts name) ∧
    (x.inTransparent = true → ∃ s ∈ spans, s.label = .transparent ∧ s.Covers ts name)

variable {spans : List Span} {ts : List Token} {children : List Place} {mark : Nat} {x : Exclusion}
  {name : String} {forbidden : List Forbidden} {c q : Place} {b : Breach}

theorem Label.same_transparent_iff {l : Label} : l.same .transparent = true ↔ l = .transparent := by
  cases l <;> simp [same]

/-- Exclusions are told apart by their marks. -/
theorem Label.same_exclusion_iff {l : Label} :
    l.same (.exclusion mark x) = true ↔ mark ∈ l.marks := by
  cases l with
  | transparent => simp [same, marks]
  | exclusion m y =>
    rw [same, marks, beq_iff_eq, List.mem_singleton]
    exact eq_comm

theorem Span.mem_tokens {s : Span} {t : Token} : t ∈ s.tokens ts ↔
    s.stop ≤ ts.length ∧ ∃ i, s.start ≤ i ∧ i < s.stop ∧ ts[i]? = some t := by
  have hget : ∀ i, ((ts.drop s.start).take (s.stop - s.start))[i]? =
      if i < s.stop - s.start then ts[s.start + i]? else none := by
    intro i
    rw [List.getElem?_take, List.getElem?_drop]
  rw [tokens]
  split
  · rename_i hfits
    rw [List.mem_iff_getElem?]
    constructor
    · rintro ⟨i, hi⟩
      rw [hget] at hi
      split at hi
      · exact ⟨hfits.2, s.start + i, by omega, by omega, hi⟩
      · cases hi
    · rintro ⟨-, i, hstart, hstop, hi⟩
      refine ⟨i - s.start, ?_⟩
      rw [hget, if_pos (by omega), show s.start + (i - s.start) = i by omega]
      exact hi
  · rename_i hmisfit
    refine ⟨fun h => absurd h List.not_mem_nil, ?_⟩
    rintro ⟨hlength, i, hstart, hstop, -⟩
    exact absurd ⟨by omega, hlength⟩ hmisfit

/-- The covered names are those of tokens in regions that fit the row. -/
theorem mem_coveredNames : name ∈ coveredNames spans ts ↔ ∃ s ∈ spans, s.Covers ts name := by
  simp only [coveredNames, NameSet.mem_ofList, List.mem_flatMap, List.mem_map, Span.mem_tokens,
    Span.Covers]
  refine exists_congr fun s => and_congr_right fun _ => ⟨?_, ?_⟩
  · rintro ⟨t, ⟨hlength, i, hstart, hstop, hi⟩, hname⟩
    exact ⟨hlength, i, t, hstart, hstop, hi, hname⟩
  · rintro ⟨hlength, i, t, hstart, hstop, hi, hname⟩
    exact ⟨t, ⟨hlength, i, hstart, hstop, hi⟩, hname⟩

/-- The candidates are the names that the exclusion is about. -/
theorem mem_candidates : name ∈ candidates spans ts mark x ↔ Concerns spans ts mark x name := by
  have hnamed : name ∈ coveredNames (spans.filter fun s => s.label.same (.exclusion mark x)) ts ↔
      ∃ s ∈ spans, mark ∈ s.label.marks ∧ s.Covers ts name := by
    simp only [mem_coveredNames, List.mem_filter, Label.same_exclusion_iff, and_assoc]
  have htransparent : name ∈ coveredNames (spans.filter fun s => s.label.same .transparent) ts ↔
      ∃ s ∈ spans, s.label = .transparent ∧ s.Covers ts name := by
    simp only [mem_coveredNames, List.mem_filter, Label.same_transparent_iff, and_assoc]
  rw [candidates, Concerns]
  split
  · rename_i hrestricted
    rw [NameSet.mem_filter, NameSet.contains_iff, hnamed, htransparent]
    exact and_congr_right fun _ => ⟨fun h _ => h, fun h => h hrestricted⟩
  · rename_i hfree
    rw [hnamed]
    exact ⟨fun h => ⟨h, fun hrestricted => absurd hrestricted hfree⟩, And.left⟩

/-! ## Children that offend -/

/-- Whether a place is an element that is forbidden by its tag or by a selector. -/
def Forbids (forbidden : List Forbidden) (q : Place) : Prop :=
  q.node.isElement = true ∧ (.tag q.node.name ∈ forbidden ∨
    ∃ s, .selector s ∈ forbidden ∧ s.selects q = true)

/-- Whether a place is a text. -/
def Place.IsText (p : Place) : Prop := ∃ id content, p.node = .text id content

/-- Whether a child is a forbidden text or an element that is, or contains, a forbidden one. -/
def Offends (forbidden : List Forbidden) (c : Place) : Prop :=
  (c.IsText ∧ .text ∈ forbidden) ∨
    (c.node.isElement = true ∧ ∃ q, c.Contains q ∧ Forbids forbidden q)

/-- The culprit in a child that offends: the text itself, or the first forbidden element. -/
inductive IsCulprit (forbidden : List Forbidden) (c : Place) : Place → Prop
  | text : c.IsText → .text ∈ forbidden → IsCulprit forbidden c c
  | element {q : Place} : c.node.isElement = true → c.FirstIn (Forbids forbidden) q →
      IsCulprit forbidden c q

theorem any_isText_iff : forbidden.any Forbidden.isText = true ↔ .text ∈ forbidden := by
  rw [List.any_eq_true]
  constructor
  · rintro ⟨f, hf, htext⟩
    cases f with
    | text => exact hf
    | tag _ | selector _ => cases htext
  · exact fun h => ⟨_, h, rfl⟩

theorem forbids_iff : (q.node.isElement && forbidden.any (·.forbids q)) = true ↔
    Forbids forbidden q := by
  rw [Bool.and_eq_true, Forbids, List.any_eq_true]
  refine and_congr_right fun _ => ⟨?_, ?_⟩
  · rintro ⟨f, hf, hforbids⟩
    cases f with
    | text => cases hforbids
    | tag name => exact .inl (beq_iff_eq.mp hforbids ▸ hf)
    | selector s => exact .inr ⟨s, hf, hforbids⟩
  · rintro (hf | ⟨s, hf, hselects⟩)
    · exact ⟨_, hf, beq_self_eq_true _⟩
    · exact ⟨_, hf, hselects⟩

/-- The search for a culprit finds the first one. -/
theorem culprit?_eq_some_iff : culprit? forbidden c = some q ↔ IsCulprit forbidden c q := by
  obtain ⟨n, above⟩ := c
  rw [culprit?]
  cases n with
  | document ns =>
    refine ⟨nofun, fun h => ?_⟩
    cases h with
    | text htext => obtain ⟨_, _, heq⟩ := htext; cases heq
    | element helement => cases helement
  | text id content =>
    dsimp only
    constructor
    · intro h
      split at h
      · cases h
        exact .text ⟨id, content, rfl⟩ (any_isText_iff.mp ‹_›)
      · cases h
    · intro h
      cases h with
      | text _ hforbidden => exact if_pos (any_isText_iff.mpr hforbidden)
      | element helement => cases helement
  | element head ns =>
    dsimp only
    rw [Place.find?_withDescendants]
    simp only [forbids_iff]
    constructor
    · exact .element rfl
    · intro h
      cases h with
      | text htext => obtain ⟨_, _, heq⟩ := htext; cases heq
      | element _ hfirst => exact hfirst

/-- The search finds none just if the child does not offend. -/
theorem culprit?_eq_none_iff : culprit? forbidden c = none ↔ ¬ Offends forbidden c := by
  rw [← not_iff_not, not_not, ← ne_eq, Option.ne_none_iff_exists']
  simp only [culprit?_eq_some_iff]
  constructor
  · rintro ⟨q, hculprit⟩
    cases hculprit with
    | text htext hforbidden => exact .inl ⟨htext, hforbidden⟩
    | element helement hfirst => exact .inr ⟨helement, q, hfirst.spec⟩
  · rintro (⟨htext, hforbidden⟩ | ⟨helement, q, hq, hforbids⟩)
    · exact ⟨c, .text htext hforbidden⟩
    · have hfound : ∃ r, c.withDescendants.find?
          (fun r => r.node.isElement && forbidden.any (·.forbids r)) = some r := by
        rw [← Option.ne_none_iff_exists', ne_eq, Place.find?_withDescendants_eq_none]
        exact fun h => h q hq (forbids_iff.mpr hforbids)
      obtain ⟨r, hr⟩ := hfound
      rw [Place.find?_withDescendants] at hr
      simp only [forbids_iff] at hr
      exact ⟨r, .element helement hr⟩

/-! ## The exclusions of a match -/

/-- The exclusion of a label, if it has the mark. -/
def Label.exclusionOf? (mark : Nat) : Label → Option Exclusion
  | .transparent => none
  | .exclusion m x => if m = mark then some x else none

/-- The exclusion of a mark: that of the first region which has the mark. -/
def exclusionOf? (spans : List Span) (mark : Nat) : Option Exclusion :=
  spans.findSome? fun s => s.label.exclusionOf? mark

/-- How many regions come before the first one that has a mark. -/
def firstIndex (spans : List Span) (mark : Nat) : Nat :=
  spans.findIdx fun s => s.label.marks.contains mark

/-- Whether a region is a transparent one or has a mark. -/
def Span.isAbout (mark : Nat) (s : Span) : Bool :=
  s.label.same .transparent || s.label.marks.contains mark

/-- What is listed of one mark is the exclusion of its first region. -/
theorem filter_exclusionsFrom (seen : List Nat) (spans : List Span) (mark : Nat) :
    (exclusionsFrom seen (spans.map (·.label))).filter (fun e => e.1 == mark) =
      if mark ∈ seen then [] else (exclusionOf? spans mark).toList.map fun x => (mark, x) := by
  induction spans generalizing seen with
  | nil => simp [exclusionsFrom, exclusionOf?]
  | cons s spans ih =>
    rw [List.map_cons]
    cases hl : s.label with
    | transparent =>
      rw [exclusionsFrom, ih, exclusionOf?, exclusionOf?, List.findSome?_cons, hl]
      rfl
    | exclusion m x =>
      have hfirst : exclusionOf? (s :: spans) mark =
          if m = mark then some x else exclusionOf? spans mark := by
        rw [exclusionOf?, List.findSome?_cons, hl, Label.exclusionOf?]
        by_cases heq : m = mark
        · rw [if_pos heq, if_pos heq]
        · rw [if_neg heq, if_neg heq]
          rfl
      rw [exclusionsFrom, hfirst]
      -- a mark is listed where it comes first, and never again
      by_cases hseen : seen.contains m = true
      · have hm : m ∈ seen := List.contains_iff_mem.mp hseen
        rw [if_pos hseen, ih]
        split
        · rfl
        · rw [if_neg]
          exact fun heq => absurd (heq ▸ hm) ‹_›
      · have hm : m ∉ seen := fun h => hseen (List.contains_iff_mem.mpr h)
        rw [if_neg hseen, List.filter_cons, ih]
        by_cases heq : m = mark
        · subst heq
          simp [hm]
        · simp [heq, Ne.symm heq]

theorem mem_exclusionsFrom_nil : (mark, x) ∈ exclusionsFrom [] (spans.map (·.label)) ↔
    exclusionOf? spans mark = some x := by
  have hmem : (mark, x) ∈ exclusionsFrom [] (spans.map (·.label)) ↔
      (mark, x) ∈ (exclusionsFrom [] (spans.map (·.label))).filter (fun e => e.1 == mark) := by
    simp
  rw [hmem, filter_exclusionsFrom, if_neg List.not_mem_nil, List.mem_map]
  simp

/-- The exclusions are listed in the order of their first regions. -/
theorem pairwise_exclusionsFrom (seen : List Nat) (spans : List Span) :
    (exclusionsFrom seen (spans.map (·.label))).Pairwise fun e e' =>
      firstIndex spans e.1 < firstIndex spans e'.1 := by
  induction spans generalizing seen with
  | nil => exact .nil
  | cons s spans ih =>
    have hnext : ∀ m, s.label.marks.contains m = false →
        firstIndex (s :: spans) m = firstIndex spans m + 1 := by
      intro m hm
      rw [firstIndex, List.findIdx_cons, hm]
      rfl
    -- none of the exclusions listed behind `s` has a mark seen up to there
    have hbehind : ∀ seen, (∀ m ∈ s.label.marks, m ∈ seen) →
        ∀ e ∈ exclusionsFrom seen (spans.map (·.label)), s.label.marks.contains e.1 = false := by
      intro seen hseen e he
      have hnot : e.1 ∉ seen := by
        intro hmem
        have hnone := filter_exclusionsFrom seen spans e.1
        rw [if_pos hmem, List.filter_eq_nil_iff] at hnone
        exact hnone e he (beq_self_eq_true _)
      rw [← Bool.not_eq_true, List.contains_iff_mem]
      exact fun hmem => hnot (hseen _ hmem)
    have hlater : ∀ seen, (∀ m ∈ s.label.marks, m ∈ seen) →
        (exclusionsFrom seen (spans.map (·.label))).Pairwise fun e e' =>
          firstIndex (s :: spans) e.1 < firstIndex (s :: spans) e'.1 := by
      intro seen hseen
      refine (ih seen).imp_of_mem fun he he' hlt => ?_
      rw [hnext _ (hbehind seen hseen _ he), hnext _ (hbehind seen hseen _ he')]
      exact Nat.succ_lt_succ hlt
    rw [List.map_cons]
    cases hl : s.label with
    | transparent =>
      rw [exclusionsFrom]
      exact hlater seen (by simp [hl, Label.marks])
    | exclusion m x =>
      rw [exclusionsFrom]
      by_cases hseen : seen.contains m = true
      · rw [if_pos hseen]
        exact hlater seen (by simpa [hl, Label.marks] using hseen)
      · rw [if_neg hseen]
        have hmarks : ∀ n ∈ s.label.marks, n ∈ m :: seen := by simp [hl, Label.marks]
        refine .cons (fun e he => ?_) (hlater _ hmarks)
        rw [hnext _ (hbehind _ hmarks e he), firstIndex, List.findIdx_cons]
        simp [hl, Label.marks]

/-! ## Breaches -/

/-- What is reported about an exclusion: the first child that is concerned and offends, and the
culprit in it. -/
structure IsBreach (spans : List Span) (ts : List Token) (children : List Place) (b : Breach) :
    Prop where
  exclusion : exclusionOf? spans b.mark = some b.exclusion
  concerned : Concerns spans ts b.mark b.exclusion b.child.node.name
  culprit : IsCulprit b.exclusion.forbidden b.child b.culprit
  /-- No child before it is concerned and offends. -/
  first : ∃ before after, children = before ++ b.child :: after ∧
    ∀ c ∈ before, Concerns spans ts b.mark b.exclusion c.node.name →
      ¬ Offends b.exclusion.forbidden c

/-- The first breach is sought among all children, those that are not concerned being passed over.
-/
theorem breach?_eq (spans : List Span) (ts : List Token) (children : List Place) (mark : Nat)
    (x : Exclusion) : breach? spans ts children mark x = children.findSome? fun c =>
      if (candidates spans ts mark x).contains c.node.name = true then
        (culprit? x.forbidden c).map fun culprit => ⟨mark, x, c, culprit⟩
      else none := by
  rw [breach?, ← List.head?_filterMap, ← List.head?_filterMap, List.filterMap_filter]

/-- Nothing is reported if all children that are concerned are innocent. -/
theorem breach?_eq_none_iff : breach? spans ts children mark x = none ↔
    ∀ c ∈ children, Concerns spans ts mark x c.node.name → ¬ Offends x.forbidden c := by
  rw [breach?_eq, List.findSome?_eq_none_iff]
  refine forall₂_congr fun c _ => ?_
  rw [← mem_candidates, ← NameSet.contains_iff, ← culprit?_eq_none_iff]
  split
  · rename_i hconcerned
    rw [Option.map_eq_none_iff]
    exact ⟨fun h _ => h, fun h => h hconcerned⟩
  · rename_i hfree
    exact ⟨fun _ h => absurd h hfree, fun _ => rfl⟩

theorem mark_of_breach? (h : breach? spans ts children mark x = some b) : b.mark = mark := by
  obtain ⟨c, -, hc⟩ := List.exists_of_findSome?_eq_some h
  obtain ⟨culprit, -, rfl⟩ := Option.map_eq_some_iff.mp hc
  rfl

/-- What is found of one exclusion is as it should be. -/
theorem isBreach_of_breach? (hx : exclusionOf? spans mark = some x)
    (h : breach? spans ts children mark x = some b) : IsBreach spans ts children b := by
  rw [breach?_eq, List.findSome?_eq_some_iff] at h
  obtain ⟨before, c, after, hchildren, hc, hbefore⟩ := h
  split at hc
  · rename_i hconcerned
    obtain ⟨culprit, hculprit, rfl⟩ := Option.map_eq_some_iff.mp hc
    refine ⟨hx, ?_, culprit?_eq_some_iff.mp hculprit, before, after, hchildren, ?_⟩
    · exact mem_candidates.mp (NameSet.contains_iff.mp hconcerned)
    · -- a child that was passed over is not concerned, or it has no culprit
      intro c' hc' hconcerned'
      have hnone := hbefore c' hc'
      rw [if_pos (NameSet.contains_iff.mpr (mem_candidates.mpr hconcerned')),
        Option.map_eq_none_iff] at hnone
      exact culprit?_eq_none_iff.mp hnone
  · cases hc

/-- What is reported is what is found of each mark that some region has. -/
theorem mem_breaches_iff : b ∈ breaches spans ts children ↔ ∃ mark x,
    exclusionOf? spans mark = some x ∧ breach? spans ts children mark x = some b := by
  rw [breaches, List.mem_filterMap]
  constructor
  · rintro ⟨⟨mark, x⟩, hmem, hb⟩
    exact ⟨mark, x, mem_exclusionsFrom_nil.mp hmem, hb⟩
  · rintro ⟨mark, x, hx, hb⟩
    exact ⟨(mark, x), mem_exclusionsFrom_nil.mpr hx, hb⟩

theorem isBreach_of_mem (h : b ∈ breaches spans ts children) : IsBreach spans ts children b := by
  obtain ⟨mark, x, hx, hb⟩ := mem_breaches_iff.mp h
  exact isBreach_of_breach? hx hb

/-- An exclusion is reported just if a child that is concerned offends. -/
theorem exists_breach_iff (hx : exclusionOf? spans mark = some x) :
    (∃ b ∈ breaches spans ts children, b.mark = mark) ↔
      ∃ c ∈ children, Concerns spans ts mark x c.node.name ∧ Offends x.forbidden c := by
  have hsome : (∃ c ∈ children, Concerns spans ts mark x c.node.name ∧ Offends x.forbidden c) ↔
      ∃ b, breach? spans ts children mark x = some b := by
    rw [← Option.ne_none_iff_exists', ne_eq, breach?_eq_none_iff]
    push Not
    rfl
  rw [hsome]
  constructor
  · rintro ⟨b, hb, rfl⟩
    obtain ⟨mark, y, hy, hbreach⟩ := mem_breaches_iff.mp hb
    obtain rfl := mark_of_breach? hbreach
    obtain rfl : y = x := Option.some.inj (hy.symm.trans hx)
    exact ⟨b, hbreach⟩
  · rintro ⟨b, hb⟩
    exact ⟨b, mem_breaches_iff.mpr ⟨mark, x, hx, hb⟩, mark_of_breach? hb⟩

theorem pairwise_breaches (spans : List Span) (ts : List Token) (children : List Place) :
    (breaches spans ts children).Pairwise fun b b' =>
      firstIndex spans b.mark < firstIndex spans b'.mark := by
  refine (pairwise_exclusionsFrom [] spans).filterMap _ fun e e' hlt b hb b' hb' => ?_
  rw [mark_of_breach? hb, mark_of_breach? hb']
  exact hlt

/-! ## Regions of other exclusions -/

theorem exclusionOf?_filter (spans : List Span) (mark : Nat) :
    exclusionOf? (spans.filter (Span.isAbout mark)) mark = exclusionOf? spans mark := by
  rw [exclusionOf?, exclusionOf?, ← List.head?_filterMap, ← List.head?_filterMap,
    List.filterMap_filter]
  congr 2
  funext s
  split
  · rfl
  · rename_i hother
    cases hl : s.label with
    | transparent => simp [Span.isAbout, hl, Label.same] at hother
    | exclusion m x =>
      have hne : m ≠ mark := by
        simpa [Span.isAbout, hl, Label.same, Label.marks, eq_comm] using hother
      exact (if_neg hne).symm

/-- Which names an exclusion is about depends on no other exclusion. -/
theorem concerns_filter : Concerns (spans.filter (Span.isAbout mark)) ts mark x name ↔
    Concerns spans ts mark x name := by
  -- both kinds of regions that are looked at pass the filter
  have htransparent : ∀ s : Span, s.label = .transparent → s.isAbout mark = true := by
    intro s hs
    rw [Span.isAbout, hs]
    rfl
  have hmarked : ∀ s : Span, mark ∈ s.label.marks → s.isAbout mark = true := by
    intro s hs
    rw [Span.isAbout, List.contains_iff_mem.mpr hs, Bool.or_true]
  simp only [Concerns, List.mem_filter]
  constructor
  · rintro ⟨⟨s, ⟨hs, -⟩, hspan⟩, hrestricted⟩
    refine ⟨⟨s, hs, hspan⟩, fun h => ?_⟩
    obtain ⟨s, ⟨hs, -⟩, hspan⟩ := hrestricted h
    exact ⟨s, hs, hspan⟩
  · rintro ⟨⟨s, hs, hspan⟩, hrestricted⟩
    refine ⟨⟨s, ⟨hs, hmarked s hspan.1⟩, hspan⟩, fun h => ?_⟩
    obtain ⟨s, hs, hspan⟩ := hrestricted h
    exact ⟨s, ⟨hs, htransparent s hspan.1⟩, hspan⟩

theorem breach?_filter (spans : List Span) (ts : List Token) (children : List Place) (mark : Nat)
    (x : Exclusion) : breach? (spans.filter (Span.isAbout mark)) ts children mark x =
      breach? spans ts children mark x := by
  rw [breach?_eq, breach?_eq]
  congr 1
  funext c
  have hcontains : (candidates (spans.filter (Span.isAbout mark)) ts mark x).contains c.node.name =
      (candidates spans ts mark x).contains c.node.name := by
    rw [Bool.eq_iff_iff, NameSet.contains_iff, NameSet.contains_iff, mem_candidates,
      mem_candidates, concerns_filter]
  rw [hcontains]

/-- What is reported of one mark. -/
theorem filter_breaches (spans : List Span) (ts : List Token) (children : List Place) (mark : Nat) :
    (breaches spans ts children).filter (fun b => b.mark == mark) =
      (exclusionOf? spans mark).toList.filterMap (breach? spans ts children mark) := by
  have hlisted := filter_exclusionsFrom [] spans mark
  rw [if_neg List.not_mem_nil] at hlisted
  have hmap : (exclusionOf? spans mark).toList.filterMap (breach? spans ts children mark) =
      ((exclusionOf? spans mark).toList.map fun x => (mark, x)).filterMap fun e =>
        breach? spans ts children e.1 e.2 := by
    rw [List.filterMap_map]
    rfl
  rw [breaches, hmap, ← hlisted, List.filter_filterMap, List.filterMap_filter]
  refine List.filterMap_congr fun ⟨m, x⟩ _ => ?_
  show (breach? spans ts children m x).filter (fun b => b.mark == mark) =
    if m == mark then breach? spans ts children m x else none
  cases hb : breach? spans ts children m x with
  | none => rw [ite_self, Option.filter_none]
  | some b => rw [Option.filter_some, mark_of_breach? hb]

/-- Whatever regions, tokens and children there are: breaches are reported in the order in which the
regions of their exclusions come first, so at most one for each mark; an exclusion is reported just
when there is a child that is concerned and offends; what is reported is the first such child with
the first culprit in it; and what is reported of a mark depends on its own regions and on the
transparent ones, but on no others. -/
theorem breaches_exact (spans : List Span) (ts : List Token) (children : List Place) :
    ((breaches spans ts children).Pairwise fun b b' =>
      firstIndex spans b.mark < firstIndex spans b'.mark) ∧
    (∀ mark x, exclusionOf? spans mark = some x →
      ((∃ b ∈ breaches spans ts children, b.mark = mark) ↔
        ∃ c ∈ children, Concerns spans ts mark x c.node.name ∧ Offends x.forbidden c)) ∧
    (∀ b ∈ breaches spans ts children, IsBreach spans ts children b) ∧
    ∀ mark others, others.filter (Span.isAbout mark) = spans.filter (Span.isAbout mark) →
      (breaches others ts children).filter (fun b => b.mark == mark) =
        (breaches spans ts children).filter (fun b => b.mark == mark) := by
  refine ⟨pairwise_breaches spans ts children, fun mark x => exists_breach_iff,
    fun b => isBreach_of_mem, fun mark others heq => ?_⟩
  have hbreach : breach? others ts children mark = breach? spans ts children mark := by
    funext x
    rw [← breach?_filter others, heq, breach?_filter]
  rw [filter_breaches, filter_breaches, ← exclusionOf?_filter others, heq, exclusionOf?_filter,
    hbreach]

end ContentGrammar
