import ContentGrammar.Proofs.Pattern.Marks
import ContentGrammar.Validation

/-!
# Findings do not depend on marks

Marks are there to tell the exclusions of a match apart, and what is found does not show them. So
patterns that are alike find the same (`ofResult_alike`).
-/

namespace ContentGrammar

theorem Pattern.marks_of_hasRegion {p q : Pattern} {l : Label} (h : HasRegion p l q) :
    ∀ n ∈ l.marks, n ∈ p.marks := by
  induction h with
  | here => exact fun n hn => List.mem_append_left _ hn
  | labeled _ ih => exact fun n hn => List.mem_append_right _ (ih n hn)
  | sequence hp _ ih | choice hp _ ih => exact fun n hn => mem_marksAll.mpr ⟨_, hp, ih n hn⟩
  | repeated _ ih => exact ih

/-- The marks of the regions of a match are marks of the pattern. -/
theorem Pattern.marks_of_run? {p : Pattern} {tokens : List Token} {ss : List Span}
    (h : p.run? tokens = some ss) : ∀ s ∈ ss, ∀ n ∈ s.label.marks, n ∈ p.marks := by
  intro s hs
  obtain ⟨q, hq, -⟩ := (derivation_of_run? h).span_spec s hs
  exact marks_of_hasRegion hq

variable {f : Nat → Nat} {A : Set Nat} {spans : List Span}

theorem Label.same_mapMark (hf : Set.InjOn f A) {l l' : Label} (hl : ∀ n ∈ l.marks, n ∈ A)
    (hl' : ∀ n ∈ l'.marks, n ∈ A) : (l.mapMark f).same (l'.mapMark f) = l.same l' := by
  cases l with
  | transparent => cases l' <;> rfl
  | exclusion m x =>
    cases l' with
    | transparent => rfl
    | exclusion m' x' =>
      have hm : m ∈ A := hl m List.mem_cons_self
      have hm' : m' ∈ A := hl' m' List.mem_cons_self
      rw [mapMark, mapMark, same, same, Bool.eq_iff_iff, beq_iff_eq, beq_iff_eq]
      exact hf.eq_iff hm hm'

theorem filter_same_mapMark (hf : Set.InjOn f A) (hspans : ∀ s ∈ spans, ∀ n ∈ s.label.marks, n ∈ A)
    {l : Label} (hl : ∀ n ∈ l.marks, n ∈ A) :
    (spans.map (Span.mapMark f)).filter (fun s => s.label.same (l.mapMark f)) =
      (spans.filter fun s => s.label.same l).map (Span.mapMark f) := by
  rw [List.filter_map]
  congr 1
  exact List.filter_congr fun s hs => Label.same_mapMark hf (hspans s hs) hl

theorem coveredNames_mapMark (f : Nat → Nat) (spans : List Span) (ts : List Token) :
    coveredNames (spans.map (Span.mapMark f)) ts = coveredNames spans ts := by
  rw [coveredNames, coveredNames, List.flatMap_map]
  rfl

theorem candidates_mapMark (hf : Set.InjOn f A)
    (hspans : ∀ s ∈ spans, ∀ n ∈ s.label.marks, n ∈ A) {mark : Nat} (hmark : mark ∈ A)
    (ts : List Token) (x : Exclusion) :
    candidates (spans.map (Span.mapMark f)) ts (f mark) x = candidates spans ts mark x := by
  have hnamed : (spans.map (Span.mapMark f)).filter (fun s => s.label.same (.exclusion (f mark) x)) =
      (spans.filter fun s => s.label.same (.exclusion mark x)).map (Span.mapMark f) :=
    filter_same_mapMark hf hspans (l := .exclusion mark x) fun n hn =>
      List.mem_singleton.mp hn ▸ hmark
  have htransparent : (spans.map (Span.mapMark f)).filter (fun s => s.label.same .transparent) =
      (spans.filter fun s => s.label.same .transparent).map (Span.mapMark f) :=
    filter_same_mapMark hf hspans (l := .transparent) nofun
  rw [candidates, candidates, hnamed, htransparent, coveredNames_mapMark, coveredNames_mapMark]

theorem exclusionsFrom_mapMark (hf : Set.InjOn f A) {seen : List Nat} (hseen : ∀ n ∈ seen, n ∈ A)
    {ls : List Label} (hls : ∀ l ∈ ls, ∀ n ∈ l.marks, n ∈ A) :
    exclusionsFrom (seen.map f) (ls.map (Label.mapMark f)) =
      (exclusionsFrom seen ls).map fun e => (f e.1, e.2) := by
  induction ls generalizing seen with
  | nil => rfl
  | cons l ls ih =>
    have hrest := fun l hl => hls l (List.mem_cons_of_mem _ hl)
    cases l with
    | transparent => exact ih hseen hrest
    | exclusion mark x =>
      have hmark : mark ∈ A := hls _ List.mem_cons_self mark List.mem_cons_self
      -- marks that differ are renamed differently, so the same ones count as seen
      have hcontains : (seen.map f).contains (f mark) = seen.contains mark := by
        rw [Bool.eq_iff_iff, List.contains_iff_mem, List.contains_iff_mem, List.mem_map]
        constructor
        · rintro ⟨n, hn, heq⟩
          exact hf (hseen n hn) hmark heq ▸ hn
        · exact fun h => ⟨mark, h, rfl⟩
      rw [List.map_cons, Label.mapMark, exclusionsFrom, exclusionsFrom, hcontains]
      split
      · exact ih hseen hrest
      · have hcons : ∀ n ∈ mark :: seen, n ∈ A := by
          intro n hn
          rcases List.mem_cons.mp hn with rfl | hn
          · exact hmark
          · exact hseen n hn
        rw [List.map_cons, ← ih hcons hrest, List.map_cons]

theorem mem_of_mem_exclusionsFrom {seen : List Nat} {ls : List Label} {e : Nat × Exclusion}
    (h : e ∈ exclusionsFrom seen ls) : ∃ l ∈ ls, e.1 ∈ l.marks := by
  induction ls generalizing seen with
  | nil => cases h
  | cons l ls ih =>
    have hrest : ∀ {seen}, e ∈ exclusionsFrom seen ls → ∃ l' ∈ l :: ls, e.1 ∈ l'.marks := by
      intro seen h
      obtain ⟨l', hl', hmark⟩ := ih h
      exact ⟨l', List.mem_cons_of_mem _ hl', hmark⟩
    cases l with
    | transparent => exact hrest h
    | exclusion mark x =>
      rw [exclusionsFrom] at h
      split at h
      · exact hrest h
      · rcases List.mem_cons.mp h with rfl | h
        · exact ⟨_, List.mem_cons_self, List.mem_cons_self⟩
        · exact hrest h

/-- Regions with their marks renamed one to one have the same breaches but for the marks. -/
theorem breaches_mapMark (hf : Set.InjOn f A) (hspans : ∀ s ∈ spans, ∀ n ∈ s.label.marks, n ∈ A)
    (ts : List Token) (children : List Place) :
    breaches (spans.map (Span.mapMark f)) ts children =
      (breaches spans ts children).map fun b => { b with mark := f b.mark } := by
  have hlabels : (spans.map (Span.mapMark f)).map (·.label) =
      (spans.map (·.label)).map (Label.mapMark f) := by
    rw [List.map_map, List.map_map]
    rfl
  have hmarks : ∀ l ∈ spans.map (·.label), ∀ n ∈ l.marks, n ∈ A := by
    intro l hl
    obtain ⟨s, hs, rfl⟩ := List.mem_map.mp hl
    exact hspans s hs
  have hexclusions : exclusionsFrom [] ((spans.map (·.label)).map (Label.mapMark f)) =
      (exclusionsFrom [] (spans.map (·.label))).map fun e => (f e.1, e.2) :=
    exclusionsFrom_mapMark hf (List.forall_mem_nil _) hmarks
  rw [breaches, breaches, hlabels, hexclusions, List.filterMap_map, List.map_filterMap]
  refine List.filterMap_congr fun e he => ?_
  obtain ⟨l, hl, hmark⟩ := mem_of_mem_exclusionsFrom he
  show breach? _ ts children (f e.1) e.2 = (breach? spans ts children e.1 e.2).map _
  rw [breach?, breach?, candidates_mapMark hf hspans (hmarks l hl _ hmark), List.map_findSome?]
  congr 1
  funext c
  simp only [Function.comp_apply, Option.map_map]
  rfl

namespace Outcome

theorem ofPattern_alike {p : Pattern} {q : Pattern} (h : p.Alike q) (place : Place)
    (source : Source) : ofPattern place source q = ofPattern place source p := by
  obtain ⟨f, hf, rfl⟩ := h
  rw [ofPattern, ofPattern]
  dsimp only
  rw [Pattern.run?_mapMarks]
  cases hr : p.run? (tokensOf place.content) with
  | none => rfl
  | some ss =>
    rw [Option.map_some]
    dsimp only
    rw [breaches_mapMark hf (Pattern.marks_of_run? hr), List.map_map]
    rfl

/-- Results that are alike find the same. -/
theorem ofResult_alike {r r' : Except ModelError Pattern} (h : AlikeResult r r') (place : Place)
    (source : Source) : ofResult place source r' = ofResult place source r := by
  cases h with
  | ok h => exact ofPattern_alike h place source
  | error e => rfl

end Outcome

end ContentGrammar
