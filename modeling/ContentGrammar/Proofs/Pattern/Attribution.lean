import ContentGrammar.Proofs.Pattern.Chart
import ContentGrammar.Proofs.Pattern.Eager
import ContentGrammar.Proofs.Pattern.Matching

/-!
# Attribution of children to regions

Which region a child is reported in depends on which of the ways to match a row is reported.
Running in lockstep against greedy backtracking:

* `run?_reports_way` — one fails just when the other one does, and what a run reports is one of the
  ways that backtracking goes through. It is the first one, which greedy backtracking reports, if
  whatever the pattern repeats without an upper bound prefers to take tokens;
* `run?_eq_greedy_of_settled` — in particular if alternatives that can be matched by nothing come
  last, and no item that can is optional;
* `not_run?_eq_greedy` — without a condition it need not be the first one. A thread is dropped where
  another one has been at the same position, also if that other one comes to it at the end of a
  round: by an alternative that takes nothing, before one that takes a token. The second round then
  is cut off, and the token goes to the first round.
-/

namespace ContentGrammar

namespace Pattern

open Lockstep Trail

variable {p : Pattern} {tokens : List Token} {ss : List Span} {E : Prop}

/-! ## Ways of a chart and ways through the program -/

theorem charted_program (p : Pattern) (hE : E → ∀ q, p.HasLoop q → q.Eager) :
    Charted p.program E 0 p.codeSize p.codeSize p.ways := by
  have h := charted_code p hE 0 (placed_program p).left
  rwa [Nat.zero_add] at h

variable {chart : Matcher Event} {c : Point × Trail}

/-- A way of the chart that takes the whole row goes through the program. -/
theorem way_of_chart (h : Charts p.program E 0 p.codeSize p.codeSize p.ways chart)
    (hc : c ∈ chart ⟨0, tokens⟩) (hrest : c.1.rest = []) :
    Way p.program (start tokens) (visited c.2 ++ [(p.codeSize, c.1.position)]) (forks c.2)
      (Thread.after ⟨[], []⟩ (regions c.2)) := by
  have hfinal : Config.isFinal p.program (c.1.config p.codeSize
      (Thread.after ⟨[], []⟩ (regions c.2))) = true :=
    Config.isFinal_iff.mpr ⟨program_done p, hrest⟩
  have hw := h.follows.sound _ c hc _ _ _ _ (.final hfinal)
  rwa [List.append_nil] at hw

/-- A simple way through the program is one of the chart. -/
theorem chart_of_way (h : Charts p.program E 0 p.codeSize p.codeSize p.ways chart)
    {v : List Spot} {f : List Nat} {t : Thread} (hw : Way p.program (start tokens) v f t)
    (hnodup : v.Nodup) : ∃ c ∈ chart ⟨0, tokens⟩, c.1.rest = [] ∧ f = forks c.2 ∧
      t.spans.reverse = regions c.2 := by
  obtain ⟨c, hc, v', f', -, rfl, hw'⟩ :=
    h.follows.complete ⟨0, tokens⟩ ⟨[], []⟩ v f t hw hnodup
  refine ⟨c, hc, ?_⟩
  cases hw' with
  | final hf =>
    refine ⟨(Config.isFinal_iff.mp hf).2, by simp, ?_⟩
    simp [Thread.after]
  | step hnext _ =>
    rw [Config.next, program_done] at hnext
    cases hnext

theorem mem_ways_of_chart (h : Charts p.program E 0 p.codeSize p.codeSize p.ways chart)
    (hc : c ∈ chart ⟨0, tokens⟩) : (c.1, regions c.2) ∈ p.ways ⟨0, tokens⟩ := by
  rw [← h.spans]
  exact List.mem_map.mpr ⟨c, hc, rfl⟩

/-- What a run reports is one of the ways that take the whole row. -/
theorem mem_ways_of_run? (h : p.run? tokens = some ss) :
    ∃ x, x.rest = [] ∧ (x, ss) ∈ p.ways ⟨0, tokens⟩ := by
  obtain ⟨visited, forks, t, ⟨hw, hnodup, -⟩, rfl⟩ := run?_eq_some_iff.mp h
  obtain ⟨chart, hchart⟩ := charted_program p False.elim
  obtain ⟨c, hc, hrest, -, hspans⟩ := chart_of_way hchart hw hnodup
  exact ⟨c.1, hrest, hspans ▸ mem_ways_of_chart hchart hc⟩

theorem greedy_eq_none_iff : p.greedy tokens = none ↔ ∀ c ∈ p.ways ⟨0, tokens⟩, c.1.rest ≠ [] := by
  simp [greedy]

theorem run?_eq_none_iff_greedy : p.run? tokens = none ↔ p.greedy tokens = none := by
  rw [greedy_eq_none_iff]
  constructor
  · intro hnone c hc hrest
    obtain ⟨chart, hchart⟩ := charted_program p False.elim
    rw [← hchart.spans] at hc
    obtain ⟨d, hd, rfl⟩ := List.mem_map.mp hc
    exact run?_eq_none_iff.mp hnone _ _ _ (way_of_chart hchart hd hrest)
  · intro h
    cases hr : p.run? tokens with
    | none => rfl
    | some ss =>
      obtain ⟨x, hrest, hx⟩ := mem_ways_of_run? hr
      exact absurd hrest (h _ hx)

/-! ## The first way -/

/-- All that is found in a list is behind what is found first. -/
theorem eq_or_related_of_find? {α : Type} {R : α → α → Prop} {P : α → Bool} {as : List α}
    {a b : α} (h : as.Pairwise R) (ha : as.find? P = some a) (hb : b ∈ as) (hP : P b = true) :
    b = a ∨ R a b := by
  obtain ⟨-, before, behind, rfl, hnot⟩ := List.find?_eq_some_iff_append.mp ha
  rcases List.mem_append.mp hb with hb | hb
  · have := hnot b hb
    simp [hP] at this
  · rcases List.mem_cons.mp hb with rfl | hb
    · exact .inl rfl
    · exact .inr (List.rel_of_pairwise_cons (List.pairwise_append.mp h).2.1 hb)

/-- Of the ways that take the whole row none comes before the one that is found first. -/
theorem not_before_of_find? (h : Charts p.program E 0 p.codeSize p.codeSize p.ways chart)
    (hfound : (chart ⟨0, tokens⟩).find? (fun c => c.1.rest.isEmpty) = some c) :
    ∀ d ∈ chart ⟨0, tokens⟩, d.1.rest = [] → ¬ Before (forks d.2) (forks c.2) := by
  intro d hd hrest
  rcases eq_or_related_of_find? (h.tidy.ordered _) hfound hd (by simp [hrest]) with rfl | hahead
  · exact List.lex_irrefl (fun n => Nat.lt_irrefl n) _
  · exact List.lex_asymm (fun h => Nat.lt_asymm h) hahead.before

/-- What is found first in a chart is the first simple way through the program. -/
theorem isFirst_of_find? (h : Charts p.program E 0 p.codeSize p.codeSize p.ways chart) (hE : E)
    (hfound : (chart ⟨0, tokens⟩).find? (fun c => c.1.rest.isEmpty) = some c) :
    Way.IsFirst p.program (start tokens) (visited c.2 ++ [(p.codeSize, c.1.position)])
      (forks c.2) (Thread.after ⟨[], []⟩ (regions c.2)) := by
  have hc : c ∈ chart ⟨0, tokens⟩ := List.mem_of_find?_eq_some hfound
  have hrest : c.1.rest = [] := by simpa using List.find?_some hfound
  have hfirst := not_before_of_find? h hfound
  refine ⟨way_of_chart h hc hrest, ?_, ?_⟩
  · have hsimple : (visited c.2).Nodup :=
      h.simple hE _ c ⟨hc, fun d hd hstop hahead => hfirst d hd (hstop ▸ hrest) hahead.before⟩
    refine List.nodup_append'.mpr ⟨hsimple, List.nodup_singleton _, fun s hs hs' => ?_⟩
    -- the end of the program lies behind the code
    obtain rfl := List.mem_singleton.mp hs'
    exact Nat.lt_irrefl _ (h.tidy.within _ c hc _ hs).2.1
  · intro v f t hw hnodup
    obtain ⟨d, hd, hrest', rfl, -⟩ := chart_of_way h hw hnodup
    exact hfirst d hd hrest'

theorem run?_eq_greedy (hE : ∀ q, p.HasLoop q → q.Eager) : p.run? tokens = p.greedy tokens := by
  cases hg : p.greedy tokens with
  | none => exact run?_eq_none_iff_greedy.mpr hg
  | some ss =>
    obtain ⟨chart, hchart⟩ := charted_program p fun _ : True => hE
    rw [greedy, ← hchart.spans, spansOf, List.find?_map, Option.map_map,
      Option.map_eq_some_iff] at hg
    obtain ⟨c, hfound, rfl⟩ := hg
    refine run?_eq_some_iff.mpr ⟨_, _, _, isFirst_of_find? hchart trivial hfound, ?_⟩
    simp [Thread.after]

/-- On a settled pattern a run reports what greedy backtracking does. -/
theorem run?_eq_greedy_of_settled (h : p.Settled) : p.run? tokens = p.greedy tokens :=
  run?_eq_greedy fun _ hq => (h.of_hasLoop hq).eager

/-- Running in lockstep and greedy backtracking agree on whether a row is a match, and what a run
reports are the regions of one of the ways that take the whole row. It is the first of them, so that
each child is in the regions that the order of preference puts it in, if whatever the pattern
repeats without an upper bound prefers to take tokens. -/
theorem run?_reports_way (p : Pattern) (tokens : List Token) :
    (p.run? tokens = none ↔ p.greedy tokens = none) ∧
    (∀ ss, p.run? tokens = some ss → ∃ x, x.rest = [] ∧ (x, ss) ∈ p.ways ⟨0, tokens⟩) ∧
    ((∀ q, p.HasLoop q → q.Eager) → p.run? tokens = p.greedy tokens) :=
  ⟨run?_eq_none_iff_greedy, fun _ => mem_ways_of_run?, run?_eq_greedy⟩

/-- A token of one name. -/
def named (name : String) : Pattern := .token (.oneOf (NameSet.ofList [name]))

/-- A region with an `a`, which may be left out, and one of the alternatives. -/
def regionOf (alternatives : List Pattern) : Pattern :=
  .labeled .transparent (.sequence [.repeated (named "a") 0 (some 1), .choice alternatives])

theorem settled_regionOf : (Pattern.repeated (regionOf [named "b", .empty]) 0 none).Settled := by
  have taking : ∀ name, ¬ (named name).Matches [] := by
    rintro name ⟨ss, h⟩
    cases h
  refine .loop _ _ (.labeled _ _ (.sequence _ fun p hp => ?_))
  rcases List.mem_cons.mp hp with rfl | hp
  · exact .upTo _ _ _ (taking "a") (.token _)
  · obtain rfl := List.mem_singleton.mp hp
    exact .choiceCons _ _ (taking "b") (.token _) (.choiceOne _ .empty)

/-- Regions in which a `b` is preferred to nothing: both children are in the first one. -/
theorem run?_reports_way_eager :
    (Pattern.repeated (regionOf [named "b", .empty]) 0 none).run? [.element "a", .element "b"] =
      some [⟨.transparent, 0, 2⟩] := by
  rw [(run?_reports_way _ _).2.2 fun q hq => (settled_regionOf.of_hasLoop hq).eager]
  with_unfolding_all rfl

/-- Regions in which nothing is preferred to a `b`: backtracking leaves the first one behind the
`a`, and puts the `b` into a second one. In lockstep the second one is cut off. -/
theorem not_run?_eq_greedy :
    ¬ ∀ (p : Pattern) (tokens : List Token), p.run? tokens = p.greedy tokens := by
  intro h
  have agree := h (.repeated (regionOf [.empty, named "b"]) 0 none) [.element "a", .element "b"]
  have lockstep : (Pattern.repeated (regionOf [.empty, named "b"]) 0 none).run?
      [.element "a", .element "b"] = some [⟨.transparent, 0, 2⟩] := by cbv
  have greedy : (Pattern.repeated (regionOf [.empty, named "b"]) 0 none).greedy
      [.element "a", .element "b"] = some [⟨.transparent, 0, 1⟩, ⟨.transparent, 1, 2⟩] := by
    with_unfolding_all rfl
  rw [lockstep, greedy] at agree
  cases agree

end Pattern

end ContentGrammar
