import ContentGrammar.Proofs.Pattern.Refinement

/-!
# What matching a pattern answers

The pieces come together: the code of a pattern realises its derivations, backtracking finds the
first simple way through the code, and lockstep is backtracking.

* `run?_is_backtracking` — matching gives what depth-first backtracking gives, which is the first
  simple way in order of preference;
* `run?_gives_derivation` — there is a match just when there is a derivation, and the regions that are
  reported are those of one;
* `run?_isSome_iff` — the same, for whoever only asks whether a row of tokens is a match.
-/

namespace ContentGrammar

open Lockstep

namespace Pattern

variable {p : Pattern} {tokens : List Token} {ss : List Span}

/-! ## Backtracking -/

theorem run?_eq_some_iff : p.run? tokens = some ss ↔
    ∃ visited forks t, Way.IsFirst p.program (start tokens) visited forks t ∧
      ss = t.spans.reverse := by
  rw [run?, run_eq_backtrack]
  exact backtrack_eq_some_iff (nested_program p)

theorem run?_eq_none_iff : p.run? tokens = none ↔
    ∀ visited forks t, ¬ Way p.program (start tokens) visited forks t := by
  rw [run?, run_eq_backtrack]
  exact backtrack_eq_none_iff (nested_program p)

/-- Matching in lockstep comes to the same as going through the program depth first: it gives the
regions of the first way, in order of preference, among those that visit no instruction twice at one
position, and nothing only if there is no such way. -/
theorem run?_is_backtracking (p : Pattern) (tokens : List Token) :
    p.run? tokens = backtrack p.program tokens ∧
    (∀ ss, p.run? tokens = some ss ↔
      ∃ visited forks t, Way.IsFirst p.program (start tokens) visited forks t ∧
        ss = t.spans.reverse) ∧
    (p.run? tokens = none ↔
      ∀ visited forks t, Way p.program (start tokens) visited forks t → ¬ visited.Nodup) := by
  refine ⟨run_eq_backtrack p.program tokens, fun ss => run?_eq_some_iff, ?_⟩
  constructor
  · intro h visited forks t hw
    exact absurd hw (run?_eq_none_iff.mp h visited forks t)
  · intro h
    cases hr : p.run? tokens with
    | none => rfl
    | some ss =>
      obtain ⟨visited, forks, t, ⟨hw, hnodup, _⟩, _⟩ := run?_eq_some_iff.mp hr
      exact absurd hnodup (h visited forks t hw)

/-! ## Derivations -/

theorem realises_program (p : Pattern) :
    Realises p.program 0 p.codeSize (Derivation p) := by
  have h := realises_code p 0 (placed_program p).left
  rwa [Nat.zero_add] at h

/-- A way through the program of a pattern goes through a derivation. -/
theorem derivation_of_way {visited : List Spot} {forks : List Nat} {t : Thread}
    (h : Way p.program (start tokens) visited forks t) : Derivation p 0 tokens t.spans.reverse := by
  obtain ⟨ts, rest, ss, v, f, htokens, hd, hw, -⟩ :=
    (realises_program p).sound 0 tokens ⟨[], []⟩ visited forks t h
  -- the code is followed by the end of the program, where no way goes on
  cases hw with
  | final hf =>
    obtain rfl : rest = [] := (Config.isFinal_iff.mp hf).2
    rw [List.append_nil] at htokens
    subst htokens
    simpa [Thread.after] using hd
  | step hnext _ =>
    rw [Config.next, program_done] at hnext
    cases hnext

/-- Each derivation is gone through by a way. -/
theorem way_of_derivation (h : Derivation p 0 tokens ss) :
    ∃ visited forks t, Way p.program (start tokens) visited forks t := by
  have hleads := (realises_program p).complete 0 tokens ss [] ⟨[], []⟩ h
  have hfinal : Config.isFinal p.program ⟨p.codeSize, 0 + tokens.length, [],
      Thread.after ⟨[], []⟩ ss⟩ = true := Config.isFinal_iff.mpr ⟨program_done p, rfl⟩
  obtain ⟨visited, forks, hw⟩ := hleads _ _ _ (.final hfinal)
  rw [List.append_nil] at hw
  exact ⟨visited, forks, _, hw⟩

theorem derivation_of_run? (h : p.run? tokens = some ss) : Derivation p 0 tokens ss := by
  obtain ⟨visited, forks, t, ⟨hw, _⟩, rfl⟩ := run?_eq_some_iff.mp h
  exact derivation_of_way hw

theorem run?_eq_none_iff_not_matches : p.run? tokens = none ↔ ¬ p.Matches tokens := by
  rw [run?_eq_none_iff]
  constructor
  · rintro h ⟨ss, hd⟩
    obtain ⟨visited, forks, t, hw⟩ := way_of_derivation hd
    exact h visited forks t hw
  · intro h visited forks t hw
    exact h ⟨_, derivation_of_way hw⟩

/-- A row of tokens is a match just when the pattern derives it. -/
theorem run?_isSome_iff : (p.run? tokens).isSome ↔ p.Matches tokens := by
  rw [← not_iff_not, ← run?_eq_none_iff_not_matches, Option.not_isSome_iff_eq_none]

/-- Matching answers with nothing if no derivation takes the whole row; otherwise with the regions
of a derivation that does, in the order in which they end. So each region lies in the row, of two
regions the later one is behind the other one or around it, and what a region took is a match of the
pattern under its label. -/
theorem run?_gives_derivation (p : Pattern) (tokens : List Token) :
    (p.run? tokens = none ↔ ¬ p.Matches tokens) ∧
    ∀ ss, p.run? tokens = some ss →
      Derivation p 0 tokens ss ∧
      (∀ s ∈ ss, s.start ≤ s.stop ∧ s.stop ≤ tokens.length) ∧
      (ss.Pairwise fun a b => a.stop ≤ b.start ∨ b.start ≤ a.start ∧ a.stop ≤ b.stop) ∧
      ∀ s ∈ ss, ∃ q, HasRegion p s.label q ∧
        q.Matches ((tokens.drop s.start).take (s.stop - s.start)) := by
  refine ⟨run?_eq_none_iff_not_matches, fun ss hr => ?_⟩
  have hd := derivation_of_run? hr
  refine ⟨hd, fun s hs => ?_, hd.spans_ordered, fun s hs => ?_⟩
  · have hb := hd.span_bounds s hs
    exact ⟨hb.2.1, by omega⟩
  · obtain ⟨q, hq, rs, hinner⟩ := hd.span_spec s hs
    exact ⟨q, hq, hinner.move 0⟩

/-- A region around a single token is reported as such. -/
theorem run?_gives_derivation_labeled :
    (Pattern.labeled .transparent (.token .any)).run? [.text] = some [⟨.transparent, 0, 1⟩] := by
  obtain ⟨hnone, hsome⟩ :=
    run?_gives_derivation (.labeled .transparent (.token .any)) [.text]
  cases hr : (Pattern.labeled .transparent (.token .any)).run? [.text] with
  | none => exact absurd ⟨_, .labeled (.token rfl)⟩ (hnone.mp hr)
  | some ss =>
    obtain ⟨rs, rfl, hd⟩ := Derivation.labeled_iff.mp (hsome ss hr).1
    cases hd with
    | token => rfl

end Pattern

end ContentGrammar
