import Mathlib.Data.Finset.Prod
import Mathlib.Data.Finset.Card
import ContentGrammar.Proofs.Pattern.Nesting

/-!
# Searching a program depth first

`backtrack program tokens` runs a program by depth-first search: at a branch the first target is
gone through completely before the second one, a token is consumed by going on to the next
position, the end of the program counts at the end of the tokens only, and a spot that has been
visited before fails.

* `find_append` — searching two rows of configurations is searching the second one with what the
  first one has left;
* `find_filter` — a search does not depend on the spots in front of the positions it is at.
-/

namespace ContentGrammar

namespace Lockstep

/-- All addresses of a program at all positions of a row of tokens. -/
def allSpots (program : Program) (tokens : List Token) : Finset Spot :=
  Finset.range program.size ×ˢ Finset.range (tokens.length + 1)

/-- Searches configurations depth first, one after the other, and going only to `fresh` spots.
Answers with the thread that arrives first, if any, and with the spots that are still fresh. -/
def search (program : Program) (fresh : Finset Spot) (cs : List Config) :
    { a : Option Thread × Finset Spot // a.2 ⊆ fresh } :=
  match cs with
  | [] => ⟨(none, fresh), Finset.Subset.refl _⟩
  | c :: others =>
    if _h : c.spot ∈ fresh then
      if c.isFinal program then ⟨(some c.thread, fresh.erase c.spot), Finset.erase_subset _ _⟩
      else
        match search program (fresh.erase c.spot) (c.next program) with
        | ⟨(some t, left), hl⟩ => ⟨(some t, left), hl.trans (Finset.erase_subset _ _)⟩
        | ⟨(none, left), hl⟩ =>
          let a := search program left others
          ⟨a.1, a.2.trans (hl.trans (Finset.erase_subset _ _))⟩
    else search program fresh others
termination_by (fresh.card, cs.length)
decreasing_by
  · exact Prod.Lex.left _ _ (Finset.card_erase_lt_of_mem _h)
  · exact Prod.Lex.left _ _ (lt_of_le_of_lt (Finset.card_le_card hl)
      (Finset.card_erase_lt_of_mem _h))
  · exact Prod.Lex.right _ (Nat.lt_succ_self _)

/-- The answer of a search. -/
def find (program : Program) (fresh : Finset Spot) (cs : List Config) :
    Option Thread × Finset Spot := (search program fresh cs).1

/-- The configuration from which a program is run. -/
def start (tokens : List Token) : Config := ⟨0, 0, tokens, ⟨[], []⟩⟩

/-- Runs a program over tokens by depth-first search. -/
def backtrack (program : Program) (tokens : List Token) : Option (List Span) :=
  (find program (allSpots program tokens) [start tokens]).1.map (·.spans.reverse)

variable {program : Program} {fresh : Finset Spot} {c d : Config} {cs ds : List Config}

theorem find_subset : (find program fresh cs).2 ⊆ fresh := (search program fresh cs).2

@[simp] theorem find_nil : find program fresh [] = (none, fresh) := by
  rw [find, search]

theorem find_stale (h : c.spot ∉ fresh) : find program fresh (c :: cs) = find program fresh cs := by
  rw [find, search, dif_neg h, find]

theorem find_final (h : c.spot ∈ fresh) (hf : c.isFinal program = true) :
    find program fresh (c :: cs) = (some c.thread, fresh.erase c.spot) := by
  rw [find, search, dif_pos h, if_pos hf]

/-- Goes on with further configurations if nothing has been found. -/
def otherwise (program : Program) (cs : List Config) :
    Option Thread × Finset Spot → Option Thread × Finset Spot
  | (some t, left) => (some t, left)
  | (none, left) => find program left cs

theorem find_fresh (h : c.spot ∈ fresh) (hf : c.isFinal program = false) :
    find program fresh (c :: cs) =
      otherwise program cs (find program (fresh.erase c.spot) (c.next program)) := by
  rw [find, search, dif_pos h, if_neg (Bool.eq_false_iff.mp hf), find]
  split
  · rename_i hs
    rw [hs]
    rfl
  · rename_i hs
    rw [hs]
    rfl

/-- Induction along a search: what follows a configuration is searched first, the configurations
behind it only with what that has left. -/
theorem find_induct {motive : Finset Spot → List Config → Prop} (program : Program)
    (nil : ∀ fresh, motive fresh [])
    (stale : ∀ fresh c cs, c.spot ∉ fresh → motive fresh cs → motive fresh (c :: cs))
    (final : ∀ fresh c cs, c.spot ∈ fresh → c.isFinal program = true → motive fresh (c :: cs))
    (next : ∀ fresh c cs, c.spot ∈ fresh → c.isFinal program = false →
      motive (fresh.erase c.spot) (c.next program) →
      (∀ left, find program (fresh.erase c.spot) (c.next program) = (none, left) →
        motive left cs) → motive fresh (c :: cs))
    (fresh : Finset Spot) (cs : List Config) : motive fresh cs := by
  induction fresh, cs using search.induct program with
  | case1 fresh => exact nil fresh
  | case2 fresh c cs h hf => exact final fresh c cs h hf
  | case3 fresh c cs h hf t left hl hs ih =>
    refine next fresh c cs h (Bool.eq_false_iff.mpr hf) ih fun left' hl' => ?_
    rw [find, hs] at hl'
    cases hl'
  | case4 fresh c cs h hf left hl hs ih ih' =>
    refine next fresh c cs h (Bool.eq_false_iff.mpr hf) ih fun left' hl' => ?_
    rw [find, hs] at hl'
    obtain rfl := congrArg Prod.snd hl'
    exact ih'
  | case5 fresh c cs h ih => exact stale fresh c cs h ih

/-- Searching two rows of configurations is searching the second one with what the first one has
left. -/
theorem find_append :
    find program fresh (cs ++ ds) = otherwise program ds (find program fresh cs) := by
  induction fresh, cs using find_induct program with
  | nil fresh => rw [List.nil_append, find_nil, otherwise]
  | stale fresh c cs h ih => rw [List.cons_append, find_stale h, find_stale h, ih]
  | final fresh c cs h hf => rw [List.cons_append, find_final h hf, find_final h hf, otherwise]
  | next fresh c cs h hf _ ih =>
    rw [List.cons_append, find_fresh h hf, find_fresh h hf]
    cases hr : find program (fresh.erase c.spot) (c.next program) with
    | mk found left =>
      cases found with
      | some t => rfl
      | none => exact ih left hr

/-- What follows a configuration may as well be put in front of the configurations behind it. -/
theorem find_cons (h : c.spot ∈ fresh) (hf : c.isFinal program = false) :
    find program fresh (c :: cs) = find program (fresh.erase c.spot) (c.next program ++ cs) := by
  rw [find_fresh h hf, find_append]

/-! ## Positions in front of a search -/

theorem Config.position_le_of_mem_next (h : d ∈ c.next program) : c.position ≤ d.position := by
  unfold Config.next at h
  split at h
  · cases h
  · split at h
    · cases h
    · split at h
      · obtain rfl := List.mem_singleton.mp h
        exact Nat.le_succ _
      · cases h
  · obtain ⟨l, _, rfl⟩ := List.mem_map.mp h
    exact Nat.le_refl _

/-- A search leaves the spots in front of it alone. -/
theorem mem_find_of_lt {q : Nat} {s : Spot} (hcs : ∀ c ∈ cs, q ≤ c.position) (hs : s.2 < q)
    (h : s ∈ fresh) : s ∈ (find program fresh cs).2 := by
  -- the spots that a search uses up are at the position of a configuration
  have herase : ∀ {c : Config} {fresh : Finset Spot}, q ≤ c.position → s ∈ fresh →
      s ∈ fresh.erase c.spot := by
    intro c fresh hc h
    refine Finset.mem_erase.mpr ⟨?_, h⟩
    rintro rfl
    exact absurd hs (Nat.not_lt.mpr hc)
  induction fresh, cs using find_induct program with
  | nil fresh => simpa using h
  | stale fresh c cs hc ih =>
    rw [find_stale hc]
    exact ih (fun d hd => hcs d (List.mem_cons_of_mem _ hd)) h
  | final fresh c cs hc hf =>
    rw [find_final hc hf]
    exact herase (hcs c List.mem_cons_self) h
  | next fresh c cs hc hf ih ih' =>
    have hq := hcs c List.mem_cons_self
    have hleft := ih (fun d hd => Nat.le_trans hq (Config.position_le_of_mem_next hd))
      (herase hq h)
    rw [find_fresh hc hf]
    cases hr : find program (fresh.erase c.spot) (c.next program) with
    | mk found left =>
      rw [hr] at hleft
      cases found with
      | some t => exact hleft
      | none => exact ih' left hr (fun d hd => hcs d (List.mem_cons_of_mem _ hd)) hleft

/-- Whether spots in front of a search are fresh does not matter for it. -/
theorem find_filter {q : Nat} {keep : Spot → Prop} [DecidablePred keep]
    (hkeep : ∀ s : Spot, q ≤ s.2 → keep s) (hcs : ∀ c ∈ cs, q ≤ c.position) :
    find program (fresh.filter keep) cs =
      ((find program fresh cs).1, (find program fresh cs).2.filter keep) := by
  induction fresh, cs using find_induct program with
  | nil fresh => simp
  | stale fresh c cs h ih =>
    have h' : c.spot ∉ fresh.filter keep := fun hm => h (Finset.mem_filter.mp hm).1
    rw [find_stale h, find_stale h', ih fun d hd => hcs d (List.mem_cons_of_mem _ hd)]
  | final fresh c cs h hf =>
    have h' : c.spot ∈ fresh.filter keep :=
      Finset.mem_filter.mpr ⟨h, hkeep _ (hcs c List.mem_cons_self)⟩
    rw [find_final h hf, find_final h' hf, Finset.filter_erase]
  | next fresh c cs h hf ih ih' =>
    have hq := hcs c List.mem_cons_self
    have h' : c.spot ∈ fresh.filter keep := Finset.mem_filter.mpr ⟨h, hkeep _ hq⟩
    have hnext := ih fun d hd => Nat.le_trans hq (Config.position_le_of_mem_next hd)
    rw [find_fresh h hf, find_fresh h' hf, ← Finset.filter_erase, hnext]
    cases hr : find program (fresh.erase c.spot) (c.next program) with
    | mk found left =>
      cases found with
      | some t => rfl
      | none => exact ih' left hr fun d hd => hcs d (List.mem_cons_of_mem _ hd)

end Lockstep

end ContentGrammar
