import Mathlib.Data.List.Infix
import ContentGrammar.Proofs.Selector.Shape

/-!
# Parentheses in pairs

The end of a negation is looked for by counting parentheses, and those in quotes are counted as well.
So the search goes on behind a text as it was before just if the parentheses in the text come in pairs
(`balanced_iff_paired`). Of a written selector this is asked for each text that stands between the
parentheses of a negation (`Part.enclosed`). It holds if the values in quotes in there have their
parentheses in pairs (`balanced_enclosed`).
-/

namespace ContentGrammar.Selector

variable {cs before rest : List Char} {depth : Nat}

/-- A text in which no parenthesis is closed that was not opened before, and all that are opened are
closed. -/
structure Paired (cs : List Char) : Prop where
  opened : ∀ before, before <+: cs → before.count ')' ≤ before.count '('
  closed : cs.count ')' = cs.count '('

instance : Decidable (Paired cs) :=
  decidable_of_iff ((∀ before ∈ cs.inits, before.count ')' ≤ before.count '(') ∧
      cs.count ')' = cs.count '(')
    ⟨fun h => ⟨fun before hbefore => h.1 before ((List.mem_inits _ _).mpr hbefore), h.2⟩,
      fun h => ⟨fun before hbefore => h.opened before ((List.mem_inits _ _).mp hbefore), h.closed⟩⟩

/-! ## The search for the end of a negation -/

/-- How many parentheses are open behind a character. -/
def openBehind (depth : Nat) (c : Char) : Nat :=
  if c = '(' then depth + 1 else if c = ')' then depth - 1 else depth

/-- The search goes on behind each character that does not end it. -/
theorem closing?_cons {c : Char} (h : c = ')' → depth ≠ 0) (cs : List Char) :
    closing? depth (c :: cs) =
      (closing? (openBehind depth c) cs).map fun r => (c :: r.1, r.2) := by
  rw [closing?, if_neg fun hc => h hc.1 hc.2]
  rfl

/-- A character changes the number of open parentheses as it changes the counts. -/
theorem count_add_openBehind {c : Char} (h : c = ')' → depth ≠ 0) (cs : List Char) :
    (c :: cs).count '(' + depth + cs.count ')' =
      (c :: cs).count ')' + (cs.count '(' + openBehind depth c) := by
  unfold openBehind
  by_cases hopening : c = '('
  · subst hopening
    rw [List.count_cons_self, List.count_cons_of_ne (by decide), if_pos rfl]
    omega
  · rw [List.count_cons_of_ne hopening, if_neg hopening]
    by_cases hclosing : c = ')'
    · subst hclosing
      have := h rfl
      rw [List.count_cons_self, if_pos rfl]
      omega
    · rw [List.count_cons_of_ne hclosing, if_neg hclosing]
      omega

/-- The search passes over a text that closes no more than `depth` parentheses which it has not
opened. -/
theorem closing?_append (h : ∀ before, before <+: cs → before.count ')' ≤ before.count '(' + depth)
    (rest : List Char) : closing? depth (cs ++ rest) =
      (closing? (depth + cs.count '(' - cs.count ')') rest).map fun r => (cs ++ r.1, r.2) := by
  induction cs generalizing depth with
  | nil => simp
  | cons c cs ih =>
    have hstart : ∀ before, before <+: cs →
        (c :: before).count ')' ≤ (c :: before).count '(' + depth :=
      fun before hbefore => h _ (List.prefix_cons_iff.mpr (.inr ⟨before, rfl, hbefore⟩))
    have hc : c = ')' → depth ≠ 0 := by
      rintro rfl rfl
      exact absurd (hstart [] List.nil_prefix) (by decide)
    have hcounts := count_add_openBehind hc cs
    rw [List.cons_append, closing?_cons hc, ih, Option.map_map,
      show openBehind depth c + cs.count '(' - cs.count ')' =
        depth + (c :: cs).count '(' - (c :: cs).count ')' by omega]
    · rfl
    · intro before hbefore
      have := hstart before hbefore
      have := count_add_openBehind hc before
      omega

/-- Where the search ends, as many parentheses have been closed as the text has opened, and `depth`
more. -/
theorem counts_of_closing? (h : closing? depth (cs ++ ')' :: rest) = some (cs, rest)) :
    (∀ before, before <+: cs → before.count ')' ≤ before.count '(' + depth) ∧
      cs.count ')' = cs.count '(' + depth := by
  induction cs generalizing depth with
  | nil =>
    -- at a greater depth the search would have gone on behind the parenthesis
    obtain rfl : depth = 0 := by
      by_contra hdepth
      rw [List.nil_append, closing?_cons fun _ => hdepth, Option.map_eq_some_iff] at h
      obtain ⟨r, -, heq⟩ := h
      cases heq
    refine ⟨fun before hbefore => ?_, rfl⟩
    rw [List.prefix_nil.mp hbefore]
    exact Nat.le_refl _
  | cons c cs ih =>
    have hc : c = ')' → depth ≠ 0 := by
      rintro rfl rfl
      cases h
    rw [List.cons_append, closing?_cons hc, Option.map_eq_some_iff] at h
    obtain ⟨⟨inner, after⟩, hr, heq⟩ := h
    obtain ⟨hinner, hafter⟩ := Prod.mk.inj heq
    obtain rfl : inner = _ := (List.cons.inj hinner).2
    obtain rfl : after = _ := hafter
    obtain ⟨hstart, hall⟩ := ih hr
    have hcounts := count_add_openBehind hc inner
    refine ⟨fun before hbefore => ?_, by omega⟩
    rcases List.prefix_cons_iff.mp hbefore with rfl | ⟨before, rfl, hinside⟩
    · exact Nat.zero_le _
    · have := hstart before hinside
      have := count_add_openBehind hc before
      omega

/-- The search passes over a text just if its parentheses are in pairs. -/
theorem balanced_iff_paired : Balanced cs ↔ Paired cs := by
  constructor
  · intro h
    have hcounts := counts_of_closing? (h.closing?_zero [])
    exact ⟨hcounts.1, hcounts.2⟩
  · intro h depth rest
    rw [closing?_append (fun before hbefore => (h.opened before hbefore).trans (Nat.le_add_right _ _)),
      h.closed, Nat.add_sub_cancel]

namespace Written

/-! ## What negations enclose -/

mutual

/-- What stands between the parentheses of the negations in a part, at whatever depth. -/
def Part.enclosed : Part → List (List Char)
  | .negation before c after => inside before c after :: c.enclosed
  | .id _ | .cls _ | .test _ => []

/-- What stands between the parentheses of the negations in a compound. -/
def Compound.enclosed : Compound → List (List Char)
  | .typed _ parts => enclosedAll parts
  | .untyped first rest => first.enclosed ++ enclosedAll rest

/-- What stands between the parentheses of the negations in several parts. -/
def enclosedAll : List Part → List (List Char)
  | [] => []
  | p :: ps => p.enclosed ++ enclosedAll ps

end

theorem enclosedAll_eq_flatMap (ps : List Part) : enclosedAll ps = ps.flatMap Part.enclosed := by
  induction ps with
  | nil => rfl
  | cons p ps ih => rw [enclosedAll, ih, List.flatMap_cons]

theorem Compound.enclosed_eq (c : Compound) : c.enclosed = c.parts.flatMap Part.enclosed := by
  cases c with
  | typed lead parts => exact enclosedAll_eq_flatMap parts
  | untyped first rest => exact congrArg (first.enclosed ++ ·) (enclosedAll_eq_flatMap rest)

theorem Compound.mem_enclosed {c : Compound} {cs : List Char} :
    cs ∈ c.enclosed ↔ ∃ p ∈ c.parts, cs ∈ p.enclosed := by
  rw [c.enclosed_eq, List.mem_flatMap]

/-- What the negations of a selector enclose, at whatever depth. -/
def enclosed (w : Written) : List (List Char) :=
  (w.first :: w.rest).flatMap fun a => a.compounds.flatMap Compound.enclosed

theorem mem_enclosed {w : Written} {cs : List Char} :
    cs ∈ w.enclosed ↔ ∃ a ∈ w.first :: w.rest, ∃ c ∈ a.compounds, ∃ p ∈ c.parts, cs ∈ p.enclosed := by
  simp only [enclosed, List.mem_flatMap, Compound.mem_enclosed]

/-- The values in quotes in the negation that a part is. -/
def Part.quotedInside : Part → List (List Char)
  | .negation _ c _ => c.quoted
  | .id _ | .cls _ | .test _ => []

/-- Values inside of a negation are among all values. -/
theorem Part.mem_quoted_of_mem_quotedInside {p : Part} {v : List Char} (h : v ∈ p.quotedInside) :
    v ∈ p.quoted := by
  cases p with
  | id name | cls name | test a => cases h
  | negation before c after => exact h

/-- The values in quotes in the negations of a selector. -/
def quotedInside (w : Written) : List (List Char) :=
  (w.first :: w.rest).flatMap fun a => a.compounds.flatMap fun c => c.parts.flatMap Part.quotedInside

theorem mem_quotedInside {w : Written} {v : List Char} :
    v ∈ w.quotedInside ↔
      ∃ a ∈ w.first :: w.rest, ∃ c ∈ a.compounds, ∃ p ∈ c.parts, v ∈ p.quotedInside := by
  simp only [quotedInside, List.mem_flatMap]

/-- Texts behind each of which the search for the end of a negation goes on as it was before. -/
abbrev AllBalanced (texts : List (List Char)) : Prop := ∀ cs ∈ texts, Balanced cs

theorem Part.balanced_enclosed (p : Part) (h : AllBalanced p.quotedInside) :
    AllBalanced p.enclosed := by
  induction p with
  | id name | cls name | test a => exact List.forall_mem_nil _
  | negation before c after ih =>
    intro cs hcs
    rcases List.mem_cons.mp hcs with rfl | hcs
    · exact balanced_inside before after h
    · obtain ⟨p, hp, hcs⟩ := Compound.mem_enclosed.mp hcs
      refine ih p hp (fun v hv => h v ?_) cs hcs
      exact Compound.mem_quoted hp (Part.mem_quoted_of_mem_quotedInside hv)

/-- What negations enclose is balanced if the values in quotes are that stand in there. -/
theorem balanced_enclosed {w : Written} (h : AllBalanced w.quotedInside) :
    AllBalanced w.enclosed := by
  intro cs hcs
  obtain ⟨a, ha, c, hc, p, hp, hcs⟩ := mem_enclosed.mp hcs
  exact p.balanced_enclosed (fun v hv => h v (mem_quotedInside.mpr ⟨a, ha, c, hc, p, hp, hv⟩)) cs hcs

theorem Plain.balanced_quotedInside {w : Written} (h : Plain w.quoted) :
    AllBalanced w.quotedInside := by
  intro v hv
  obtain ⟨a, ha, c, hc, p, hp, hv⟩ := mem_quotedInside.mp hv
  have hquoted : v ∈ c.quoted := Compound.mem_quoted hp (Part.mem_quoted_of_mem_quotedInside hv)
  have hplain := h v (List.mem_flatMap.mpr ⟨a, ha, List.mem_flatMap.mpr ⟨c, hc, hquoted⟩⟩)
  exact balanced_of_forall fun _ hc => ⟨fun heq => hplain.1 (heq ▸ hc), fun heq => hplain.2 (heq ▸ hc)⟩

end Written

end ContentGrammar.Selector
