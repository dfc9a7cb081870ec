import ContentGrammar.Proofs.Selector.Reading

/-!
# Values in quotes

The values in quotes of a written selector are what stands between quotes in its text
(`quotesFrom_text`). Whether they have parentheses in them can be seen from the meaning of the
selector too, since values without quotes have none (`Plain.of_meaning`).
-/

namespace ContentGrammar.Selector

namespace Written

/-! ## In the text -/

/-- The stretches between quotes in a text, from inside quotes, of which the text so far is given
with its latest character first, or from outside. -/
def quotesFrom : Option (Char × List Char) → List Char → List (List Char)
  | _, [] => []
  | none, c :: cs =>
    if c = '"' ∨ c = '\'' then quotesFrom (some (c, [])) cs else quotesFrom none cs
  | some (q, run), c :: cs =>
    if c = q then run.reverse :: quotesFrom none cs else quotesFrom (some (q, c :: run)) cs

/-- A text that has its quotes closed, with what stands between them. -/
def Yields (cs : List Char) (values : List (List Char)) : Prop := ∀ rest,
  quotesFrom none (cs ++ rest) = values ++ quotesFrom none rest

theorem yields_nil : Yields [] [] := fun _ => rfl

/-- The quotes of texts one behind the other do not mix. -/
theorem Yields.append {xs ys : List Char} {vs ws : List (List Char)} (hxs : Yields xs vs)
    (hys : Yields ys ws) : Yields (xs ++ ys) (vs ++ ws) := by
  intro rest
  rw [List.append_assoc, hxs, hys, List.append_assoc]

theorem yields_of_forall {cs : List Char} (h : ∀ c ∈ cs, c ≠ '"' ∧ c ≠ '\'') : Yields cs [] := by
  induction cs with
  | nil => exact yields_nil
  | cons c cs ih =>
    obtain ⟨hdouble, hsingle⟩ := h c List.mem_cons_self
    intro rest
    rw [List.cons_append, quotesFrom, if_neg (not_or.mpr ⟨hdouble, hsingle⟩)]
    exact ih (fun d hd => h d (List.mem_cons_of_mem _ hd)) rest

theorem passes_yields : Passes (Yields · []) := by
  refine ⟨fun hxs hys => hxs.append hys, fun h => yields_of_forall fun c hc => ?_⟩
  have hmark := h c hc
  constructor <;> rintro rfl <;> cases hmark

/-- What stands in quotes is a stretch, whatever it is. -/
theorem yields_quoted {q : Char} {content : List Char} (hq : q = '"' ∨ q = '\'')
    (h : q ∉ content) : Yields (q :: (content ++ [q])) [content] := by
  have hrun : ∀ (run rest : List Char), quotesFrom (some (q, run)) (content ++ q :: rest) =
      (run.reverse ++ content) :: quotesFrom none rest := by
    intro run rest
    induction content generalizing run with
    | nil => rw [List.nil_append, quotesFrom, if_pos rfl, List.append_nil]
    | cons c cs ih =>
      rw [List.mem_cons, not_or] at h
      rw [List.cons_append, quotesFrom, if_neg (Ne.symm h.1), ih h.2, List.reverse_cons,
        List.append_assoc, List.singleton_append]
  intro rest
  rw [List.cons_append, List.append_assoc, quotesFrom, if_pos hq]
  exact hrun [] rest

theorem Value.yields_text (v : Value) : Yields v.text v.quoted?.toList := by
  cases v with
  | double content h => exact yields_quoted (.inl rfl) h
  | single content h => exact yields_quoted (.inr rfl) h
  | bare word => exact passes_yields.name word.isAttributeChar_text

theorem Attribute.yields_text (a : Attribute) : Yields a.text a.quoted?.toList := by
  have hvalue : Yields (valueText a.value?) a.quoted?.toList := by
    rw [quoted?]
    cases a.value? with
    | none => exact yields_nil
    | some v =>
      obtain ⟨before, v, after⟩ := v
      have hequals : Yields ['='] [] := passes_yields.unmarked (by simp [isMark])
      have hv := v.yields_text.append (passes_yields.blanks after)
      rw [List.append_nil] at hv
      exact hequals.append ((passes_yields.blanks before).append hv)
  have hopening : Yields ['['] [] := yields_of_forall (by simp)
  have hclosing : Yields [']'] [] := yields_of_forall (by simp)
  have hname := passes_yields.name (isAttributeChar_attribute a.name)
  have hafter := (passes_yields.blanks a.after).append (hvalue.append hclosing)
  rw [List.nil_append, List.append_nil] at hafter
  exact hopening.append ((passes_yields.blanks a.before).append (hname.append hafter))

theorem yields_partsText {ps : List Part} (h : ∀ p ∈ ps, Yields p.text p.quoted) :
    Yields (partsText ps) (quotedAll ps) := by
  induction ps with
  | nil => exact yields_nil
  | cons p ps ih =>
    exact (h p List.mem_cons_self).append (ih fun q hq => h q (List.mem_cons_of_mem _ hq))

theorem Compound.yields_of {c : Compound} (h : ∀ p ∈ c.parts, Yields p.text p.quoted) :
    Yields c.text c.quoted := by
  cases c with
  | typed lead parts =>
    have hlead : Yields lead.text [] := by
      cases lead with
      | universal => exact yields_of_forall (by simp [Lead.text])
      | type name => exact passes_yields.name (isAttributeChar_type name)
    exact hlead.append (yields_partsText h)
  | untyped first rest => exact yields_partsText h

/-- The stretches of a part are its values in quotes. -/
theorem Part.yields_text (p : Part) : Yields p.text p.quoted := by
  induction p with
  | id name | cls name =>
    exact passes_yields.cons (by decide) (passes_yields.name name.isAttributeChar_text)
  | test a => exact a.yields_text
  | negation before c after ih =>
    have hopening : Yields [':', 'n', 'o', 't', '('] [] := yields_of_forall (by simp)
    have hclosing : Yields (after.1 ++ [')']) [] :=
      (passes_yields.blanks after).append (yields_of_forall (by simp))
    have hinside := (Compound.yields_of ih).append hclosing
    rw [List.append_nil] at hinside
    exact hopening.append ((passes_yields.blanks before).append hinside)

theorem Compound.yields_text (c : Compound) : Yields c.text c.quoted :=
  Compound.yields_of fun p _ => p.yields_text

theorem Joint.yields_text (j : Joint) : Yields j.text [] := by
  cases j with
  | child before after =>
    have hchild : Yields ['>'] [] := yields_of_forall (by simp)
    exact (passes_yields.blanks before).append (hchild.append (passes_yields.blanks after))
  | descendant gap _ => exact passes_yields.blanks gap

/-- The stretches of an alternative are those of its compounds. -/
theorem Complex.yields_text (w : Complex) :
    Yields w.text (w.compounds.flatMap Compound.quoted) := by
  have hsteps : ∀ steps : List (Joint × Compound),
      Yields (restText steps) ((steps.map (·.2)).flatMap Compound.quoted) := by
    intro steps
    induction steps with
    | nil => exact yields_nil
    | cons step steps ih =>
      obtain ⟨j, c⟩ := step
      rw [restText_cons]
      exact j.yields_text.append (c.yields_text.append ih)
  have hcore := (passes_yields.blanks w.before).append (w.first.yields_text.append (hsteps w.rest))
  have hall := hcore.append (passes_yields.blanks w.after)
  rwa [List.append_nil] at hall

/-- The values in quotes are what stands between quotes in the text. -/
theorem quotesFrom_text (w : Written) : quotesFrom none w.text = w.quoted := by
  have hrest : ∀ others : List Complex, Yields (others.flatMap fun a => ',' :: a.text)
      (others.flatMap fun a => a.compounds.flatMap Compound.quoted) := by
    intro others
    induction others with
    | nil => exact yields_nil
    | cons a others ih =>
      have hcomma : Yields [','] [] := yields_of_forall (by simp)
      exact (hcomma.append a.yields_text).append ih
  have htext := (w.first.yields_text.append (hrest w.rest)) []
  rw [List.append_nil] at htext
  rw [text, htext, quoted, List.flatMap_cons]
  exact List.append_nil _

/-! ## In the meaning -/

mutual

/-- The values that a compound asks attributes to have or not to have. -/
def valuesOf : Selector.Compound → List (List Char)
  | ⟨_, _, _, attributes, negations⟩ =>
    attributes.filterMap (fun t => t.value.map String.toList) ++ valuesOfAll negations

/-- The values that several compounds ask for. -/
def valuesOfAll : List Selector.Compound → List (List Char)
  | [] => []
  | c :: cs => valuesOf c ++ valuesOfAll cs

end

variable {c : Selector.Compound} {p : Part}

theorem valuesOf_eq (c : Selector.Compound) : valuesOf c =
    c.attributes.filterMap (fun t => t.value.map String.toList) ++ valuesOfAll c.negations := by
  obtain ⟨tag, ids, classes, attributes, negations⟩ := c
  rw [valuesOf]

theorem valuesOfAll_append (cs ds : List Selector.Compound) :
    valuesOfAll (cs ++ ds) = valuesOfAll cs ++ valuesOfAll ds := by
  induction cs with
  | nil => rfl
  | cons c cs ih => rw [List.cons_append, valuesOfAll, valuesOfAll, ih, List.append_assoc]

theorem plain_append {vs ws : List (List Char)} : Plain (vs ++ ws) ↔ Plain vs ∧ Plain ws :=
  List.forall_mem_append

/-- A value without quotes has no parentheses anyway. -/
theorem plain_test (a : Attribute) :
    Plain ([a.test].filterMap fun t => t.value.map String.toList) ↔ Plain a.quoted?.toList := by
  obtain ⟨before, name, after, value⟩ := a
  cases value with
  | none => simp [Attribute.test, Attribute.quoted?]
  | some v =>
    obtain ⟨before, v, after⟩ := v
    cases v with
    | double content h | single content h =>
      simp [Attribute.test, Attribute.quoted?, Value.content, Value.quoted?]
    | bare word =>
      have hplain : ∀ c ∈ word.text, c ≠ '(' ∧ c ≠ ')' := by
        intro c hc
        have hmark := isMark_of_isAttributeChar (word.isAttributeChar_text c hc)
        constructor <;> rintro rfl <;> cases hmark
      have hopening : '(' ∉ word.text := fun hc => (hplain _ hc).1 rfl
      have hclosing : ')' ∉ word.text := fun hc => (hplain _ hc).2 rfl
      simp [Attribute.test, Attribute.quoted?, Value.content, Value.quoted?, Plain, hopening,
        hclosing]

/-- A part adds its values to the meaning, so it adds the parentheses in them. -/
theorem plain_grown_iff (h : ∀ before w after, p = .negation before w after →
      (Plain (valuesOf w.meaning) ↔ Plain w.quoted)) :
    Plain (valuesOf (grown c [p])) ↔ Plain (valuesOf c) ∧ Plain p.quoted := by
  have hnil : Plain [] := List.forall_mem_nil _
  cases p with
  | id name | cls name =>
    rw [grown_simple rfl, valuesOf_eq, valuesOf_eq]
    exact (and_iff_left hnil).symm
  | test a =>
    rw [grown_simple rfl, valuesOf_eq, valuesOf_eq, Selector.Compound.add, List.filterMap_append,
      plain_append, plain_append, plain_append, plain_test, Part.quoted]
    exact and_right_comm
  | negation before w after =>
    rw [grown_negation, valuesOf_eq, valuesOf_eq, valuesOfAll_append, valuesOfAll, valuesOfAll,
      List.append_nil, ← List.append_assoc, plain_append, h before w after rfl, Part.quoted]

theorem plain_meaning_of (w : Compound) (h : ∀ p ∈ w.parts, ∀ c,
      (Plain (valuesOf (grown c [p])) ↔ Plain (valuesOf c) ∧ Plain p.quoted)) :
    Plain (valuesOf w.meaning) ↔ Plain w.quoted := by
  have hparts : ∀ {ps : List Part} (c : Selector.Compound), (∀ p ∈ ps, ∀ c,
      (Plain (valuesOf (grown c [p])) ↔ Plain (valuesOf c) ∧ Plain p.quoted)) →
      (Plain (valuesOf (grown c ps)) ↔ Plain (valuesOf c) ∧ Plain (ps.flatMap Part.quoted)) := by
    intro ps c hps
    induction ps generalizing c with
    | nil =>
      rw [grown_nil]
      exact (and_iff_left (List.forall_mem_nil _)).symm
    | cons p ps ih =>
      rw [grown_cons, ih _ (fun q hq => hps q (List.mem_cons_of_mem _ hq)),
        hps p List.mem_cons_self, List.flatMap_cons, plain_append, and_assoc]
  rw [w.meaning_eq, w.quoted_eq, hparts _ h, valuesOf_eq]
  exact and_iff_right (List.forall_mem_nil _)

/-- The values in the meaning of a part have no parentheses if those in quotes in the part have
none. -/
theorem Part.plain_iff (p : Part) (c : Selector.Compound) :
    Plain (valuesOf (grown c [p])) ↔ Plain (valuesOf c) ∧ Plain p.quoted := by
  induction p generalizing c with
  | id name => exact plain_grown_iff nofun
  | cls name => exact plain_grown_iff nofun
  | test a => exact plain_grown_iff nofun
  | negation before w after ih =>
    refine plain_grown_iff fun before' w' after' heq => ?_
    obtain ⟨-, rfl, -⟩ := Part.negation.inj heq
    exact plain_meaning_of w ih

theorem Compound.plain_iff (w : Compound) : Plain (valuesOf w.meaning) ↔ Plain w.quoted :=
  plain_meaning_of w fun p _ => p.plain_iff

/-- The compounds of an alternative, from the inside out. -/
def compoundsOf (s : Selector.Complex) : List Selector.Compound :=
  s.subject :: s.context.map (·.2)

/-- Further compounds stand in front of those that were there. -/
theorem compoundsOf_extended (s : Selector.Complex) (steps : List (Joint × Compound)) :
    compoundsOf (extended s steps) =
      (steps.map fun step => step.2.meaning).reverse ++ compoundsOf s := by
  induction steps generalizing s with
  | nil => rfl
  | cons step steps ih =>
    rw [extended, List.foldl_cons, ← extended, ih, List.map_cons, List.reverse_cons,
      List.append_assoc]
    rfl

theorem Complex.compoundsOf_meaning (w : Complex) :
    compoundsOf w.meaning = (w.compounds.map Compound.meaning).reverse := by
  rw [meaning, compoundsOf_extended, compounds, List.map_cons, List.reverse_cons, List.map_map]
  rfl

/-- Whether there are parentheses in quotes depends on the meaning alone. -/
theorem Plain.of_meaning {w w' : Written} (h : Plain w.quoted) (hw : w'.meaning = w.meaning) :
    Plain w'.quoted := by
  intro v hv
  obtain ⟨a', ha', hv⟩ := List.mem_flatMap.mp hv
  obtain ⟨c', hc', hv⟩ := List.mem_flatMap.mp hv
  -- there is an alternative, and a compound in it, that means the same
  obtain ⟨a, ha, hmeaning⟩ : ∃ a ∈ w.first :: w.rest, a.meaning = a'.meaning := by
    have hmem : a'.meaning ∈ w'.meaning := List.mem_map_of_mem ha'
    rw [hw] at hmem
    exact List.mem_map.mp hmem
  obtain ⟨c, hc, hcompound⟩ : ∃ c ∈ a.compounds, c.meaning = c'.meaning := by
    have hmem : c'.meaning ∈ compoundsOf a'.meaning := by
      rw [a'.compoundsOf_meaning, List.mem_reverse]
      exact List.mem_map_of_mem hc'
    rw [← hmeaning, a.compoundsOf_meaning, List.mem_reverse] at hmem
    exact List.mem_map.mp hmem
  have hplain : Plain c.quoted := fun v hv =>
    h v (List.mem_flatMap.mpr ⟨a, ha, List.mem_flatMap.mpr ⟨c, hc, hv⟩⟩)
  rw [← c.plain_iff, hcompound, c'.plain_iff] at hplain
  exact hplain v hv

end Written

end ContentGrammar.Selector
