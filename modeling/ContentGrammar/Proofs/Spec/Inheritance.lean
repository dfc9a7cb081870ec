import ContentGrammar.Proofs.Document.Numbering
import ContentGrammar.Proofs.Model.Language
import ContentGrammar.Spec.Inheritance

/-!
# Inherited patterns without a memo

The pattern of a model on a place is worked out by going up through the elements around it, and so
is the language of the model. A memo holds nothing but such patterns (`Memo.Valid`), so looking
patterns up in it changes nothing: `patternFor_spec` and `compileAt_spec`. A pattern accepts the
language of its model (`run?_patternOf_isSome_iff`).
-/

namespace ContentGrammar

namespace Spec

/-- The pattern of a model with `above` around it. A model that inherits is compiled with the
pattern of the nearest element around it. -/
def patternOf (s : Spec) (m : Model) : List Head → Except ModelError Pattern
  | [] => m.compile s.categories none
  | e :: around =>
    if m.inherits then
      match s.patternOf (s.modelOf e around) around with
      | .ok p => m.compile s.categories (some p)
      | .error err => .error err
    else m.compile s.categories none

/-- The pattern of the model that applies to a place. -/
def patternAt (s : Spec) (p : Place) : Except ModelError Pattern :=
  s.patternOf (s.modelOf p.node.head p.above) p.above

/-- The rows of names that a model permits with `above` around it: where it is transparent, those
that the model of the nearest element around it permits. -/
def languageOf (s : Spec) (m : Model) : List Head → Language String
  | [] => m.language s.categories 0
  | e :: around => m.language s.categories (s.languageOf (s.modelOf e around) around)

end Spec

/-- A memo of patterns of places of a document. -/
def Memo.Valid (s : Spec) (d : Document) (memo : Memo) : Prop :=
  ∀ (id : Nat) (q : Pattern), memo[id]? = some q →
    ∃ p ∈ d.places, p.node.id = id ∧ s.patternAt p = .ok q

namespace Spec

variable {s : Spec} {d : Document} {memo : Memo} {m : Model} {p : Place} {e h : Head}
  {above around : List Head} {q : Pattern} {parent : Option Pattern}

/-! ## Languages -/

theorem patternOf_of_not_inherits (hm : m.inherits = false) :
    s.patternOf m above = m.compile s.categories none := by
  cases above with
  | nil => rfl
  | cons e around => rw [patternOf, hm, if_neg Bool.false_ne_true]

theorem language_patternOf (hq : s.patternOf m above = .ok q) :
    q.language = s.languageOf m above := by
  -- on the elements around, from the outermost one on
  induction above generalizing m q with
  | nil => exact Model.language_compile hq
  | cons e around ih =>
    rw [languageOf]
    cases hm : m.inherits with
    | false =>
      rw [patternOf_of_not_inherits hm] at hq
      rw [Model.language_compile hq]
      exact Model.language_congr hm _ _
    | true =>
      rw [patternOf, hm, if_pos rfl] at hq
      cases hp : s.patternOf (s.modelOf e around) around with
      | error err =>
        rw [hp] at hq
        cases hq
      | ok p =>
        rw [hp] at hq
        rw [Model.language_compile hq, ← ih hp, ← Pattern.accepted_eq_language]
        rfl

/-- The pattern of a model accepts the rows that the model permits at its place. -/
theorem run?_patternOf_isSome_iff (hq : s.patternOf m above = .ok q) {ts : List Token} :
    (q.run? ts).isSome ↔ ts.map Token.name ∈ s.languageOf m above := by
  rw [Pattern.run?_isSome_iff_mem_language, language_patternOf hq]

/-! ## The memo -/

theorem valid_empty : Memo.Valid s d ∅ := by
  intro id q hq
  rw [Std.HashMap.getElem?_empty] at hq
  cases hq

theorem valid_insert (hm : Memo.Valid s d memo) (hp : p ∈ d.places)
    (hq : s.patternAt p = .ok q) : Memo.Valid s d (memo.insert p.node.id q) := by
  intro id q' hq'
  rw [Std.HashMap.getElem?_insert] at hq'
  split at hq'
  · rename_i heq
    obtain rfl := Option.some.inj hq'
    exact ⟨p, hp, beq_iff_eq.mp heq, hq⟩
  · exact hm id q' hq'

/-- Numbers stand for single places, so what the memo has under the number of a place is the
pattern of that place. -/
theorem patternAt_of_memo (hd : d.Numbered) (hm : Memo.Valid s d memo) (hp : p ∈ d.places)
    (hq : memo[p.node.id]? = some q) : s.patternAt p = .ok q := by
  obtain ⟨p', hp', hid, hq'⟩ := hm _ _ hq
  rwa [hd.eq_of_id hp' hp hid] at hq'

theorem remember_spec (hm : Memo.Valid s d memo) (hp : p ∈ d.places)
    (hq : m.compile s.categories parent = s.patternAt p) :
    (s.remember p.node.id m parent memo).1 = s.patternAt p ∧
      Memo.Valid s d (s.remember p.node.id m parent memo).2 := by
  rw [remember, hq]
  cases hr : s.patternAt p with
  | error err => exact ⟨rfl, hm⟩
  | ok q => exact ⟨rfl, valid_insert hm hp hr⟩

theorem patternFor_hit (hq : memo[h.id]? = some q) :
    s.patternFor memo h above = (.ok q, memo) := by
  rw [patternFor.eq_def, hq]

theorem patternFor_alone (hn : memo[h.id]? = none)
    (hm : (s.modelOf h above).inherits = false ∨ above = []) :
    s.patternFor memo h above = s.remember h.id (s.modelOf h above) none memo := by
  rw [patternFor.eq_def, hn]
  dsimp only
  rcases hm with hm | rfl
  · rw [hm, if_neg Bool.false_ne_true]
  · split <;> rfl

theorem patternFor_inheriting (hn : memo[h.id]? = none)
    (hm : (s.modelOf h (e :: around)).inherits = true) :
    s.patternFor memo h (e :: around) =
      match s.patternFor memo e around with
      | (.ok p, memo) => s.remember h.id (s.modelOf h (e :: around)) (some p) memo
      | (.error err, memo) => (.error err, memo) := by
  rw [patternFor.eq_def, hn]
  exact if_pos hm

/-- Looking the pattern of a place up, or working it out with what the memo has, gives the pattern
of the place, and a memo that holds nothing else. -/
theorem patternFor_spec (hd : d.Numbered) (hm : Memo.Valid s d memo) (hp : p ∈ d.places) :
    (s.patternFor memo p.node.head p.above).1 = s.patternAt p ∧
      Memo.Valid s d (s.patternFor memo p.node.head p.above).2 := by
  induction hab : p.above generalizing p memo with
  | nil =>
    cases hn : memo[p.node.id]? with
    | some q => exact patternFor_hit hn ▸ ⟨(patternAt_of_memo hd hm hp hn).symm, hm⟩
    | none =>
      rw [patternFor_alone hn (.inr rfl)]
      refine remember_spec hm hp ?_
      rw [patternAt, hab, patternOf]
  | cons e around ih =>
    cases hn : memo[p.node.id]? with
    | some q => exact patternFor_hit hn ▸ ⟨(patternAt_of_memo hd hm hp hn).symm, hm⟩
    | none =>
      cases hi : (s.modelOf p.node.head (e :: around)).inherits with
      | false =>
        rw [patternFor_alone hn (.inl hi)]
        refine remember_spec hm hp ?_
        rw [patternAt, hab, patternOf_of_not_inherits hi]
      | true =>
        -- the nearest element around `p` is a place of its own
        obtain ⟨p', hp', -, rfl, habove⟩ := Document.exists_place_of_above hp hab
        obtain ⟨hresult, hvalid⟩ := ih hm hp' habove
        have hat : s.patternAt p = match s.patternAt p' with
            | .ok q => (s.modelOf p.node.head (p'.node.head :: around)).compile s.categories (some q)
            | .error err => .error err := by
          rw [patternAt, hab, patternOf, if_pos hi, patternAt, habove]
        rw [patternFor_inheriting hn hi]
        rw [← hresult] at hat
        cases hr : s.patternFor memo p'.node.head around with
        | mk result memo' =>
          rw [hr] at hat hvalid
          cases result with
          | error err => exact ⟨hat.symm, hvalid⟩
          | ok q => exact remember_spec hvalid hp hat.symm

/-- Compiling a model on a place gives its pattern there, and a memo that holds nothing but patterns
of places. -/
theorem compileAt_spec (hd : d.Numbered) (hm : Memo.Valid s d memo) (hp : p ∈ d.places)
    (m : Model) : (s.compileAt memo m p.above).1 = s.patternOf m p.above ∧
      Memo.Valid s d (s.compileAt memo m p.above).2 := by
  cases hi : m.inherits with
  | false =>
    rw [compileAt.eq_def, hi, if_neg Bool.false_ne_true, patternOf_of_not_inherits hi]
    exact ⟨rfl, hm⟩
  | true =>
    rw [compileAt.eq_def, hi, if_pos rfl]
    cases hab : p.above with
    | nil => exact ⟨rfl, hm⟩
    | cons e around =>
      obtain ⟨p', hp', -, rfl, rfl⟩ := Document.exists_place_of_above hp hab
      obtain ⟨hresult, hvalid⟩ := patternFor_spec hd hm hp'
      rw [patternOf, if_pos hi, ← patternAt, ← hresult]
      dsimp only
      cases hr : s.patternFor memo p'.node.head p'.above with
      | mk result memo' =>
        rw [hr] at hvalid
        cases result with
        | error err => exact ⟨rfl, hvalid⟩
        | ok q => exact ⟨rfl, hvalid⟩

end Spec

end ContentGrammar
