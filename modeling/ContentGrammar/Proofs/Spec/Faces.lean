import ContentGrammar.Proofs.Document.Likeness
import ContentGrammar.Proofs.Spec.Inheritance

/-!
# A spec sees faces

Selectors ask for the names and attributes of an element and of the elements around it, and for
nothing else: neither for numbers and positions nor for what stands beside these elements. So do the
conditions of variants. Hence elements that resemble each other, with elements around them that do so,
have the same model (`modelOf_congr`), and a model has the same pattern there (`patternOf_congr`).
-/

namespace ContentGrammar

variable {h h' : Head} {above above' : List Head}

theorem Head.hasAttribute_congr (hh : h.Resembles h') (name : String) :
    h.hasAttribute name = h'.hasAttribute name := by
  rw [hasAttribute, hasAttribute, hh.attribute?]

namespace Selector

theorem AttributeTest.holds_congr (hh : h.Resembles h') (t : AttributeTest) :
    t.holds h = t.holds h' := by
  rw [holds, holds, hh.attribute?, Head.hasAttribute_congr hh]

mutual

theorem Compound.fits_congr (hh : h.Resembles h') : (c : Compound) → c.fits h = c.fits h'
  | ⟨tag, ids, classes, attributes, negations⟩ => by
    rw [fits, fits, hh.name, anyFits_congr hh negations]
    simp only [hh.attribute?, AttributeTest.holds_congr hh]

theorem Compound.anyFits_congr (hh : h.Resembles h') :
    (cs : List Compound) → anyFits cs h = anyFits cs h'
  | [] => rfl
  | c :: cs => by rw [anyFits, anyFits, fits_congr hh c, anyFits_congr hh cs]

end

theorem contextFits_congr (habove : Resembling above above')
    (context : List (Combinator × Compound)) :
    contextFits context above = contextFits context above' := by
  induction context generalizing above above' with
  | nil => rfl
  | cons step rest ih =>
    obtain ⟨combinator, c⟩ := step
    cases combinator with
    | child =>
      cases habove with
      | nil => rfl
      | cons hh haround => rw [contextFits, contextFits, c.fits_congr hh, ih haround]
    | descendant =>
      rw [contextFits, contextFits]
      -- any of the elements around may be the one that is meant
      induction habove with
      | nil => rfl
      | cons hh haround ihaway =>
        rw [outward, outward, List.any_cons, List.any_cons, ihaway]
        dsimp only
        rw [c.fits_congr hh, ih haround]

theorem Complex.fits_congr (hh : h.Resembles h') (habove : Resembling above above')
    (c : Complex) : c.fits h above = c.fits h' above' := by
  rw [fits, fits, c.subject.fits_congr hh, contextFits_congr habove]

theorem selectsElement_congr (hh : h.Resembles h') (habove : Resembling above above')
    (s : Selector) : s.selectsElement h above = s.selectsElement h' above' := by
  rw [selectsElement, selectsElement]
  congr 1
  exact funext (Complex.fits_congr hh habove)

end Selector

theorem Condition.holds_congr (hh : h.Resembles h') (habove : Resembling above above')
    (c : Condition) : c.holds h above = c.holds h' above' := by
  cases c with
  | hasAttribute name => exact Head.hasAttribute_congr hh name
  | parent s =>
    cases habove with
    | nil => rfl
    | cons hparent haround => exact Selector.selectsElement_congr hparent haround s

theorem TagSpec.activeModel_congr (hh : h.Resembles h') (habove : Resembling above above')
    (t : TagSpec) : t.activeModel h above = t.activeModel h' above' := by
  simp only [activeModel, Condition.holds_congr hh habove]

namespace Spec

theorem modelOf_congr (hh : h.Resembles h') (habove : Resembling above above') (s : Spec) :
    s.modelOf h above = s.modelOf h' above' := by
  simp only [modelOf, hh.name, TagSpec.activeModel_congr hh habove]

/-- The pattern of a model depends on the faces of the elements around alone. -/
theorem patternOf_congr (habove : Resembling above above') (s : Spec) (m : Model) :
    s.patternOf m above = s.patternOf m above' := by
  induction habove generalizing m with
  | nil => rfl
  | cons hh haround ih => rw [patternOf, patternOf, modelOf_congr hh haround, ih]

end Spec

end ContentGrammar
