import ContentGrammar.Model.Author
import ContentGrammar.Proofs.Text.Ascii

/-!
# The letter case of names in contents

Contents with the names of tags written in small letters mean the same model (`Contents.model_lowered`).
Names of categories and reserved names stay as they are written, and so does what is to be ignored, since
selectors may test for values of attributes.
-/

namespace ContentGrammar

/-- Whether a name is that of a tag: neither reserved nor that of a category. -/
def isTagName (name : String) : Bool :=
  name != textName && name != transparentName && !isCategoryName name

/-- A name in contents, in small letters if it is that of a tag. -/
def loweredName (raw : String) : String :=
  if isTagName (trimmed raw) then Ascii.lower raw else raw

/-- Names in contents, those of tags in small letters. -/
def Names.lowered : Names → Names
  | .one name => .one (loweredName name)
  | .many names => .many (names.map loweredName)

mutual

/-- An item with the names of tags in small letters, but with what is to be ignored as it is written. -/
def Item.lowered : Item → Item
  | .require what min max ignore => .require what.lowered min max ignore
  | .optional what ignore => .optional what.lowered ignore
  | .repeatNames quantity what max ignore => .repeatNames quantity what.lowered max ignore
  | .repeatItems quantity what max ignore => .repeatItems quantity (loweredItems what) max ignore
  | .choice alternatives => .choice (loweredAlternatives alternatives)

/-- Items with the names of tags in small letters. -/
def loweredItems : List Item → List Item
  | [] => []
  | i :: is => i.lowered :: loweredItems is

/-- Lists of items with the names of tags in small letters. -/
def loweredAlternatives : List (List Item) → List (List Item)
  | [] => []
  | is :: rest => loweredItems is :: loweredAlternatives rest

end

/-- Contents with the names of tags in small letters. -/
def Contents.lowered : Contents → Contents
  | .flag anything => .flag anything
  | .items is => .items (loweredItems is)

/-! ## Names of tags -/

/-- Whether characters are `#` and then letters, digits and hyphens. -/
def isMarked : List Char → Bool
  | '#' :: rest => !rest.isEmpty && rest.all fun c => c.isAlphanum || c == '-'
  | _ => false

theorem isMarked_eq_false {cs : List Char} (h : ∀ rest, cs ≠ '#' :: rest) : isMarked cs = false := by
  unfold isMarked
  split
  · rename_i rest
    exact absurd rfl (h rest)
  · rfl

theorem isTagName_eq (name : String) : isTagName name = !isMarked name.toList := by
  have hcategory : isCategoryName name =
      (isMarked name.toList && name != textName && name != transparentName) := by
    unfold isCategoryName
    split
    · rename_i rest heq
      rw [heq]
      rfl
    · rename_i hother
      rw [isMarked_eq_false hother]
      rfl
  by_cases htext : name = textName
  · subst htext
    decide
  · by_cases htransparent : name = transparentName
    · subst htransparent
      decide
    · rw [isTagName, hcategory, bne_iff_ne.mpr htext, bne_iff_ne.mpr htransparent]
      simp

theorem isMarked_map_toLower (cs : List Char) : isMarked (cs.map Char.toLower) = isMarked cs := by
  have hall : ∀ cs : List Char, (cs.map Char.toLower).all (fun c => c.isAlphanum || c == '-') =
      cs.all fun c => c.isAlphanum || c == '-' := by
    intro cs
    rw [List.all_map]
    congr 1
    funext c
    have hhyphen : (c.toLower == '-') = (c == '-') :=
      Bool.eq_iff_iff.mpr (by simp only [beq_iff_eq]; exact toLower_eq_iff_of_lt (by decide))
    show (c.toLower.isAlphanum || c.toLower == '-') = _
    rw [isAlphanum_toLower, hhyphen]
  cases cs with
  | nil => rfl
  | cons c cs =>
    by_cases hc : c = '#'
    · subst hc
      show (!(cs.map Char.toLower).isEmpty && (cs.map Char.toLower).all _) = _
      rw [hall, List.isEmpty_map]
      rfl
    · have hlower : c.toLower ≠ '#' := fun h => hc ((toLower_eq_iff_of_lt (by decide)).mp h)
      rw [List.map_cons, isMarked_eq_false fun _ h => hlower (List.cons.inj h).1,
        isMarked_eq_false fun _ h => hc (List.cons.inj h).1]

/-- Whether a name is that of a tag does not depend on the case of its letters. -/
theorem isTagName_lower (name : String) : isTagName (Ascii.lower name) = isTagName name := by
  rw [isTagName_eq, isTagName_eq, Ascii.toList_lower, isMarked_map_toLower]

theorem Model.ofName_of_isTagName {raw : String} (h : isTagName (trimmed raw) = true) :
    Model.ofName raw = .tag (Ascii.lower (trimmed raw)) := by
  rw [isTagName, Bool.and_eq_true, Bool.and_eq_true, bne_iff_ne, bne_iff_ne, Bool.not_eq_true'] at h
  obtain ⟨⟨htext, htransparent⟩, hcategory⟩ := h
  rw [ofName]
  simp only [htext, htransparent, hcategory, if_false, Bool.false_eq_true]

theorem Model.ofName_lowered (raw : String) : Model.ofName (loweredName raw) = Model.ofName raw := by
  rw [loweredName]
  split
  case isTrue h =>
    have hlower : isTagName (trimmed (Ascii.lower raw)) = true := by
      rw [trimmed_lower, isTagName_lower]
      exact h
    rw [ofName_of_isTagName hlower, ofName_of_isTagName h, trimmed_lower, Ascii.lower_lower]
  case isFalse => rfl

/-! ## Contents -/

/-- Names written differently, of which each stands for the same model, stand for the same model. -/
theorem Names.model_map {f : String → String} (hf : ∀ n, Model.ofName (f n) = Model.ofName n)
    {names names' : Names} (h : names'.toList = names.toList.map f) : names'.model = names.model := by
  unfold model
  rw [h]
  cases names.toList with
  | nil => rfl
  | cons n ns =>
    cases ns with
    | nil =>
      show Except.ok (Model.ofName (f n)) = Except.ok (Model.ofName n)
      rw [hf]
    | cons n' ns =>
      have hmap : ((n :: n' :: ns).map f).map Model.ofName = (n :: n' :: ns).map Model.ofName := by
        rw [List.map_map]
        exact List.map_congr_left fun n _ => hf n
      exact congrArg (fun ms => Except.ok (Model.choice ms)) hmap

theorem Names.model_lowered (names : Names) : names.lowered.model = names.model :=
  model_map Model.ofName_lowered (by cases names <;> rfl)

mutual

theorem Item.model_lowered : (i : Item) → i.lowered.model = i.model
  | .require what least most ignore => by
    rw [Item.lowered, Item.model, Item.model, what.model_lowered]
  | .optional what ignore => by rw [Item.lowered, Item.model, Item.model, what.model_lowered]
  | .repeatNames quantity what most ignore => by
    rw [Item.lowered, Item.model, Item.model, what.model_lowered]
  | .repeatItems quantity what most ignore => by
    rw [Item.lowered, Item.model, Item.model, itemModels_lowered what]
  | .choice alternatives => by
    rw [Item.lowered, Item.model, Item.model, alternativeModels_lowered alternatives]
    cases alternatives <;> rfl

theorem itemModels_lowered : (is : List Item) → itemModels (loweredItems is) = itemModels is
  | [] => rfl
  | i :: is => by
    rw [loweredItems, itemModels, itemModels, i.model_lowered, itemModels_lowered is]

theorem alternativeModels_lowered : (as : List (List Item)) →
    alternativeModels (loweredAlternatives as) = alternativeModels as
  | [] => rfl
  | is :: rest => by
    rw [loweredAlternatives, alternativeModels, alternativeModels, itemModels_lowered is,
      alternativeModels_lowered rest]

end

/-- Contents mean the same model, or have the same error, whatever the case of letters in the names
of tags. -/
theorem Contents.model_lowered (c : Contents) : c.lowered.model = c.model := by
  cases c with
  | flag anything => rfl
  | items is => rw [lowered, model, model, itemModels_lowered]

end ContentGrammar
