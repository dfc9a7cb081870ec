import ContentGrammar.Proofs.Model.Case
import ContentGrammar.Proofs.Model.References

/-!
# Which item takes which child

A derivation says which tokens a pattern takes, but not which item of the model takes them. A
`Reading` of a model adds that: it is a derivation of the pattern of the model (`Reading.derivation`)
with a `Slot` for each token, the item by which the token is taken. Every derivation of the pattern
has a reading (`hasReadings_compileFrom`).

A token is accepted by its name, and text has the name `#text`. So a token that a text slot takes is
text or is an element of that name, and one that a tag slot takes is an element if no tag of the model
is called `#text` (`Reading.takes`); in written contents no tag can be (`Contents.namesNoText`).
-/

namespace ContentGrammar

open Category (Sets)

/-- An item of a model that takes one token. -/
inductive Slot
  | any
  | tag (name : String)
  | text
  /-- The member `name` of a category. -/
  | member (category name : String)

namespace Slot

/-- Whether a slot is for text: a text item, or the member `#text` of a category. -/
def IsText : Slot → Prop
  | .text => True
  | .member _ name => name = textName
  | .any | .tag _ => False

/-- Whether a slot is for elements: a tag, or another member of a category. -/
def IsTag : Slot → Prop
  | .tag _ => True
  | .member _ name => name ≠ textName
  | .any | .text => False

/-- A token as a slot can have it: what is in a tag slot is an element, and what is in a text slot has
the name of text. -/
structure Takes (slot : Slot) (t : Token) : Prop where
  element : slot.IsTag → ∃ name, t = .element name
  named : slot.IsText → t.name = textName

end Slot

/-- What takes a row of tokens from a position on: a pattern with the regions that it goes through, and
a slot for each token. -/
abbrev Taking := Pattern → Nat → List Token → List Span → List Slot → Prop

/-- How a model and its pattern take a row of tokens. Where the model is transparent, the inherited
pattern takes them as `outer` says. -/
inductive Reading (outer : Taking) : Model → Taking
  | any {i ts} : Reading outer .any .any i ts [] (ts.map fun _ => .any)
  | tag {name i t} : t.name = Ascii.lower name →
      Reading outer (.tag name) (.token (.oneOf (.singleton (Ascii.lower name)))) i [t] []
        [.tag name]
  | text {i t} : t.name = textName →
      Reading outer .text (.token (.oneOf (.singleton textName))) i [t] [] [.text]
  | category {name members i t} : t.name ∈ members →
      Reading outer (.category name) (.token (.oneOf members)) i [t] [] [.member name t.name]
  | nil {i} : Reading outer (.sequence []) (.sequence []) i [] [] []
  | cons {m ms p ps i ts us ss rs slots more} : Reading outer m p i ts ss slots →
      Reading outer (.sequence ms) (.sequence ps) (i + ts.length) us rs more →
      Reading outer (.sequence (m :: ms)) (.sequence (p :: ps)) i (ts ++ us) (ss ++ rs)
        (slots ++ more)
  | here {m ms p ps i ts ss slots} : Reading outer m p i ts ss slots →
      Reading outer (.choice (m :: ms)) (.choice (p :: ps)) i ts ss slots
  | behind {m ms p ps i ts ss slots} : Reading outer (.choice ms) (.choice ps) i ts ss slots →
      Reading outer (.choice (m :: ms)) (.choice (p :: ps)) i ts ss slots
  | optional {m p k i ts ss slots} : k ≤ 1 →
      Reading outer (.sequence (.replicate k m)) (.sequence (.replicate k p)) i ts ss slots →
      Reading outer (.optional m) (.repeated p 0 (some 1)) i ts ss slots
  | repeated {m p least most k i ts ss slots} : least ≤ k → (∀ b, most = some b → k ≤ max least b) →
      Reading outer (.sequence (.replicate k m)) (.sequence (.replicate k p)) i ts ss slots →
      Reading outer (.repeated m least most) (.repeated p least most) i ts ss slots
  | transparent {p i ts ss slots} : outer p i ts ss slots →
      Reading outer .transparent (.labeled .transparent p) i ts
        (ss ++ [⟨.transparent, i, i + ts.length⟩]) slots
  | excluding {scope targets l p i ts ss slots} : Reading outer scope p i ts ss slots →
      Reading outer (.excluding scope targets) (.labeled l p) i ts
        (ss ++ [⟨l, i, i + ts.length⟩]) slots

namespace Pattern

variable {i : Nat} {ts : List Token} {ss : List Span} {t : Token}

theorem accepts_singleton_iff {name : String} :
    (TokenClass.oneOf (.singleton name)).accepts t = true ↔ t.name = name := by
  rw [TokenClass.accepts, NameSet.contains_iff, NameSet.singleton, NameSet.mem_insert,
    or_iff_left NameSet.not_mem_empty]

theorem derivation_replicate_any {k : Nat} :
    Derivation (.sequence (.replicate k (.token .any))) i ts ss ↔ ts.length = k ∧ ss = [] := by
  induction k generalizing i ts ss with
  | zero => rw [List.replicate_zero, Derivation.sequence_nil_iff, List.length_eq_zero_iff]
  | succ k ih =>
    rw [List.replicate_succ, Derivation.sequence_cons_iff]
    constructor
    · rintro ⟨_, us, _, rs, rfl, rfl, hfirst, hrest⟩
      cases hfirst with
      | token =>
        obtain ⟨rfl, rfl⟩ := ih.mp hrest
        exact ⟨by rw [List.length_append, List.length_singleton, Nat.add_comm], rfl⟩
    · rintro ⟨hlength, rfl⟩
      obtain ⟨t, us, rfl⟩ := List.exists_cons_of_length_eq_add_one hlength
      exact ⟨[t], us, [], [], rfl, rfl, .token rfl, ih.mpr ⟨Nat.succ.inj hlength, rfl⟩⟩

/-- Anything takes any row, and has no regions. -/
theorem derivation_any_iff : Derivation .any i ts ss ↔ ss = [] := by
  rw [Pattern.any, Derivation.repeated_iff]
  constructor
  · rintro ⟨k, -, -, h⟩
    exact (derivation_replicate_any.mp h).2
  · rintro rfl
    refine ⟨ts.length, Nat.zero_le _, fun most h => ?_, derivation_replicate_any.mpr ⟨rfl, rfl⟩⟩
    cases h

end Pattern

open Pattern (Derivation)

variable {outer : Taking} {sets : Sets} {parent : Option Pattern} {next after i : Nat}
  {p : Pattern} {ps : List Pattern} {m : Model} {ms : List Model} {ts : List Token}
  {ss : List Span} {slots : List Slot}

/-! ## Readings and derivations -/

/-- A reading is a derivation with something added. -/
theorem Reading.derivation
    (houter : ∀ q i ts ss slots, outer q i ts ss slots → Derivation q i ts ss)
    (h : Reading outer m p i ts ss slots) : Derivation p i ts ss := by
  induction h with
  | any => exact Pattern.derivation_any_iff.mpr rfl
  | tag ht | text ht => exact .token (Pattern.accepts_singleton_iff.mpr ht)
  | category ht => exact .token (NameSet.contains_iff.mpr ht)
  | nil => exact .sequenceNil
  | cons _ _ ih ihs => exact .sequenceCons ih ihs
  | here _ ih => exact .choice List.mem_cons_self ih
  | behind _ ih =>
    obtain ⟨q, hq, h⟩ := Derivation.choice_iff.mp ih
    exact .choice (List.mem_cons_of_mem _ hq) h
  | optional hk _ ih =>
    refine .repeated (Nat.zero_le _) (fun b hb => ?_) ih
    obtain rfl := Option.some.inj hb
    exact hk
  | repeated hleast hmost _ ih => exact .repeated hleast hmost ih
  | transparent h => exact .labeled (houter _ _ _ _ _ h)
  | excluding _ ih => exact .labeled ih

/-- Each derivation of `p` has slots for its tokens, one each. -/
def HasReadings (outer : Taking) (m : Model) (p : Pattern) : Prop :=
  ∀ i ts ss, Derivation p i ts ss → ∃ slots, Reading outer m p i ts ss slots

theorem hasReadings_token {name : String} {slot : Slot}
    (h : ∀ i t, t.name = name →
      Reading outer m (.token (.oneOf (.singleton name))) i [t] [] [slot]) :
    HasReadings outer m (.token (.oneOf (.singleton name))) := by
  intro i ts ss hd
  cases hd with
  | token ht => exact ⟨_, h i _ (Pattern.accepts_singleton_iff.mp ht)⟩

/-- Readings of the parts of a sequence make one of the whole. -/
theorem hasReadings_sequence (h : List.Forall₂ (HasReadings outer) ms ps) :
    HasReadings outer (.sequence ms) (.sequence ps) := by
  induction h with
  | nil =>
    intro i ts ss hd
    obtain ⟨rfl, rfl⟩ := Derivation.sequence_nil_iff.mp hd
    exact ⟨[], .nil⟩
  | cons hm _ ih =>
    intro i ts ss hd
    obtain ⟨_, _, _, _, rfl, rfl, hfirst, hrest⟩ := Derivation.sequence_cons_iff.mp hd
    obtain ⟨slots, hfirst⟩ := hm _ _ _ hfirst
    obtain ⟨more, hrest⟩ := ih _ _ _ hrest
    exact ⟨slots ++ more, .cons hfirst hrest⟩

/-- A reading of an alternative is one of the choice. -/
theorem hasReadings_choice (h : List.Forall₂ (HasReadings outer) ms ps) :
    HasReadings outer (.choice ms) (.choice ps) := by
  induction h with
  | nil =>
    intro i ts ss hd
    obtain ⟨_, hq, -⟩ := Derivation.choice_iff.mp hd
    cases hq
  | cons hm _ ih =>
    intro i ts ss hd
    obtain ⟨q, hq, hin⟩ := Derivation.choice_iff.mp hd
    rcases List.mem_cons.mp hq with rfl | hq
    · obtain ⟨slots, hin⟩ := hm _ _ _ hin
      exact ⟨slots, .here hin⟩
    · obtain ⟨slots, hin⟩ := ih _ _ _ (Derivation.choice_iff.mpr ⟨q, hq, hin⟩)
      exact ⟨slots, .behind hin⟩

theorem HasReadings.replicate (h : HasReadings outer m p) (k : Nat) :
    HasReadings outer (.sequence (.replicate k m)) (.sequence (.replicate k p)) := by
  refine hasReadings_sequence ?_
  induction k with
  | zero => exact .nil
  | succ k ih => exact .cons h ih

/-- What is compiled one after the other has readings one by one. -/
theorem hasReadings_all
    (hms : ∀ m ∈ ms, ∀ next p after, m.compileFrom sets parent next = .ok (p, after) →
      HasReadings outer m p)
    (h : Model.compileAllFrom sets parent next ms = .ok (ps, after)) :
    List.Forall₂ (HasReadings outer) ms ps := by
  induction ms generalizing next ps after with
  | nil =>
    obtain ⟨rfl, -⟩ := Prod.mk.inj (Except.ok.inj h)
    exact .nil
  | cons m ms ih =>
    rw [Model.compileAllFrom] at h
    obtain ⟨⟨p, middle⟩, hp, h⟩ := ok_of_bind h
    obtain ⟨⟨qs, last⟩, hqs, h⟩ := ok_of_bind h
    obtain ⟨rfl, -⟩ := Prod.mk.inj (Except.ok.inj h)
    exact .cons (hms m List.mem_cons_self _ _ _ hp)
      (ih (fun n hn => hms n (List.mem_cons_of_mem _ hn)) hqs)

/-- All derivations of the pattern of a model have a reading, if those of the inherited pattern are
known to `outer`. -/
theorem hasReadings_compileFrom
    (houter : ∀ q, parent = some q → ∀ i ts ss, Derivation q i ts ss →
      ∃ slots, outer q i ts ss slots)
    (h : m.compileFrom sets parent next = .ok (p, after)) : HasReadings outer m p := by
  induction m generalizing next p after with
  | any =>
    obtain ⟨rfl, -⟩ := Prod.mk.inj (Except.ok.inj h)
    intro i ts ss hd
    obtain rfl := Pattern.derivation_any_iff.mp hd
    exact ⟨_, .any⟩
  | tag name =>
    obtain ⟨rfl, -⟩ := Prod.mk.inj (Except.ok.inj h)
    exact hasReadings_token fun _ _ => .tag
  | text =>
    obtain ⟨rfl, -⟩ := Prod.mk.inj (Except.ok.inj h)
    exact hasReadings_token fun _ _ => .text
  | category name =>
    obtain ⟨members, -, h⟩ := ok_of_bind h
    obtain ⟨rfl, -⟩ := Prod.mk.inj (Except.ok.inj h)
    intro i ts ss hd
    cases hd with
    | token ht => exact ⟨_, .category (NameSet.contains_iff.mp ht)⟩
  | sequence ms ih =>
    rw [Model.compileFrom] at h
    obtain ⟨⟨ps, last⟩, hps, h⟩ := ok_of_bind h
    obtain ⟨rfl, -⟩ := Prod.mk.inj (Except.ok.inj h)
    -- the patterns of the parts come from the same run of the compiler, so each is read by itself
    exact hasReadings_sequence (hasReadings_all (fun m hm _ _ _ => ih m hm) hps)
  | choice ms ih =>
    rw [Model.compileFrom] at h
    split at h
    · cases h
    · obtain ⟨⟨ps, last⟩, hps, h⟩ := ok_of_bind h
      obtain ⟨rfl, -⟩ := Prod.mk.inj (Except.ok.inj h)
      exact hasReadings_choice (hasReadings_all (fun m hm _ _ _ => ih m hm) hps)
  | optional m ih =>
    rw [Model.compileFrom] at h
    obtain ⟨⟨q, last⟩, hq, h⟩ := ok_of_bind h
    obtain ⟨rfl, -⟩ := Prod.mk.inj (Except.ok.inj h)
    intro i ts ss hd
    obtain ⟨k, -, hmost, hd⟩ := Derivation.repeated_iff.mp hd
    obtain ⟨slots, hd⟩ := (ih hq).replicate k _ _ _ hd
    exact ⟨slots, .optional (hmost 1 rfl) hd⟩
  | repeated m least most ih =>
    rw [Model.compileFrom] at h
    obtain ⟨⟨q, last⟩, hq, h⟩ := ok_of_bind h
    obtain ⟨rfl, -⟩ := Prod.mk.inj (Except.ok.inj h)
    intro i ts ss hd
    obtain ⟨k, hleast, hmost, hd⟩ := Derivation.repeated_iff.mp hd
    obtain ⟨slots, hd⟩ := (ih hq).replicate k _ _ _ hd
    exact ⟨slots, .repeated hleast hmost hd⟩
  | transparent =>
    cases parent with
    | none => cases h
    | some q =>
      obtain ⟨rfl, -⟩ := Prod.mk.inj (Except.ok.inj h)
      intro i ts ss hd
      obtain ⟨rs, rfl, hin⟩ := Derivation.labeled_iff.mp hd
      -- what is inside the region is a derivation of the inherited pattern
      obtain ⟨slots, hin⟩ := houter q rfl _ _ _ hin
      exact ⟨slots, .transparent hin⟩
  | excluding scope targets ih =>
    rw [Model.compileFrom] at h
    obtain ⟨forbidden, -, h⟩ := ok_of_bind h
    obtain ⟨⟨q, last⟩, hq, h⟩ := ok_of_bind h
    obtain ⟨rfl, -⟩ := Prod.mk.inj (Except.ok.inj h)
    intro i ts ss hd
    obtain ⟨rs, rfl, hin⟩ := Derivation.labeled_iff.mp hd
    obtain ⟨slots, hin⟩ := ih hq _ _ _ hin
    exact ⟨slots, .excluding hin⟩

/-! ## What slots take -/

/-- No tag of a model has the name of text. -/
def Model.NamesNoText (m : Model) : Prop :=
  ∀ name, .shape (.tag name) ∈ m.sites → Ascii.lower name ≠ textName

namespace Model.NamesNoText

theorem sequence_iff : (Model.sequence ms).NamesNoText ↔ ∀ m ∈ ms, m.NamesNoText := by
  have hleaf : ∀ name, (Site.shape (.tag name)).IsLeaf := fun _ => trivial
  constructor
  · intro h m hm name hs
    exact h name ((mem_sites_sequence (hleaf name)).mpr ⟨m, hm, hs⟩)
  · intro h name hs
    obtain ⟨m, hm, hs⟩ := (mem_sites_sequence (hleaf name)).mp hs
    exact h m hm name hs

theorem choice_iff : (Model.choice ms).NamesNoText ↔ ∀ m ∈ ms, m.NamesNoText := by
  have hleaf : ∀ name, (Site.shape (.tag name)).IsLeaf := fun _ => trivial
  constructor
  · intro h m hm name hs
    exact h name ((mem_sites_choice (hleaf name)).mpr ⟨m, hm, hs⟩)
  · intro h name hs
    obtain ⟨m, hm, hs⟩ := (mem_sites_choice (hleaf name)).mp hs
    exact h m hm name hs

theorem replicate (h : m.NamesNoText) (k : Nat) : (Model.sequence (.replicate k m)).NamesNoText :=
  sequence_iff.mpr fun _ hn => List.eq_of_mem_replicate hn ▸ h

end Model.NamesNoText

theorem Slot.takes_any (t : Token) : Slot.any.Takes t := ⟨False.elim, False.elim⟩

/-- A token that is not called like text is an element. -/
theorem Token.element_of_name_ne {t : Token} (h : t.name ≠ textName) : ∃ name, t = .element name := by
  cases t with
  | element name => exact ⟨name, rfl⟩
  | text => exact absurd rfl h

/-- Tag slots take elements, and text slots take what has the name of text. -/
theorem Reading.takes
    (houter : ∀ q i ts ss slots, outer q i ts ss slots → List.Forall₂ Slot.Takes slots ts)
    (hm : m.NamesNoText) (h : Reading outer m p i ts ss slots) :
    List.Forall₂ Slot.Takes slots ts := by
  induction h with
  | @any i ts =>
    refine List.forall₂_map_left_iff.mpr (List.forall₂_same.mpr fun t _ => ?_)
    exact Slot.takes_any t
  | @tag name i t ht =>
    -- no tag in the model is called like text, so what has the name is an element
    have hne : t.name ≠ textName := by
      rw [ht]
      exact hm name (List.mem_singleton.mpr rfl)
    exact .cons ⟨fun _ => Token.element_of_name_ne hne, False.elim⟩ .nil
  | text ht => exact .cons ⟨False.elim, fun _ => ht⟩ .nil
  | category => exact .cons ⟨Token.element_of_name_ne, id⟩ .nil
  | nil => exact .nil
  | cons _ _ ih ihs =>
    obtain ⟨hfirst, hrest⟩ := List.forall_mem_cons.mp (Model.NamesNoText.sequence_iff.mp hm)
    exact List.rel_append (ih hfirst) (ihs (Model.NamesNoText.sequence_iff.mpr hrest))
  | here _ ih => exact ih (Model.NamesNoText.choice_iff.mp hm _ List.mem_cons_self)
  | behind _ ih =>
    have hrest := (List.forall_mem_cons.mp (Model.NamesNoText.choice_iff.mp hm)).2
    exact ih (Model.NamesNoText.choice_iff.mpr hrest)
  | optional _ _ ih | repeated _ _ _ ih =>
    refine ih (Model.NamesNoText.replicate (fun name hs => hm name ?_) _)
    exact List.mem_cons_of_mem _ hs
  | transparent h => exact houter _ _ _ _ _ h
  | excluding _ ih =>
    refine ih fun name hs => hm name ?_
    exact List.mem_cons_of_mem _ (List.mem_append_right _ hs)

/-! ## Written contents -/

/-- A name that stands for a tag is not the name of text, in whatever letter case. -/
theorem Model.lower_ne_textName {raw name : String} (h : ofName raw = .tag name) :
    Ascii.lower name ≠ textName := by
  have htag : isTagName (trimmed raw) = true := by
    unfold ofName at h
    dsimp only at h
    split at h
    · cases h
    split at h
    · cases h
    split at h
    · cases h
    · simp [isTagName, *]
  rw [ofName_of_isTagName htag] at h
  obtain rfl := Model.tag.inj h
  rw [Ascii.lower_lower]
  intro heq
  rw [← isTagName_lower, heq] at htag
  exact absurd htag (by decide)

/-- The names in written contents never make a tag called like text. -/
theorem Contents.namesNoText {c : Contents} (h : c.model = .ok m) : m.NamesNoText := by
  intro name hs
  obtain ⟨i, -, hwrites⟩ := (mem_sites_iff (s := .shape (.tag name)) trivial h).mp hs
  rcases Item.writes_iff.mp hwrites with ⟨_, -, raw, -, heq⟩ | ⟨_, _, _, _, _, _, heq⟩
  · exact Model.lower_ne_textName (Model.Site.shape.inj heq).symm
  · cases heq

end ContentGrammar
