import Mathlib
import ContentGrammar.Proofs.Spec.Loaded

/-!
# Which declarations count

A spec has the models of a tag from a single declaration, though several may be written: the last of
those with the same tag, and among tags that differ in letter case only, the one that is last in code
point order (`WrittenSpec.InForce`). So what a spec says of a tag is what the declaration in force
says (`WrittenSpec.tag?_eq_some_iff`). That is the last declaration of the tag if no other spelling
of it is greater (`WrittenSpec.last_spelling_counts`), but not always.
-/

namespace ContentGrammar

/-- Lists that are related to a list with an item in the middle have an item there, too. -/
theorem exists_append_of_forall₂ {α β : Type} {R : α → β → Prop} {as : List α} {bs bs' : List β}
    {b : β} (h : List.Forall₂ R as (bs ++ b :: bs')) :
    ∃ before a after, as = before ++ a :: after ∧ R a b ∧ List.Forall₂ R after bs' := by
  induction bs generalizing as with
  | nil =>
    cases h with
    | cons hab hrest => exact ⟨[], _, _, rfl, hab, hrest⟩
  | cons c bs ih =>
    cases h with
    | cons hac hrest =>
      obtain ⟨before, a, after, rfl, hab, hafter⟩ := ih hrest
      exact ⟨_ :: before, a, after, rfl, hab, hafter⟩

namespace WrittenSpec

/-- `w.InForce d`: no later declaration has the tag of `d`, and no tag that differs from it in letter
case only comes after it in code point order. -/
structure InForce (w : WrittenSpec) (d : Declaration) : Prop where
  last : ∃ before after, w.declarations = before ++ d :: after ∧ ∀ e ∈ after, e.tag ≠ d.tag
  greatest : ∀ e ∈ w.declarations, Ascii.lower e.tag = Ascii.lower d.tag → e.tag ≤ d.tag

/-- Each of the declarations as it is read, under its tag. -/
def Declared (w : WrittenSpec) (tags : List (String × TagSpec)) : Prop :=
  List.Forall₂ (fun d e => d.tag = e.1 ∧ d.tagSpec = .ok e.2) w.declarations tags

variable {w : WrittenSpec} {s : Spec} {tags : List (String × TagSpec)} {name : String} {t : TagSpec}
  {d : Declaration} {e : ModelError}

theorem InForce.mem (h : w.InForce d) : d ∈ w.declarations := by
  obtain ⟨before, after, heq, -⟩ := h.last
  rw [heq]
  exact List.mem_append_right _ List.mem_cons_self

/-- A spec is made of all declarations, or there is an error in one of them. -/
theorem spec_cases (w : WrittenSpec) :
    (∃ tags, w.Declared tags ∧ w.spec = Spec.new (.ofList tags) w.categories) ∨
      ∃ d ∈ w.declarations, ∃ e, d.tagSpec = .error e ∧ w.spec = .error e := by
  rw [WrittenSpec.spec]
  cases h : w.declarations.mapM fun d => return (d.tag, ← d.tagSpec) with
  | ok tags =>
    refine .inl ⟨tags, (forall₂_of_mapM h).imp fun d e hde => ?_, rfl⟩
    obtain ⟨t, ht, hde⟩ := ok_of_bind hde
    obtain rfl := Except.ok.inj hde
    exact ⟨rfl, ht⟩
  | error e =>
    obtain ⟨d, hd, he⟩ := exists_error_of_mapM h
    rcases error_of_bind he with he | ⟨_, -, he⟩
    · exact .inr ⟨d, hd, e, he, rfl⟩
    · cases he

theorem Declared.map_tag (h : w.Declared tags) : tags.map (·.1) = w.declarations.map (·.tag) := by
  unfold Declared at h
  generalize w.declarations = ds at h ⊢
  induction h with
  | nil => rfl
  | cons hde _ ih => rw [List.map_cons, List.map_cons, ih, hde.1]

/-- The last declaration of a tag is the one that is read. -/
theorem Declared.get?_eq_some_iff (h : w.Declared tags) {tag : String} :
    (Dictionary.ofList tags).get? tag = some t ↔ ∃ before d after,
      w.declarations = before ++ d :: after ∧ d.tag = tag ∧ d.tagSpec = .ok t ∧
        ∀ e ∈ after, e.tag ≠ tag := by
  rw [Dictionary.get?_ofList_eq_some_iff]
  constructor
  · rintro ⟨before, after, rfl, hafter⟩
    obtain ⟨before', d, after', heq, ⟨htag, ht⟩, hall⟩ := exists_append_of_forall₂ h
    refine ⟨before', d, after', heq, htag, ht, fun e he hsame => ?_⟩
    obtain ⟨x, hx, htag', -⟩ := exists_mem_of_forall₂ hall he
    exact hafter x hx (htag'.symm.trans hsame)
  · rintro ⟨before, d, after, heq, rfl, ht, hafter⟩
    rw [Declared, heq] at h
    obtain ⟨before', x, after', heq', ⟨htag, hx⟩, hall⟩ := exists_append_of_forall₂ h.flip
    refine ⟨before', after', ?_, fun e he hsame => ?_⟩
    · rw [heq', htag, Except.ok.inj (ht.symm.trans hx)]
    · obtain ⟨e', he', htag', -⟩ := exists_mem_of_forall₂ hall he
      exact hafter e' he' (htag'.trans hsame)

/-- What is kept under a name is what the declaration in force says. -/
theorem Declared.get?_lower_eq_some_iff (h : w.Declared tags) :
    (Dictionary.ofList ((Dictionary.ofList tags).entries.map fun e =>
      (Ascii.lower e.1, e.2))).get? name = some t ↔
        ∃ d, w.InForce d ∧ Ascii.lower d.tag = name ∧ d.tagSpec = .ok t := by
  have hkeys : ∀ x, x ∈ (Dictionary.ofList tags).keys ↔ ∃ d ∈ w.declarations, d.tag = x := by
    intro x
    rw [Dictionary.mem_keys_ofList, h.map_tag, List.mem_map]
  rw [Dictionary.get?_ofList_map_eq_some_iff]
  constructor
  · rintro ⟨x, hx, rfl, hgreatest⟩
    obtain ⟨before, d, after, heq, rfl, ht, hafter⟩ := h.get?_eq_some_iff.mp hx
    refine ⟨d, ⟨⟨before, after, heq, hafter⟩, fun e he hsame => ?_⟩, rfl, ht⟩
    exact hgreatest e.tag ((hkeys _).mpr ⟨e, he, rfl⟩) hsame
  · rintro ⟨d, hd, rfl, ht⟩
    obtain ⟨before, after, heq, hafter⟩ := hd.last
    refine ⟨d.tag, h.get?_eq_some_iff.mpr ⟨before, d, after, heq, rfl, ht, hafter⟩, rfl, ?_⟩
    intro y hy hsame
    obtain ⟨e, he, rfl⟩ := (hkeys y).mp hy
    exact hd.greatest e he hsame

/-- The table of a spec has each declaration as it is read, under its tag in small letters. -/
theorem exists_declared (h : w.spec = .ok s) : ∃ tags, w.Declared tags ∧
    s.tags = .ofList ((Dictionary.ofList tags).entries.map fun e => (Ascii.lower e.1, e.2)) := by
  rcases w.spec_cases with ⟨tags, htags, hspec⟩ | ⟨_, _, e, -, hspec⟩
  · rw [h] at hspec
    obtain ⟨sets, -, hspec⟩ := ok_of_bind hspec.symm
    obtain ⟨_, -, hspec⟩ := ok_of_bind hspec
    obtain rfl := Except.ok.inj hspec
    exact ⟨tags, htags, rfl⟩
  · cases h.symm.trans hspec

/-- A spec says of a tag what the declaration in force says. -/
theorem tag?_eq_some_iff (h : w.spec = .ok s) :
    s.tag? name = some t ↔ ∃ d, w.InForce d ∧ Ascii.lower d.tag = name ∧ d.tagSpec = .ok t := by
  obtain ⟨tags, htags, heq⟩ := exists_declared h
  rw [Spec.tag?, heq]
  exact htags.get?_lower_eq_some_iff

/-- In a spec that is loaded, each declaration in force is the one that is kept. -/
theorem InForce.tag?_eq (hd : w.InForce d) (h : w.spec = .ok s) :
    ∃ t, d.tagSpec = .ok t ∧ s.tag? (Ascii.lower d.tag) = some t := by
  obtain ⟨tags, htags, -⟩ := exists_declared h
  obtain ⟨e, -, -, ht⟩ := exists_mem_of_forall₂ htags hd.mem
  exact ⟨e.2, ht, (tag?_eq_some_iff h).mpr ⟨d, hd, rfl, ht⟩⟩

/-- A spec says nothing of the tags that are not declared. -/
theorem tag?_eq_none_iff (h : w.spec = .ok s) :
    s.tag? name = none ↔ ∀ d ∈ w.declarations, Ascii.lower d.tag ≠ name := by
  obtain ⟨tags, htags, heq⟩ := exists_declared h
  have hkeys : name ∈ s.tags.keys ↔ ∃ d ∈ w.declarations, Ascii.lower d.tag = name := by
    have hmap : ((Dictionary.ofList tags).entries.map fun e => (Ascii.lower e.1, e.2)).map (·.1) =
        (Dictionary.ofList tags).keys.map Ascii.lower := by
      rw [Dictionary.keys, List.map_map, List.map_map]
      rfl
    have htag : ∀ x, x ∈ (Dictionary.ofList tags).keys ↔ ∃ d ∈ w.declarations, d.tag = x := by
      intro x
      rw [Dictionary.mem_keys_ofList, htags.map_tag, List.mem_map]
    rw [heq, Dictionary.mem_keys_ofList, hmap, List.mem_map]
    simp only [htag]
    constructor
    · rintro ⟨_, ⟨d, hd, rfl⟩, hname⟩
      exact ⟨d, hd, hname⟩
    · rintro ⟨d, hd, hname⟩
      exact ⟨d.tag, ⟨d, hd, rfl⟩, hname⟩
  rw [Spec.tag?, Option.eq_none_iff_forall_ne_some, ← not_exists, ← Dictionary.mem_keys_iff, hkeys]
  constructor
  · intro h d hd hname
    exact h ⟨d, hd, hname⟩
  · rintro h ⟨d, hd, hname⟩
    exact h d hd hname

/-! ## The last declaration -/

/-- `d` is the last declaration of a tag, in whatever letter case the tag is written. -/
def IsLast (w : WrittenSpec) (name : String) (d : Declaration) : Prop := ∃ before after,
  w.declarations = before ++ d :: after ∧ Ascii.lower d.tag = name ∧
    ∀ e ∈ after, Ascii.lower e.tag ≠ name

/-- The last declaration of a tag is in force if no other spelling of the tag that is declared comes
after its own in code point order. -/
theorem IsLast.inForce (h : w.IsLast name d)
    (hgreatest : ∀ e ∈ w.declarations, Ascii.lower e.tag = name → e.tag ≤ d.tag) :
    w.InForce d := by
  obtain ⟨before, after, heq, rfl, hafter⟩ := h
  refine ⟨⟨before, after, heq, fun e he hsame => ?_⟩, hgreatest⟩
  exact hafter e he (congrArg Ascii.lower hsame)

/-- In a spec that is loaded, the declarations of a tag that are spelled alike replace each other in
the order in which they are written, so the last of them counts. Spellings that differ in letter case
do so in code point order instead: the last declaration of a tag counts if no other spelling of the
tag comes after its own. -/
theorem last_spelling_counts (h : w.spec = .ok s) (name : String) :
    (s.tag? name = none ↔ ∀ d ∈ w.declarations, Ascii.lower d.tag ≠ name) ∧
      (∀ t, s.tag? name = some t ↔
        ∃ d, w.InForce d ∧ Ascii.lower d.tag = name ∧ d.tagSpec = .ok t) ∧
      ∀ d, w.IsLast name d →
        (∀ e ∈ w.declarations, Ascii.lower e.tag = name → e.tag ≤ d.tag) →
        ∃ t, d.tagSpec = .ok t ∧ s.tag? name = some t := by
  refine ⟨tag?_eq_none_iff h, fun t => tag?_eq_some_iff h, fun d hlast hgreatest => ?_⟩
  have hname : Ascii.lower d.tag = name := hlast.choose_spec.choose_spec.2.1
  rw [← hname]
  exact (hlast.inForce hgreatest).tag?_eq h

/-- Of `P` and then `p`, and again `p`, the last declaration counts. -/
theorem last_spelling_counts_small :
    let w : WrittenSpec := ⟨.empty, [⟨"P", .flag true, []⟩, ⟨"p", .flag true, []⟩,
      ⟨"p", .flag false, []⟩]⟩
    ∃ s, w.spec = .ok s ∧ s.tag? "p" = some ⟨.sequence [], []⟩ := by
  intro w
  have hw : w.spec = .ok ⟨.ofList [("p", ⟨.sequence [], []⟩)], .ofList []⟩ := by
    show WrittenSpec.spec ⟨.empty, [⟨"P", .flag true, []⟩, ⟨"p", .flag true, []⟩,
      ⟨"p", .flag false, []⟩]⟩ = _
    cbv
  have hlast : w.IsLast "p" ⟨"p", .flag false, []⟩ :=
    ⟨[⟨"P", .flag true, []⟩, ⟨"p", .flag true, []⟩], [], rfl, by decide, List.forall_mem_nil _⟩
  have hgreatest : ∀ e ∈ w.declarations, Ascii.lower e.tag = "p" → e.tag ≤ "p" := by
    have hle : ∀ e ∈ w.declarations, e.tag ≤ "p" := by decide
    exact fun e he _ => hle e he
  obtain ⟨t, ht, hs⟩ := (last_spelling_counts hw "p").2.2 _ hlast hgreatest
  refine ⟨_, hw, ?_⟩
  obtain rfl := Except.ok.inj ht
  exact hs

/-- The last declaration of a tag does not always count: here that of `p` does, though `P` is
declared after it. -/
theorem not_last_declaration_counts :
    ¬ ∀ (w : WrittenSpec) (s : Spec), w.spec = .ok s → ∀ name d, w.IsLast name d →
      ∃ t, d.tagSpec = .ok t ∧ s.tag? name = some t := by
  intro hall
  have hw : WrittenSpec.spec ⟨.empty, [⟨"p", .flag true, []⟩, ⟨"P", .flag false, []⟩]⟩ =
      .ok ⟨.ofList [("p", ⟨.any, []⟩)], .ofList []⟩ := by
    cbv
  obtain ⟨t, ht, hs⟩ := hall _ _ hw "p" ⟨"P", .flag false, []⟩
    ⟨[⟨"p", .flag true, []⟩], [], rfl, by decide, List.forall_mem_nil _⟩
  obtain rfl := Except.ok.inj ht
  cases hs

end WrittenSpec

end ContentGrammar
