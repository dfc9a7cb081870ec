import Mathlib
import ContentGrammar.Proofs.Category.Resolution
import ContentGrammar.Proofs.Model.References
import ContentGrammar.Proofs.Spec.Replacement

/-!
# References to categories

A name refers to a category if it is `#` with letters, digits and hyphens after it and is not
reserved. Loading a spec looks at all such names, among the members of categories as well as in the
contents of the declarations in force, and is refused just if one of them is not in the table
(`WrittenSpec.references_resolved`).

A name with `#` in front and with any other character after it is not looked at. It is taken for the
name of a tag, even if the table has a category of that name (`WrittenSpec.not_all_marked_resolved`).
-/

namespace ContentGrammar

open Category (Table Sets)

namespace Contents

/-- What is ignored can be read, or else the contents cannot. -/
theorem exists_ofText {c : Contents} {m : Model} (h : c.model = .ok m) {raw : String}
    (hraw : c.Ignores raw) : ∃ t, Target.ofText raw = .ok t := by
  cases ht : Target.ofText raw with
  | ok t => exact ⟨t, rfl⟩
  | error e =>
    obtain ⟨i, hi, names, hnames, hraw⟩ := hraw
    have hdefect : (Check.target raw).defect? = some e := by
      rw [← Target.failure?_ofText, ht]
      rfl
    have hown : Check.target raw ∈ i.own :=
      Item.mem_own.mpr (.inr (.inr (.inr ⟨names, hnames, .inr ⟨raw, hraw, rfl⟩⟩)))
    have hitem := Item.defect_iff.mpr ⟨_, hown, hdefect⟩
    obtain ⟨k, hk, hdefect⟩ := exists_checks_iff.mpr ⟨i, hi, hitem⟩
    have hnone := c.failure?_model
    rw [h] at hnone
    rw [List.findSome?_eq_none_iff.mp hnone.symm k hk] at hdefect
    cases hdefect

/-- What becomes of the names in contents: each that refers to a category is in the table and stands
as that category in the model, and the model has no other categories. All other names are those of
tags and selectors, whatever they begin with. -/
structure Resolved (table : Table) (c : Contents) (m : Model) : Prop where
  reads : c.model = .ok m
  permitted : ∀ raw, c.Permits raw → isCategoryName (trimmed raw) = true →
    trimmed raw ∈ table.keys ∧ .shape (.category (trimmed raw)) ∈ m.sites
  ignored : ∀ raw, c.Ignores raw → isCategoryName (trimmed raw) = true →
    trimmed raw ∈ table.keys ∧ .target (.category (trimmed raw)) ∈ m.sites
  mentioned : ∀ name ∈ m.categoryNames, c.Mentions name
  tag : ∀ raw, c.Permits raw → isCategoryName (trimmed raw) = false → trimmed raw ≠ textName →
    trimmed raw ≠ transparentName → .shape (.tag (Ascii.lower (trimmed raw))) ∈ m.sites
  selector : ∀ raw, c.Ignores raw → isCategoryName (trimmed raw) = false → trimmed raw ≠ textName →
    ∃ selector, Selector.parse (trimmed raw) = .ok selector ∧
      .target (.selector selector) ∈ m.sites

/-- The names in contents become what they should as soon as all that refer to categories are in the
table. -/
theorem resolved {table : Table} {c : Contents} {m : Model} (h : c.model = .ok m)
    (hkeys : ∀ name, isCategoryName name = true → c.Mentions name → name ∈ table.keys) :
    c.Resolved table m where
  reads := h
  permitted raw hraw hcategory := by
    have hs := shape_mem_sites h hraw
    rw [Model.ofName_eq_category.mpr ⟨hcategory, rfl⟩] at hs
    exact ⟨hkeys _ hcategory ⟨raw, .inl hraw, rfl⟩, hs⟩
  ignored raw hraw hcategory := by
    have ht := Target.ofText_eq_category.mpr ⟨hcategory, rfl⟩
    exact ⟨hkeys _ hcategory ⟨raw, .inr hraw, rfl⟩, target_mem_sites h hraw ht⟩
  mentioned name hname := ((mem_categoryNames_iff h).mp hname).2
  tag raw hraw hcategory htext htransparent := by
    have hs := shape_mem_sites h hraw
    rwa [Model.ofName_eq_tag htext htransparent hcategory] at hs
  selector raw hraw hcategory htext := by
    obtain ⟨t, ht⟩ := exists_ofText h hraw
    have hs := target_mem_sites h hraw ht
    rw [Target.ofText, if_neg htext, if_neg (Bool.eq_false_iff.mp hcategory)] at ht
    split at ht
    case h_1 selector hparse =>
      obtain rfl := Except.ok.inj ht
      exact ⟨selector, hparse, hs⟩
    case h_2 => cases ht

end Contents

namespace WrittenSpec

/-- `w.References name`: a category is referred to by that name, among the members of a category or
in the contents of a declaration in force. -/
def References (w : WrittenSpec) (name : String) : Prop :=
  isCategoryName name = true ∧
    ((∃ category members, w.categories.get? category = some members ∧ name ∈ members) ∨
      ∃ d, w.InForce d ∧ ∃ c ∈ d.allContents, c.Mentions name)

variable {w : WrittenSpec} {s : Spec} {name : String} {e : ModelError}

theorem references_of_refers {a : String} (h : Category.Refers w.categories a name) :
    w.References name := by
  obtain ⟨members, hmembers, hmem, hcategory⟩ := h
  exact ⟨hcategory, .inl ⟨a, members, hmembers, hmem⟩⟩

theorem resolveTable_of_spec (h : w.spec = .ok s) :
    Category.resolveTable w.categories = .ok s.categories := by
  obtain ⟨tags, -, h⟩ := ok_of_bind h
  obtain ⟨sets, hsets, h⟩ := ok_of_bind h
  obtain ⟨_, -, h⟩ := ok_of_bind h
  obtain rfl := Except.ok.inj h
  exact hsets

/-- In a spec that is loaded no reference dangles. -/
theorem mem_keys_of_references (h : w.spec = .ok s) (hname : w.References name) :
    name ∈ w.categories.keys := by
  obtain ⟨hkeys, hrefers, -⟩ := Category.resolveTable_ok (resolveTable_of_spec h)
  obtain ⟨hcategory, ⟨a, members, hmembers, hmem⟩ | ⟨d, hd, c, hc, hmention⟩⟩ := hname
  · exact hrefers a name ⟨members, hmembers, hmem, hcategory⟩
  · obtain ⟨t, ht, htag⟩ := hd.tag?_eq h
    obtain ⟨m, hm, hmodel⟩ := exists_mem_of_forall₂ (Declaration.forall₂_models ht) hc
    have hknown := (Spec.checked_of_spec h _ t htag m hm).known name
      ((Contents.mem_categoryNames_iff hmodel).mpr ⟨hcategory, hmention⟩)
    rw [← hkeys, Dictionary.mem_keys_iff]
    exact Option.ne_none_iff_exists'.mp hknown

theorem error_of_checkModel {sets : Sets} {m : Model} (h : Spec.checkModel sets m = .error e) :
    ∃ name ∈ m.categoryNames, sets.get? name = none ∧ e = .unknownCategory name := by
  obtain ⟨name, hname, he⟩ := exists_error_of_forM h
  rcases error_of_bind he with he | ⟨_, -, he⟩
  · refine ⟨name, NameSet.mem_ofList.mp hname, ?_⟩
    unfold Sets.members at he
    split at he
    · cases he
    case h_2 hnone => exact ⟨hnone, (Except.error.inj he).symm⟩
  · cases he

/-- If all declarations can be read, a spec is refused because of a reference that dangles. -/
theorem exists_dangling (hread : ∀ d ∈ w.declarations, ∃ t, d.tagSpec = .ok t)
    (h : w.spec = .error e) :
    ∃ name, w.References name ∧ name ∉ w.categories.keys ∧ e = .unknownCategory name := by
  rcases w.spec_cases with ⟨tags, htags, hspec⟩ | ⟨d, hd, e', he', -⟩
  · rw [hspec] at h
    rcases error_of_bind h with h | ⟨sets, hsets, h⟩
    · obtain ⟨a, b, hab, hmissing, rfl⟩ := Category.resolveTable_error h
      exact ⟨b, references_of_refers hab, hmissing, rfl⟩
    rcases error_of_bind h with h | ⟨_, -, h⟩
    · obtain ⟨t, ht, h⟩ := exists_error_of_forM h
      obtain ⟨m, hm, h⟩ := exists_error_of_forM h
      obtain ⟨name, hname, hnone, rfl⟩ := error_of_checkModel h
      -- the models come from a declaration in force
      obtain ⟨entry, hentry, rfl⟩ := List.mem_map.mp ht
      have hfound := Dictionary.mem_entries_iff.mp (show (entry.1, entry.2) ∈ _ from hentry)
      obtain ⟨d, hd, -, hdeclared⟩ := htags.get?_lower_eq_some_iff.mp hfound
      obtain ⟨c, hc, hmodel⟩ := exists_of_mem_forall₂ (Declaration.forall₂_models hdeclared) hm
      obtain ⟨hcategory, hmention⟩ := (Contents.mem_categoryNames_iff hmodel).mp hname
      refine ⟨name, ⟨hcategory, .inr ⟨d, hd, c, hc, hmention⟩⟩, ?_, rfl⟩
      rw [← (Category.resolveTable_ok hsets).1, Dictionary.mem_keys_iff, hnone]
      nofun
    · cases h
  · obtain ⟨t, ht⟩ := hread d hd
    cases ht.symm.trans he'

/-- In a spec that is loaded all categories that are referred to are in the table, each of them stands
for what it and its references have, and wherever it is written in contents, of a tag or of a variant
and at any depth, it is taken for the category. A spec whose declarations can be read is refused just
if a reference dangles, and the error names one that does. -/
theorem references_resolved (w : WrittenSpec) :
    (∀ s, w.spec = .ok s →
      (∀ name, w.References name → name ∈ w.categories.keys) ∧
      s.categories.keys = w.categories.keys ∧
      (∀ name members, s.categories.get? name = some members →
        Category.Answers w.categories name (.ok members)) ∧
      ∀ d, w.InForce d → ∃ t, s.tag? (Ascii.lower d.tag) = some t ∧
        List.Forall₂ (Contents.Resolved w.categories) d.allContents t.models) ∧
    ((∀ d ∈ w.declarations, ∃ t, d.tagSpec = .ok t) →
      ((∃ e, w.spec = .error e) ↔ ∃ name, w.References name ∧ name ∉ w.categories.keys) ∧
      ∀ e, w.spec = .error e →
        ∃ name, w.References name ∧ name ∉ w.categories.keys ∧ e = .unknownCategory name) := by
  constructor
  · intro s h
    obtain ⟨hkeys, -, hanswers⟩ := Category.resolveTable_ok (resolveTable_of_spec h)
    refine ⟨fun _ => mem_keys_of_references h, hkeys, hanswers, fun d hd => ?_⟩
    obtain ⟨t, ht, htag⟩ := hd.tag?_eq h
    have hall : ∀ c ∈ d.allContents, ∀ m, c.model = .ok m → c.Resolved w.categories m := by
      intro c hc m hm
      refine Contents.resolved hm fun name hcategory hmention => ?_
      exact mem_keys_of_references h ⟨hcategory, .inr ⟨d, hd, c, hc, hmention⟩⟩
    have hmodels := (List.forall₂_and_left _ _).mpr ⟨hall, Declaration.forall₂_models ht⟩
    exact ⟨t, htag, hmodels.imp fun c m hcm => hcm.1 m hcm.2⟩
  · intro hread
    refine ⟨⟨fun ⟨e, he⟩ => ?_, fun ⟨name, hname, hmissing⟩ => ?_⟩, fun e => exists_dangling hread⟩
    · obtain ⟨name, hname, hmissing, -⟩ := exists_dangling hread he
      exact ⟨name, hname, hmissing⟩
    · cases h : w.spec with
      | ok s => exact absurd (mem_keys_of_references h hname) hmissing
      | error e => exact ⟨e, rfl⟩

/-- A category in contents, with blanks around it, and one among the members of that category. Where
a letter is mistyped, the spec is refused. -/
theorem references_resolved_flow :
    let table : Table := .ofList [("#flow", ["B", "#more"]), ("#more", ["#text"])]
    let declare : String → Declaration := fun name =>
      ⟨"P", .items [.repeatNames .zeroOrMore (.one name) none none], []⟩
    let w : WrittenSpec := ⟨table, [declare " #flow "]⟩
    let mistyped : WrittenSpec := ⟨table, [declare "#flwo"]⟩
    (∃ s, w.spec = .ok s ∧ "#more" ∈ w.categories.keys ∧ s.categories.keys = w.categories.keys ∧
      ∃ t, s.tag? (Ascii.lower "P") = some t ∧
        List.Forall₂ (Contents.Resolved table) (declare " #flow ").allContents t.models) ∧
    (∀ d ∈ mistyped.declarations, ∃ t, d.tagSpec = .ok t) ∧
      mistyped.spec = .error (.unknownCategory "#flwo") ∧
      ∃ name, mistyped.References name ∧ name ∉ table.keys ∧
        ModelError.unknownCategory "#flwo" = .unknownCategory name := by
  intro table declare w mistyped
  have hw : w.spec = .ok ⟨.ofList [("p", ⟨.repeated (.category "#flow") 0 none, []⟩)],
      .ofList [("#flow", .ofList ["#text", "b"]), ("#more", .ofList ["#text"])]⟩ := by
    show WrittenSpec.spec ⟨.ofList _, [⟨"P", .items [.repeatNames .zeroOrMore (.one " #flow ") none
      none], []⟩]⟩ = _
    cbv
  have hmistyped : mistyped.spec = .error (.unknownCategory "#flwo") := by
    show WrittenSpec.spec ⟨.ofList _, [⟨"P", .items [.repeatNames .zeroOrMore (.one "#flwo") none
      none], []⟩]⟩ = _
    cbv
  have hread : ∀ d ∈ mistyped.declarations, ∃ t, d.tagSpec = .ok t :=
    List.forall_mem_singleton.mpr ⟨⟨.repeated (.category "#flwo") 0 none, []⟩, by cbv⟩
  have hforce : w.InForce (declare " #flow ") :=
    ⟨⟨[], [], rfl, List.forall_mem_nil _⟩, List.forall_mem_singleton.mpr fun _ => String.le_refl _⟩
  obtain ⟨hkeys, hsets, -, hcontents⟩ := w.references_resolved.1 _ hw
  refine ⟨⟨_, hw, hkeys "#more" ⟨by decide, .inl ⟨"#flow", ["B", "#more"], by cbv, by simp⟩⟩, hsets,
    hcontents _ hforce⟩, hread, hmistyped, ?_⟩
  exact (mistyped.references_resolved.2 hread).2 _ hmistyped

/-- Not every name with `#` in front that is written in a spec that is loaded is resolved: one with a
character that categories do not have is taken for the name of a tag, though there is a category of
that name. -/
theorem not_all_marked_resolved :
    ¬ ∀ (w : WrittenSpec) (s : Spec), w.spec = .ok s → ∀ name : String, name.toList.head? = some '#' →
      name ≠ textName → name ≠ transparentName →
      (∀ d ∈ w.declarations, ∀ c ∈ d.allContents, ∀ raw, c.Permits raw → trimmed raw = name →
        name ∈ w.categories.keys ∧ Model.ofName raw = .category name) ∧
      (∀ d ∈ w.declarations, ∀ c ∈ d.allContents, ∀ raw, c.Ignores raw → trimmed raw = name →
        name ∈ w.categories.keys ∧ Target.ofText raw = .ok (.category name)) ∧
      ∀ category members, w.categories.get? category = some members → name ∈ members →
        name ∈ w.categories.keys ∧ Category.Refers w.categories category name := by
  intro hall
  let c : Contents := .items [.require (.one "#flow_x") none none none]
  have htrimmed : trimmed "#flow_x" = "#flow_x" := by cbv
  have hcategory : isCategoryName "#flow_x" = false := by cbv
  have hname : Model.ofName "#flow_x" = .tag "#flow_x" := by
    rw [Model.ofName_eq_tag] <;> rw [htrimmed]
    · cbv
    · decide
    · decide
    · exact hcategory
  have hmodel : c.model = .ok (.tag "#flow_x") := by
    show Except.ok (Model.ofName "#flow_x") = _
    rw [hname]
  have hw : WrittenSpec.spec ⟨.ofList [("#flow_x", ["b"])], [⟨"p", c, []⟩]⟩ =
      .ok ⟨.ofList [("p", ⟨.tag "#flow_x", []⟩)], .ofList [("#flow_x", .ofList ["b"])]⟩ := by
    rw [WrittenSpec.spec, List.mapM_cons, Declaration.tagSpec, hmodel]
    show Spec.new (.ofList [("p", ⟨.tag "#flow_x", []⟩)]) (.ofList [("#flow_x", ["b"])]) = _
    cbv
  have hpermits : c.Permits "#flow_x" :=
    ⟨_, List.mem_singleton.mpr rfl, .one "#flow_x", rfl, List.mem_singleton.mpr rfl⟩
  have hcontents := (hall _ _ hw "#flow_x" (by cbv) (by decide) (by decide)).1 ⟨"p", c, []⟩
    List.mem_cons_self c List.mem_cons_self _ hpermits htrimmed
  cases hname.symm.trans hcontents.2

end WrittenSpec

end ContentGrammar
