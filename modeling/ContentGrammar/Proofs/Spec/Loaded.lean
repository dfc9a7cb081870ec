import ContentGrammar.Proofs.Category
import ContentGrammar.Proofs.Model.Author
import ContentGrammar.Proofs.Spec.Requests
import ContentGrammar.Proofs.Text.Dictionary
import ContentGrammar.Spec.Declaration

/-!
# What loading leaves to go wrong

Loading checks that every choice offers something and that every category is known
(`Spec.checked_of_spec`). It does not look into the exclusions: one whose targets are all categories
without members passes. So once a spec is loaded, the pattern of a place is missing for one of two
reasons (`loaded_pattern_missing`): all models from the place up to the document inherit, or one
of them has an exclusion that forbids nothing.
-/

namespace ContentGrammar

open Category (Sets)

namespace Model

/-- A model without a choice between nothing, all categories of which are known. -/
structure Checked (sets : Sets) (m : Model) : Prop where
  choices : Site.shape (.choice []) ∉ m.sites
  known : ∀ name ∈ m.categoryNames, sets.get? name ≠ none

/-- Whether some exclusion in a model has no targets but categories without members. -/
def ForbidsNothing (sets : Sets) (m : Model) : Prop :=
  ∃ scope targets, Site.shape (.excluding scope targets) ∈ m.sites ∧
    targets.all (forbidsNothing sets) = true

variable {sets : Sets} {parent : Option Pattern} {m : Model} {ms : List Model} {s : Site}
  {name : String} {e : ModelError}

theorem mem_categoryNamesAll : name ∈ categoryNamesAll ms ↔ ∃ m ∈ ms, name ∈ m.categoryNames := by
  induction ms with
  | nil => simp [categoryNamesAll]
  | cons m ms ih => simp [categoryNamesAll, ih]

/-- A category is named wherever it stands, as content or as a target. -/
theorem mem_categoryNames (hs : s ∈ m.sites)
    (hname : s = .shape (.category name) ∨ s = .target (.category name)) :
    name ∈ m.categoryNames := by
  induction m with
  | any | tag _ | text | transparent =>
    rw [sites, List.mem_singleton] at hs
    subst hs
    rcases hname with h | h <;> cases h
  | category other =>
    rw [sites, List.mem_singleton] at hs
    subst hs
    rcases hname with h | h <;> cases h
    exact List.mem_singleton.mpr rfl
  | sequence ms ih | choice ms ih =>
    rw [sites] at hs
    rcases List.mem_cons.mp hs with rfl | hs
    · rcases hname with h | h <;> cases h
    · obtain ⟨m, hm, hs⟩ := mem_sitesAll.mp hs
      exact mem_categoryNamesAll.mpr ⟨m, hm, ih m hm hs⟩
  | optional m ih | repeated m _ _ ih =>
    rw [sites] at hs
    rcases List.mem_cons.mp hs with rfl | hs
    · rcases hname with h | h <;> cases h
    · exact ih hs
  | excluding scope targets ih =>
    rw [sites] at hs
    rw [categoryNames, List.mem_append]
    rcases List.mem_cons.mp hs with rfl | hs
    · rcases hname with h | h <;> cases h
    · rcases List.mem_append.mp hs with hs | hs
      · obtain ⟨t, ht, rfl⟩ := List.mem_map.mp hs
        rcases hname with h | h <;> cases h
        exact .inr (List.mem_filterMap.mpr ⟨_, ht, rfl⟩)
      · exact .inl (ih hs)

theorem unknown?_of_known (h : sets.get? name ≠ none) : unknown? sets name = none := by
  rw [unknown?, if_neg]
  rwa [Option.isNone_iff_eq_none]

/-- A checked model can be at fault in two ways only. -/
theorem Checked.fault_of_error (hm : m.Checked sets) (he : m.compile sets parent = .error e) :
    e = .missingInheritance ∧ m.inherits = true ∧ parent = none ∨
      e = .emptyForbiddenSet ∧ m.ForbidsNothing sets := by
  obtain ⟨s, hs, he⟩ := List.exists_of_findSome?_eq_some (compile_eq_error_iff.mp he)
  have hknown : ∀ name, s = .shape (.category name) ∨ s = .target (.category name) →
      unknown? sets name = none :=
    fun name h => unknown?_of_known (hm.known name (mem_categoryNames hs h))
  -- the known names and the choices that offer something rule out all other sites
  unfold Site.fault? at he
  split at he
  case h_1 name =>
    rw [hknown name (.inl rfl)] at he
    cases he
  case h_2 name =>
    rw [hknown name (.inr rfl)] at he
    cases he
  case h_3 ms =>
    cases ms with
    | nil => exact absurd hs hm.choices
    | cons n ms => cases he
  case h_4 =>
    split at he
    case isTrue hparent =>
      exact .inl ⟨(Option.some.inj he).symm, (inherits_iff m).mpr hs,
        Option.isNone_iff_eq_none.mp hparent⟩
    case isFalse => cases he
  case h_5 scope targets =>
    split at he
    case isTrue hall => exact .inr ⟨(Option.some.inj he).symm, scope, targets, hs, hall⟩
    case isFalse => cases he
  case h_6 => cases he

end Model

/-! ## What is loaded -/

/-- What has been done for all of a list has been done for each. -/
theorem ok_of_forM {α : Type} {f : α → Except ModelError Unit} {as : List α}
    (h : as.forM f = .ok ()) : ∀ a ∈ as, f a = .ok () := by
  induction as with
  | nil => nofun
  | cons a as ih =>
    obtain ⟨_, ha, has⟩ := ok_of_bind h
    intro b hb
    rcases List.mem_cons.mp hb with rfl | hb
    · exact ha
    · exact ih has b hb

/-- What is wrong with all of a list is wrong with one of its items. -/
theorem exists_error_of_forM {α : Type} {f : α → Except ModelError Unit} {as : List α}
    {e : ModelError} (h : as.forM f = .error e) : ∃ a ∈ as, f a = .error e := by
  induction as with
  | nil => cases h
  | cons a as ih =>
    rcases error_of_bind h with ha | ⟨_, -, has⟩
    · exact ⟨a, List.mem_cons_self, ha⟩
    · obtain ⟨b, hb, hfb⟩ := ih has
      exact ⟨b, List.mem_cons_of_mem _ hb, hfb⟩

/-- What comes out of all of a list has come out of one of them. -/
theorem mem_of_mapM {α β : Type} {f : α → Except ModelError β} {as : List α} {bs : List β}
    (h : as.mapM f = .ok bs) {b : β} (hb : b ∈ bs) : ∃ a ∈ as, f a = .ok b :=
  exists_of_mem_forall₂ (forall₂_of_mapM h) hb

/-- The contents of a declaration: those of the tag, and those of its variants. -/
def Declaration.allContents (d : Declaration) : List Contents :=
  d.contents :: d.variants.map (·.contents)

/-- The models that are declared are those of the contents that are written. -/
theorem Declaration.forall₂_models {d : Declaration} {t : TagSpec} (h : d.tagSpec = .ok t) :
    List.Forall₂ (fun c m => c.model = .ok m) d.allContents t.models := by
  obtain ⟨default, hdefault, h⟩ := ok_of_bind h
  obtain ⟨variants, hvariants, h⟩ := ok_of_bind h
  obtain rfl := Except.ok.inj h
  refine .cons hdefault ?_
  rw [List.forall₂_map_left_iff, List.forall₂_map_right_iff]
  refine (forall₂_of_mapM hvariants).imp fun v w hvw => ?_
  obtain ⟨condition, -, hvw⟩ := ok_of_bind hvw
  obtain ⟨m, hm, hvw⟩ := ok_of_bind hvw
  obtain rfl := Except.ok.inj hvw
  exact hm

namespace Spec

/-- A spec all models of which are checked. -/
def Checked (s : Spec) : Prop :=
  ∀ name t, s.tag? name = some t → ∀ m ∈ t.models, m.Checked s.categories

theorem known_of_checkModel {sets : Sets} {m : Model} (h : checkModel sets m = .ok ()) :
    ∀ name ∈ m.categoryNames, sets.get? name ≠ none := by
  intro name hname
  obtain ⟨members, hmembers, -⟩ := ok_of_bind (ok_of_forM h name (NameSet.mem_ofList.mpr hname))
  exact Category.members_ok hmembers

/-- The tags of a spec are some of those that it is made of, and their categories are known. -/
theorem new_ok {tags : Dictionary TagSpec} {table : Category.Table} {s : Spec}
    (h : Spec.new tags table = .ok s) {name : String} {t : TagSpec} (ht : s.tag? name = some t) :
    t ∈ tags.values ∧ ∀ m ∈ t.models, checkModel s.categories m = .ok () := by
  obtain ⟨sets, -, h⟩ := ok_of_bind h
  obtain ⟨_, hcheck, h⟩ := ok_of_bind h
  obtain rfl := Except.ok.inj h
  have hentry := Dictionary.mem_of_find ht
  constructor
  · obtain ⟨e, he, heq⟩ := List.mem_map.mp (Dictionary.mem_ofList hentry)
    exact List.mem_map.mpr ⟨e, he, congrArg Prod.snd heq⟩
  · exact ok_of_forM (ok_of_forM hcheck t (List.mem_map.mpr ⟨_, hentry, rfl⟩))

/-- The models of a spec that is loaded are those of written contents. -/
theorem exists_contents {w : WrittenSpec} {s : Spec} (h : w.spec = .ok s) {name : String}
    {t : TagSpec} (ht : s.tag? name = some t) {m : Model} (hm : m ∈ t.models) :
    ∃ c : Contents, c.model = .ok m := by
  obtain ⟨tags, htags, h⟩ := ok_of_bind h
  obtain ⟨e, he, rfl⟩ := List.mem_map.mp (new_ok h ht).1
  obtain ⟨d, -, hd⟩ := mem_of_mapM htags (Dictionary.mem_ofList he)
  obtain ⟨t, hdeclared, hd⟩ := ok_of_bind hd
  obtain rfl := Except.ok.inj hd
  obtain ⟨c, -, hc⟩ := exists_of_mem_forall₂ (Declaration.forall₂_models hdeclared) hm
  exact ⟨c, hc⟩

/-- Loading checks every model. -/
theorem checked_of_spec {w : WrittenSpec} {s : Spec} (h : w.spec = .ok s) : s.Checked := by
  intro name t ht m hm
  obtain ⟨c, hc⟩ := exists_contents h ht hm
  obtain ⟨tags, -, h⟩ := ok_of_bind h
  exact ⟨Contents.noChoice hc, known_of_checkModel ((new_ok h ht).2 m hm)⟩

variable {s : Spec} {h : Head} {above : List Head} {m : Model} {e : ModelError}

/-- The model that a spec has for an element is one of those of a tag, or permits anything. -/
theorem modelOf_cases (s : Spec) (h : Head) (above : List Head) :
    (∃ name t, s.tag? name = some t ∧ s.modelOf h above ∈ t.models) ∨ s.modelOf h above = .any := by
  unfold Spec.modelOf
  split
  · rename_i t ht
    refine .inl ⟨_, t, ht, ?_⟩
    unfold TagSpec.activeModel
    split
    · rename_i v hv
      exact List.mem_cons_of_mem _ (List.mem_map.mpr ⟨v, List.mem_of_find?_eq_some hv, rfl⟩)
    · exact List.mem_cons_self
  · exact .inr rfl

/-- The model that a checked spec has for an element is checked. -/
theorem Checked.modelOf (hs : s.Checked) (h : Head) (above : List Head) :
    (s.modelOf h above).Checked s.categories := by
  rcases s.modelOf_cases h above with ⟨name, t, ht, hm⟩ | heq
  · exact hs name t ht _ hm
  · rw [heq]
    refine ⟨fun hsite => ?_, fun _ hname => absurd hname List.not_mem_nil⟩
    rw [Model.sites] at hsite
    cases List.mem_singleton.mp hsite

/-- The models that the pattern of a model depends on: the model itself and, as long as there is one
to inherit from, those of the elements around. -/
def lineage (s : Spec) (m : Model) : List Head → List Model
  | [] => [m]
  | e :: around => if m.inherits then m :: s.lineage (s.modelOf e around) around else [m]

/-- Whether the pattern of a model depends on the elements around up to the top, and then on more. -/
def Rootless (s : Spec) (m : Model) (above : List Head) : Prop :=
  ∀ n ∈ s.lineage m above, n.inherits = true

/-- Whether a model that the pattern of a model depends on has an exclusion that forbids nothing. -/
def InheritsVoid (s : Spec) (m : Model) (above : List Head) : Prop :=
  ∃ n ∈ s.lineage m above, n.ForbidsNothing s.categories

/-- A checked model of a checked spec has no pattern for one of two reasons only. -/
theorem Checked.patternOf_error (hs : s.Checked) (hm : m.Checked s.categories)
    (he : s.patternOf m above = .error e) :
    e = .missingInheritance ∧ s.Rootless m above ∨ e = .emptyForbiddenSet ∧ s.InheritsVoid m above := by
  induction above generalizing m with
  | nil =>
    rw [Rootless, InheritsVoid, lineage]
    rcases hm.fault_of_error he with ⟨rfl, hi, -⟩ | ⟨rfl, hvoid⟩
    · exact .inl ⟨rfl, fun n hn => List.mem_singleton.mp hn ▸ hi⟩
    · exact .inr ⟨rfl, m, List.mem_singleton.mpr rfl, hvoid⟩
  | cons head around ih =>
    rw [Rootless, InheritsVoid, lineage]
    by_cases hi : m.inherits = true
    · rw [patternOf_inheriting hi] at he
      rw [if_pos hi]
      cases hq : s.patternOf (s.modelOf head around) around with
      | error e' =>
        rw [hq] at he
        obtain rfl := Except.error.inj he
        rcases ih (hs.modelOf head around) hq with ⟨rfl, hroot⟩ | ⟨rfl, n, hn, hvoid⟩
        · refine .inl ⟨rfl, fun n hn => ?_⟩
          rcases List.mem_cons.mp hn with rfl | hn
          · exact hi
          · exact hroot n hn
        · exact .inr ⟨rfl, n, List.mem_cons_of_mem _ hn, hvoid⟩
      | ok q =>
        rw [hq] at he
        -- with a pattern to inherit, only the model itself can be at fault
        rcases hm.fault_of_error he with ⟨-, -, hnone⟩ | ⟨rfl, hvoid⟩
        · cases hnone
        · exact .inr ⟨rfl, m, List.mem_cons_self, hvoid⟩
    · rw [patternOf_of_not_inherits (Bool.eq_false_iff.mpr hi)] at he
      rw [if_neg hi]
      rcases hm.fault_of_error he with ⟨-, htrue, -⟩ | ⟨rfl, hvoid⟩
      · exact absurd htrue hi
      · exact .inr ⟨rfl, m, List.mem_singleton.mpr rfl, hvoid⟩

/-- Once a spec is loaded, whatever has been asked before, a place of a document has a pattern, or all
models from it up to the document inherit, which is a missing inheritance, or one of those that its
pattern depends on excludes nothing but categories without members, which goes unnoticed when the
spec is loaded. -/
theorem loaded_pattern_missing {w : WrittenSpec} {s : Spec} (hw : w.spec = .ok s)
    (forest : List Markup) (earlier : List Request)
    (hearlier : ∀ r ∈ earlier, r.place ∈ (Document.ofMarkup forest).places)
    {p : Place} (hp : p ∈ (Document.ofMarkup forest).places) {e : ModelError}
    (he : (s.answer (s.answers ∅ earlier).2 (.ofPlace p)).1 = .error e) :
    e = .missingInheritance ∧ s.Rootless (s.modelOf p.node.head p.above) p.above ∨
      e = .emptyForbiddenSet ∧ s.InheritsVoid (s.modelOf p.node.head p.above) p.above := by
  have hd := Document.numbered_ofMarkup forest
  have hvalid : Memo.Valid s _ _ := (answers_spec hd valid_empty hearlier).2
  rw [show (s.answer _ (.ofPlace p)).1 = s.patternAt p from (patternFor_spec hd hvalid hp).1] at he
  have hs := checked_of_spec hw
  exact hs.patternOf_error (hs.modelOf _ _) he

/-- A transparent element at the top of a document has nothing to inherit. -/
theorem loaded_pattern_missing_top :
    let w : WrittenSpec :=
      ⟨.empty, [⟨"a", .items [.require (.one "#transparent") none none none], []⟩]⟩
    let s : Spec := ⟨.ofList [("a", ⟨.transparent, []⟩)], .empty⟩
    let d := Document.ofMarkup [.element "a" .empty [] none]
    ∃ p ∈ d.places, w.spec = .ok s ∧
      (s.answer (s.answers ∅ [.ofPlace p]).2 (.ofPlace p)).1 = .error .missingInheritance ∧
      s.Rootless (s.modelOf p.node.head p.above) p.above := by
  intro w s d
  have hp : (⟨.element ⟨1, "a", [], none⟩ [], []⟩ : Place) ∈ d.places := by
    show _ ∈ [_, _]
    exact List.mem_cons_of_mem _ List.mem_cons_self
  refine ⟨_, hp, rfl, ?_⟩
  have hd := Document.numbered_ofMarkup [.element "a" .empty [] none]
  have hrs : ∀ r ∈ [Request.ofPlace ⟨.element ⟨1, "a", [], none⟩ [], []⟩], r.place ∈ d.places :=
    fun r hr => List.mem_singleton.mp hr ▸ hp
  have hvalid : Memo.Valid s _ _ := (answers_spec hd valid_empty hrs).2
  have he := Eq.trans (patternFor_spec hd hvalid hp).1 (show s.patternAt _ = .error _ from rfl)
  refine ⟨he, ?_⟩
  rcases loaded_pattern_missing (show w.spec = .ok s from rfl) _ _ hrs hp he with
    ⟨-, hroot⟩ | ⟨hne, -⟩
  · exact hroot
  · cases hne

/-- Not all that can go wrong but a missing inheritance is found when a spec is loaded: an exclusion
of a category without members is not. -/
theorem not_loaded_pattern_or_inheritance :
    ¬ ∀ (w : WrittenSpec) (s : Spec), w.spec = .ok s →
      ∀ (forest : List Markup) (earlier : List Request),
        (∀ r ∈ earlier, r.place ∈ (Document.ofMarkup forest).places) →
        ∀ p ∈ (Document.ofMarkup forest).places, ∀ e,
          (s.answer (s.answers ∅ earlier).2 (.ofPlace p)).1 = .error e → e = .missingInheritance := by
  intro hall
  let table : Category.Table := Dictionary.empty.insert "#none" []
  let sets : Sets := Dictionary.empty.insert "#none" .empty
  let s : Spec :=
    ⟨.ofList [("p", ⟨.excluding (.repeated (.tag "b") 0 none) [.category "#none"], []⟩)], sets⟩
  have hsets : Category.resolveTable table = .ok sets := by
    show Except.bind (Category.Resolver.resolveNames (.new table) ["#none"]) _ = _
    rw [Category.Resolver.resolveNames, Category.Resolver.resolve,
      show (Category.Resolver.new table).known.get? "#none" = none from rfl]
    dsimp only
    rw [show Category.expand (Category.Resolver.new table).table "#none" = .ok .empty from
      Category.expand_of_nil rfl]
    rfl
  have hspec : (⟨table, [⟨"p", .items [.repeatNames .zeroOrMore (.one "b") none
      (some (.one "#none"))], []⟩]⟩ : WrittenSpec).spec = .ok s := by
    show Except.bind (Category.resolveTable table) _ = _
    rw [hsets]
    rfl
  have hd := Document.numbered_ofMarkup [.element "p" .empty [] none]
  have hp : (⟨.element ⟨1, "p", [], none⟩ [], []⟩ : Place) ∈
      (Document.ofMarkup [.element "p" .empty [] none]).places := by
    show _ ∈ [_, _]
    exact List.mem_cons_of_mem _ List.mem_cons_self
  have he := Eq.trans (patternFor_spec hd (s := s) valid_empty hp).1
    (show s.patternAt _ = .error .emptyForbiddenSet from rfl)
  cases hall _ s hspec _ [] nofun _ hp _ he

end Spec

end ContentGrammar
