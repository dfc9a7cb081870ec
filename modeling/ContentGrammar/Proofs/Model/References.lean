import ContentGrammar.Proofs.Model.Defect
import ContentGrammar.Proofs.Spec.Loaded

/-!
# The names in written contents

The leaves of a model, and the targets of its exclusions, are those that are written in the contents
which it is the model of: no name is lost at any depth, and none is added (`Contents.mem_sites_iff`).
So the categories that a model names are the names of categories that are written
(`Contents.mem_categoryNames_iff`).
-/

namespace ContentGrammar

open Model (Site sitesAll mem_sitesAll)

/-! ## Leaves -/

namespace Model

/-- Whether a site is the leaf of a name, or a target. -/
def Site.IsLeaf : Site → Prop
  | .shape .text | .shape .transparent | .shape (.category _) | .shape (.tag _) | .target _ => True
  | _ => False

variable {s : Site} {m n : Model} {ms : List Model}

theorem mem_sites_sequence (hs : s.IsLeaf) : s ∈ (sequence ms).sites ↔ ∃ m ∈ ms, s ∈ m.sites := by
  rw [sites, List.mem_cons, mem_sitesAll, or_iff_right]
  rintro rfl
  exact hs

theorem mem_sites_choice (hs : s.IsLeaf) : s ∈ (choice ms).sites ↔ ∃ m ∈ ms, s ∈ m.sites := by
  rw [sites, List.mem_cons, mem_sitesAll, or_iff_right]
  rintro rfl
  exact hs

theorem mem_sites_optional (hs : s.IsLeaf) : s ∈ (optional m).sites ↔ s ∈ m.sites := by
  rw [sites, List.mem_cons, or_iff_right]
  rintro rfl
  exact hs

/-- Repeating a model does not change its leaves. -/
theorem mem_sites_repetition (hs : s.IsLeaf) {least : Nat} {most : Option Nat}
    (h : m.repetition least most = .ok n) : s ∈ n.sites ↔ s ∈ m.sites := by
  obtain ⟨rfl, -⟩ := ok_of_repetition h
  rw [sites, List.mem_cons, or_iff_right]
  rintro rfl
  exact hs

theorem mem_sites_ofSequence (hs : s.IsLeaf) :
    s ∈ (ofSequence ms).sites ↔ ∃ m ∈ ms, s ∈ m.sites := by
  unfold ofSequence
  split
  · simp
  · exact mem_sites_sequence hs

/-- What is to be ignored adds its targets. -/
theorem mem_sites_ignoring (hs : s.IsLeaf) {ignore : Option Names}
    (h : m.ignoring ignore = .ok n) : s ∈ n.sites ↔ s ∈ m.sites ∨
      ∃ names, ignore = some names ∧ ∃ raw ∈ names.toList, ∃ t,
        Target.ofText raw = .ok t ∧ s = .target t := by
  cases ignore with
  | none =>
    obtain rfl := Except.ok.inj h
    simp
  | some names =>
    obtain ⟨targets, htargets, h⟩ := ok_of_bind h
    have hall := forall₂_of_mapM htargets
    -- targets are read one by one
    have hmem : (∃ t ∈ targets, s = .target t) ↔
        ∃ raw ∈ names.toList, ∃ t, Target.ofText raw = .ok t ∧ s = .target t := by
      constructor
      · rintro ⟨t, ht, rfl⟩
        obtain ⟨raw, hraw, hread⟩ := exists_of_mem_forall₂ hall ht
        exact ⟨raw, hraw, t, hread, rfl⟩
      · rintro ⟨raw, hraw, t, hread, rfl⟩
        obtain ⟨t', ht', hread'⟩ := exists_mem_of_forall₂ hall hraw
        obtain rfl := Except.ok.inj (hread.symm.trans hread')
        exact ⟨t, ht', rfl⟩
    rw [exclusion] at h
    split at h
    · cases h
    · obtain rfl := Except.ok.inj h
      have hshape : s ≠ .shape (.excluding m targets) := by
        rintro rfl
        exact hs
      rw [sites, List.mem_cons, or_iff_right hshape, List.mem_append, List.mem_map, or_comm]
      simp only [Option.some.injEq, exists_eq_left']
      rw [← hmem]
      simp only [eq_comm]

/-- A category that is named stands somewhere, as content or as a target. -/
theorem mem_sites_of_mem_categoryNames {name : String} (h : name ∈ m.categoryNames) :
    .shape (.category name) ∈ m.sites ∨ .target (.category name) ∈ m.sites := by
  induction m with
  | any | tag _ | text | transparent => cases h
  | category other =>
    obtain rfl := List.mem_singleton.mp h
    exact .inl (List.mem_singleton.mpr rfl)
  | sequence ms ih | choice ms ih =>
    obtain ⟨m, hm, hname⟩ := mem_categoryNamesAll.mp h
    have hsites : ∀ s ∈ m.sites, s ∈ sitesAll ms := fun s hs => mem_sitesAll.mpr ⟨m, hm, hs⟩
    rw [sites]
    exact (ih m hm hname).imp (fun hs => List.mem_cons_of_mem _ (hsites _ hs))
      fun hs => List.mem_cons_of_mem _ (hsites _ hs)
  | optional m ih | repeated m _ _ ih =>
    rw [sites]
    exact (ih h).imp (List.mem_cons_of_mem _) (List.mem_cons_of_mem _)
  | excluding scope targets ih =>
    -- the name is that of a category in the scope, or of one among the targets
    rw [sites]
    rcases List.mem_append.mp h with h | h
    · have hsites : ∀ s ∈ scope.sites, s ∈ targets.map Site.target ++ scope.sites :=
        fun s hs => List.mem_append_right _ hs
      exact (ih h).imp (fun hs => List.mem_cons_of_mem _ (hsites _ hs))
        fun hs => List.mem_cons_of_mem _ (hsites _ hs)
    · obtain ⟨t, ht, heq⟩ := List.mem_filterMap.mp h
      split at heq
      · obtain rfl := Option.some.inj heq
        refine .inr (List.mem_cons_of_mem _ (List.mem_append_left _ ?_))
        exact List.mem_map.mpr ⟨_, ht, rfl⟩
      · cases heq

theorem sites_ofName (raw : String) : (ofName raw).sites = [.shape (ofName raw)] := by
  unfold ofName
  dsimp only
  split
  · rfl
  split
  · rfl
  split
  · rfl
  · rfl

theorem isLeaf_ofName (raw : String) : (Site.shape (ofName raw)).IsLeaf := by
  unfold ofName
  dsimp only
  split
  · trivial
  split
  · trivial
  split
  · trivial
  · trivial

end Model

/-! ## What is written -/

/-- `i.Writes s`: the site `s` is written in `i` itself, by a name to permit or by a target to
ignore. -/
inductive Item.Writes (i : Item) : Site → Prop
  | name {names raw} : i.names? = some names → raw ∈ names.toList → Writes i (.shape (.ofName raw))
  | target {names raw t} : i.ignore? = some names → raw ∈ names.toList →
      Target.ofText raw = .ok t → Writes i (.target t)

variable {s : Site} {m : Model}

/-- The leaves of a choice between names are these names. -/
theorem Names.mem_sites_iff (hs : s.IsLeaf) {names : Names} (h : names.model = .ok m) :
    s ∈ m.sites ↔ ∃ raw ∈ names.toList, s = .shape (.ofName raw) := by
  rcases ok_of_model h with ⟨raw, hraw, rfl⟩ | ⟨-, rfl⟩
  · simp [hraw, Model.sites_ofName]
  · simp [Model.mem_sites_choice hs, Model.sites_ofName]

/-- What is written in an item are its names and its targets. -/
theorem Item.writes_iff {i : Item} : i.Writes s ↔
    (∃ names, i.names? = some names ∧ ∃ raw ∈ names.toList, s = .shape (.ofName raw)) ∨
      ∃ names, i.ignore? = some names ∧ ∃ raw ∈ names.toList, ∃ t,
        Target.ofText raw = .ok t ∧ s = .target t := by
  constructor
  · intro h
    cases h with
    | name hi hraw => exact .inl ⟨_, hi, _, hraw, rfl⟩
    | target hi hraw hread => exact .inr ⟨_, hi, _, hraw, _, hread, rfl⟩
  · rintro (⟨names, hi, raw, hraw, rfl⟩ | ⟨names, hi, raw, hraw, t, hread, rfl⟩)
    · exact .name hi hraw
    · exact .target hi hraw hread

theorem mem_allItems {is : List Item} {j : Item} : j ∈ allItems is ↔ ∃ i ∈ is, j ∈ i.all := by
  induction is with
  | nil => simp [allItems]
  | cons i is ih => simp [allItems, ih]

theorem mem_allAlternatives {as : List (List Item)} {j : Item} :
    j ∈ allAlternatives as ↔ ∃ is ∈ as, ∃ i ∈ is, j ∈ i.all := by
  induction as with
  | nil => simp [allAlternatives]
  | cons is as ih => simp [allAlternatives, mem_allItems, ih]

/-- The leaves of several items are those that are written in them. -/
theorem mem_sites_itemModels (hs : s.IsLeaf) {is : List Item} {ms : List Model}
    (his : ∀ i ∈ is, ∀ m, i.model = .ok m → (s ∈ m.sites ↔ ∃ j ∈ i.all, j.Writes s))
    (h : itemModels is = .ok ms) :
    s ∈ (Model.ofSequence ms).sites ↔ ∃ j ∈ allItems is, j.Writes s := by
  have hall := forall₂_of_itemModels h
  rw [Model.mem_sites_ofSequence hs]
  constructor
  · rintro ⟨m, hm, hmem⟩
    obtain ⟨i, hi, hmodel⟩ := exists_of_mem_forall₂ hall hm
    obtain ⟨j, hj, hwrites⟩ := (his i hi m hmodel).mp hmem
    exact ⟨j, mem_allItems.mpr ⟨i, hi, hj⟩, hwrites⟩
  · rintro ⟨j, hj, hwrites⟩
    obtain ⟨i, hi, hj⟩ := mem_allItems.mp hj
    obtain ⟨m, hm, hmodel⟩ := exists_mem_of_forall₂ hall hi
    exact ⟨m, hm, (his i hi m hmodel).mpr ⟨j, hj, hwrites⟩⟩

/-- The leaves of the model of an item are those that are written in the items in it. -/
theorem Item.mem_sites_iff (hs : s.IsLeaf) {i : Item} (h : i.model = .ok m) :
    s ∈ m.sites ↔ ∃ j ∈ i.all, j.Writes s := by
  induction i generalizing m with
  | require what least most ignore =>
    rw [Item.model] at h
    obtain ⟨n, hn, h⟩ := ok_of_bind h
    -- bounds that are both 1 make no repetition, and one would have the same leaves
    obtain ⟨n', hn', h⟩ : ∃ n' : Model, (s ∈ n'.sites ↔ s ∈ n.sites) ∧
        n'.ignoring ignore = (.ok m : Except ModelError Model) := by
      dsimp only at h
      split at h
      · exact ⟨n, Iff.rfl, h⟩
      · obtain ⟨n', hn', h⟩ := ok_of_bind h
        exact ⟨n', Model.mem_sites_repetition hs hn', h⟩
    rw [Model.mem_sites_ignoring hs h, hn', Names.mem_sites_iff hs hn]
    simp [all, writes_iff, names?, ignore?]
  | optional what ignore =>
    rw [Item.model] at h
    obtain ⟨n, hn, h⟩ := ok_of_bind h
    rw [Model.mem_sites_ignoring hs h, Model.mem_sites_optional hs, Names.mem_sites_iff hs hn]
    simp [all, writes_iff, names?, ignore?]
  | repeatNames quantity what most ignore =>
    rw [Item.model] at h
    obtain ⟨n, hn, h⟩ := ok_of_bind h
    obtain ⟨n', hn', h⟩ := ok_of_bind h
    rw [Model.mem_sites_ignoring hs h, Model.mem_sites_repetition hs hn',
      Names.mem_sites_iff hs hn]
    simp [all, writes_iff, names?, ignore?]
  | repeatItems quantity what most ignore ih =>
    rw [Item.model] at h
    obtain ⟨ms, hms, h⟩ := ok_of_bind h
    obtain ⟨n', hn', h⟩ := ok_of_bind h
    rw [Model.mem_sites_ignoring hs h, Model.mem_sites_repetition hs hn',
      mem_sites_itemModels hs (fun i hi _ => ih i hi) hms]
    simp only [all, List.mem_cons, exists_eq_or_imp, writes_iff (i := .repeatItems _ _ _ _), names?,
      ignore?, reduceCtorEq, false_and, exists_false, false_or]
    exact or_comm
  | choice alternatives ih =>
    rw [Item.model] at h
    split at h
    · cases h
    · obtain ⟨ms, hms, h⟩ := ok_of_bind h
      obtain rfl := Except.ok.inj h
      have hall := forall₂_of_alternativeModels hms
      -- a choice writes nothing itself, only what it offers does
      have hown : ¬ (Item.choice alternatives).Writes s := by
        simp [writes_iff, names?, ignore?]
      rw [Model.mem_sites_choice hs]
      simp only [all, List.mem_cons, exists_eq_or_imp, hown, false_or]
      constructor
      · rintro ⟨m, hm, hmem⟩
        obtain ⟨is, his, ns, hns, rfl⟩ := exists_of_mem_forall₂ hall hm
        obtain ⟨j, hj, hwrites⟩ :=
          (mem_sites_itemModels hs (fun i hi _ => ih is his i hi) hns).mp hmem
        obtain ⟨i, hi, hj⟩ := mem_allItems.mp hj
        exact ⟨j, mem_allAlternatives.mpr ⟨is, his, i, hi, hj⟩, hwrites⟩
      · rintro ⟨j, hj, hwrites⟩
        obtain ⟨is, his, i, hi, hj⟩ := mem_allAlternatives.mp hj
        obtain ⟨m, hm, ns, hns, rfl⟩ := exists_mem_of_forall₂ hall his
        refine ⟨_, hm, (mem_sites_itemModels hs (fun i hi _ => ih is his i hi) hns).mpr ?_⟩
        exact ⟨j, mem_allItems.mpr ⟨i, hi, hj⟩, hwrites⟩

/-- The leaves of the model of contents are those that are written in them, at any depth. -/
theorem Contents.mem_sites_iff (hs : s.IsLeaf) {c : Contents} (h : c.model = .ok m) :
    s ∈ m.sites ↔ ∃ i ∈ c.all, i.Writes s := by
  cases c with
  | flag anything =>
    cases anything with
    | false =>
      obtain rfl := Except.ok.inj h
      simp [Model.mem_sites_sequence hs, all]
    | true =>
      obtain rfl := Except.ok.inj h
      rw [Model.sites, List.mem_singleton, all]
      refine iff_of_false ?_ ?_
      · rintro rfl
        exact hs.elim
      · rintro ⟨_, hi, -⟩
        exact List.not_mem_nil hi
  | items is =>
    obtain ⟨ms, hms, h⟩ := ok_of_bind h
    obtain rfl := Except.ok.inj h
    exact mem_sites_itemModels hs (fun _ _ _ => Item.mem_sites_iff hs) hms

/-! ## What is named -/

theorem isCategoryName_textName : isCategoryName textName = false := by
  decide

theorem isCategoryName_transparentName : isCategoryName transparentName = false := by
  decide

/-- A name that can be that of a category stands for the category, and no other name does. -/
theorem Model.ofName_eq_category {raw name : String} :
    ofName raw = .category name ↔ isCategoryName (trimmed raw) = true ∧ trimmed raw = name := by
  unfold ofName
  dsimp only
  split
  case isTrue htext => simp [htext, isCategoryName_textName]
  split
  case isTrue htransparent => simp [htransparent, isCategoryName_transparentName]
  split <;> simp [*]

/-- Any name but that of text, that of the transparent model or that of a category is a tag's. -/
theorem Model.ofName_eq_tag {raw : String} (htext : trimmed raw ≠ textName)
    (htransparent : trimmed raw ≠ transparentName) (h : isCategoryName (trimmed raw) = false) :
    ofName raw = .tag (Ascii.lower (trimmed raw)) := by
  unfold ofName
  dsimp only
  rw [if_neg htext, if_neg htransparent, if_neg (Bool.eq_false_iff.mp h)]

/-- Targets and names are taken for categories alike. -/
theorem Target.ofText_eq_category {raw name : String} :
    ofText raw = .ok (.category name) ↔ isCategoryName (trimmed raw) = true ∧ trimmed raw = name := by
  unfold ofText
  dsimp only
  split
  case isTrue htext => simp [htext, isCategoryName_textName]
  split
  case isTrue h => simp [h]
  case isFalse h =>
    simp only [h]
    split <;> simp

namespace Contents

/-- `c.Permits raw`: the contents have `raw` among the names to permit, at any depth. -/
def Permits (c : Contents) (raw : String) : Prop :=
  ∃ i ∈ c.all, ∃ names, i.names? = some names ∧ raw ∈ names.toList

/-- `c.Ignores raw`: the contents have `raw` among the targets to ignore, at any depth. -/
def Ignores (c : Contents) (raw : String) : Prop :=
  ∃ i ∈ c.all, ∃ names, i.ignore? = some names ∧ raw ∈ names.toList

/-- `c.Mentions name`: the contents have `name` written in them, blank characters around it not
counting. -/
def Mentions (c : Contents) (name : String) : Prop :=
  ∃ raw, (c.Permits raw ∨ c.Ignores raw) ∧ trimmed raw = name

variable {c : Contents} {raw name : String}

/-- Whatever name is permitted is in the model. -/
theorem shape_mem_sites (h : c.model = .ok m) (hraw : c.Permits raw) :
    .shape (.ofName raw) ∈ m.sites := by
  obtain ⟨i, hi, names, hnames, hraw⟩ := hraw
  exact (mem_sites_iff (Model.isLeaf_ofName raw) h).mpr ⟨i, hi, .name hnames hraw⟩

/-- Whatever target is to be ignored is in the model. -/
theorem target_mem_sites (h : c.model = .ok m) (hraw : c.Ignores raw) {t : Target}
    (ht : Target.ofText raw = .ok t) : .target t ∈ m.sites := by
  obtain ⟨i, hi, names, hnames, hraw⟩ := hraw
  exact (mem_sites_iff (s := .target t) trivial h).mpr ⟨i, hi, .target hnames hraw ht⟩

theorem permits_of_category_mem_sites (h : c.model = .ok m)
    (hs : .shape (.category name) ∈ m.sites) :
    ∃ raw, c.Permits raw ∧ isCategoryName (trimmed raw) = true ∧ trimmed raw = name := by
  obtain ⟨i, hi, hwrites⟩ := (mem_sites_iff (s := .shape (.category name)) trivial h).mp hs
  rcases Item.writes_iff.mp hwrites with ⟨names, hnames, raw, hraw, heq⟩ | ⟨_, _, _, _, _, _, heq⟩
  · exact ⟨raw, ⟨i, hi, names, hnames, hraw⟩, Model.ofName_eq_category.mp (Site.shape.inj heq).symm⟩
  · cases heq

theorem ignores_of_category_mem_sites (h : c.model = .ok m)
    (hs : .target (.category name) ∈ m.sites) :
    ∃ raw, c.Ignores raw ∧ isCategoryName (trimmed raw) = true ∧ trimmed raw = name := by
  obtain ⟨i, hi, hwrites⟩ := (mem_sites_iff (s := .target (.category name)) trivial h).mp hs
  rcases Item.writes_iff.mp hwrites with ⟨_, _, _, _, heq⟩ | ⟨names, hnames, raw, hraw, t, ht, heq⟩
  · cases heq
  · obtain rfl := Site.target.inj heq
    exact ⟨raw, ⟨i, hi, names, hnames, hraw⟩, Target.ofText_eq_category.mp ht⟩

/-- The categories that the model of contents names are those that are written. -/
theorem mem_categoryNames_iff (h : c.model = .ok m) :
    name ∈ m.categoryNames ↔ isCategoryName name = true ∧ c.Mentions name := by
  constructor
  · intro hname
    rcases Model.mem_sites_of_mem_categoryNames hname with hs | hs
    · obtain ⟨raw, hraw, hcategory, rfl⟩ := permits_of_category_mem_sites h hs
      exact ⟨hcategory, raw, .inl hraw, rfl⟩
    · obtain ⟨raw, hraw, hcategory, rfl⟩ := ignores_of_category_mem_sites h hs
      exact ⟨hcategory, raw, .inr hraw, rfl⟩
  · rintro ⟨hcategory, raw, hraw | hraw, rfl⟩
    · have hs := shape_mem_sites h hraw
      rw [Model.ofName_eq_category.mpr ⟨hcategory, rfl⟩] at hs
      exact Model.mem_categoryNames hs (.inl rfl)
    · have hs := target_mem_sites h hraw (Target.ofText_eq_category.mpr ⟨hcategory, rfl⟩)
      exact Model.mem_categoryNames hs (.inr rfl)

end Contents

end ContentGrammar
