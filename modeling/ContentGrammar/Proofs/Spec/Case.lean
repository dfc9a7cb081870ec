import ContentGrammar.Proofs.Category
import ContentGrammar.Proofs.Model.Case
import ContentGrammar.Proofs.Model.Fault
import ContentGrammar.Proofs.Text.Dictionary
import ContentGrammar.Spec.Declaration

/-!
# The letter case of names in specs and rules

A written spec with tags, names of attributes in conditions, and names of tags in contents and in
categories written in small letters is the same spec (`WrittenSpec.spec_lowered`), provided that it does
not declare a tag twice. A rule keeps its tag as it is written, and its model is the same
(`WrittenRule.rule_lowered`).
-/

namespace ContentGrammar

/-! ## Categories -/

namespace Category

/-- A member of a category, in small letters if it is the name of a tag. -/
def loweredMember (name : String) : String := if isTagName name then Ascii.lower name else name

/-- A table of categories with the names of tags in small letters. -/
def Table.lowered (table : Table) : Table := table.map (List.map loweredMember)

theorem isCategoryName_of_isTagName {name : String} (h : isTagName name = true) :
    isCategoryName name = false := by
  rw [isTagName, Bool.and_eq_true] at h
  exact Bool.not_eq_true' _ |>.mp h.2

theorem isCategoryName_lowered (name : String) :
    isCategoryName (loweredMember name) = isCategoryName name := by
  rw [loweredMember]
  split
  case isTrue h =>
    have hlower : isTagName (Ascii.lower name) = true := by
      rw [isTagName_lower]
      exact h
    rw [isCategoryName_of_isTagName hlower, isCategoryName_of_isTagName h]
  case isFalse => rfl

theorem lower_loweredMember (name : String) :
    Ascii.lower (loweredMember name) = Ascii.lower name := by
  rw [loweredMember]
  split
  · exact Ascii.lower_lower name
  · rfl

theorem loweredMember_of_isCategoryName {name : String} (h : isCategoryName name = true) :
    loweredMember name = name := by
  rw [loweredMember, if_neg]
  intro htag
  rw [isCategoryName_of_isTagName htag] at h
  cases h

/-- The further categories among the members are not touched. -/
theorem categories_lowered (members : List String) :
    (members.map loweredMember).filter isCategoryName = members.filter isCategoryName := by
  induction members with
  | nil => rfl
  | cons m ms ih =>
    rw [List.map_cons, List.filter_cons, List.filter_cons, isCategoryName_lowered, ih]
    by_cases hm : isCategoryName m = true
    · rw [loweredMember_of_isCategoryName hm]
    · rw [if_neg hm, if_neg hm]

theorem names_lowered (members : List String) :
    ((members.map loweredMember).filter fun m => !isCategoryName m).map Ascii.lower =
      (members.filter fun m => !isCategoryName m).map Ascii.lower := by
  induction members with
  | nil => rfl
  | cons m ms ih =>
    rw [List.map_cons, List.filter_cons, List.filter_cons, isCategoryName_lowered]
    cases isCategoryName m with
    | true => exact ih
    | false =>
      show Ascii.lower (loweredMember m) :: _ = Ascii.lower m :: _
      rw [lower_loweredMember]
      exact congrArg _ ih

/-- A category stands for the same names, or the same one is missing. -/
theorem expandFrom_lowered (table : Table) (pending seen : List String) (found : NameSet) :
    expandFrom table.lowered pending seen found = expandFrom table pending seen found := by
  induction pending, seen, found using expandFrom.induct table with
  | case1 seen found => rw [expandFrom_nil, expandFrom_nil]
  | case2 seen found name rest hseen ih => rw [expandFrom_seen hseen, expandFrom_seen hseen, ih]
  | case3 seen found name rest hseen hnone =>
    have hlowered : table.lowered.get? name = none := by
      rw [Table.lowered, Dictionary.get?_map, hnone]
      rfl
    rw [expandFrom_missing hseen hnone, expandFrom_missing hseen hlowered]
  | case4 seen found name rest hseen members hsome ih =>
    have hlowered : table.lowered.get? name = some (members.map loweredMember) := by
      rw [Table.lowered, Dictionary.get?_map, hsome]
      rfl
    rw [expandFrom_found hseen hsome, expandFrom_found hseen hlowered, categories_lowered,
      names_lowered, ih]

theorem resolveNames_lowered (table : Table) (known : Sets) (names : List String) :
    (Resolver.resolveNames ⟨table.lowered, known⟩ names).map Resolver.known =
      (Resolver.resolveNames ⟨table, known⟩ names).map Resolver.known := by
  induction names generalizing known with
  | nil => rfl
  | cons name names ih =>
    rw [Resolver.resolveNames, Resolver.resolveNames, Resolver.resolve, Resolver.resolve]
    dsimp only
    cases known.get? name with
    | some members => exact ih known
    | none =>
      rw [show expand table.lowered name = expand table name from expandFrom_lowered table _ _ _]
      cases expand table name with
      | error e => rfl
      | ok members => exact ih _

/-- All categories of a table stand for the same names. -/
theorem resolveTable_lowered (table : Table) : resolveTable table.lowered = resolveTable table := by
  have hall : ∀ r : Resolver, r.resolveAll = (r.resolveNames r.table.keys).map Resolver.known := by
    intro r
    rw [Resolver.resolveAll]
    cases r.resolveNames r.table.keys <;> rfl
  rw [resolveTable, resolveTable, hall, hall]
  show (Resolver.resolveNames _ table.lowered.keys).map _ = _
  rw [Table.lowered, Dictionary.keys_map]
  exact resolveNames_lowered table .empty _

end Category

/-! ## Declarations -/

/-- A condition with the name of an attribute in small letters. -/
def WrittenCondition.lowered : WrittenCondition → WrittenCondition
  | .hasAttribute name => .hasAttribute (Ascii.lower name)
  | .parent selector => .parent selector

/-- A variant with names in small letters. -/
def WrittenVariant.lowered (v : WrittenVariant) : WrittenVariant :=
  ⟨v.condition.lowered, v.contents.lowered⟩

/-- A declaration with names in small letters. -/
def Declaration.lowered (d : Declaration) : Declaration :=
  ⟨Ascii.lower d.tag, d.contents.lowered, d.variants.map WrittenVariant.lowered⟩

/-- A spec with names in small letters. -/
def WrittenSpec.lowered (w : WrittenSpec) : WrittenSpec :=
  ⟨w.categories.lowered, w.declarations.map Declaration.lowered⟩

/-- A written rule with names in small letters. -/
def WrittenRule.lowered (w : WrittenRule) : WrittenRule := ⟨Ascii.lower w.tag, w.contents.lowered⟩

/-- A rule with its tag in small letters. -/
def Rule.lowered (r : Rule) : Rule := ⟨Ascii.lower r.tag, r.model⟩

theorem WrittenCondition.condition_lowered (c : WrittenCondition) :
    c.lowered.condition = c.condition := by
  cases c with
  | hasAttribute name => rw [lowered, condition, condition, Ascii.lower_lower]
  | parent selector => rfl

theorem WrittenVariant.variant_lowered (v : WrittenVariant) : v.lowered.variant = v.variant := by
  rw [lowered, variant, variant, WrittenCondition.condition_lowered, Contents.model_lowered]

/-- What comes out of a list of changed inputs are the changed results, if that is so for each. -/
theorem mapM_map {α β : Type} {f : α → Except ModelError β} {g : α → α} {k : β → β}
    (h : ∀ a, f (g a) = (f a).map k) (as : List α) :
    (as.map g).mapM f = (as.mapM f).map (List.map k) := by
  induction as with
  | nil => rfl
  | cons a as ih =>
    rw [List.map_cons, List.mapM_cons, List.mapM_cons, h, ih]
    cases f a with
    | error e => rfl
    | ok b => cases as.mapM f <;> rfl

theorem Declaration.tagSpec_lowered (d : Declaration) : d.lowered.tagSpec = d.tagSpec := by
  have hvariants : (d.variants.map WrittenVariant.lowered).mapM WrittenVariant.variant =
      d.variants.mapM WrittenVariant.variant := by
    rw [List.mapM_map]
    exact congrArg (d.variants.mapM ·) (funext WrittenVariant.variant_lowered)
  rw [lowered, tagSpec, tagSpec, Contents.model_lowered, hvariants]

/-- A written rule with names in small letters gives the same model. -/
theorem WrittenRule.rule_lowered (w : WrittenRule) : w.lowered.rule = w.rule.map Rule.lowered := by
  rw [lowered, rule, rule, Contents.model_lowered]
  cases w.contents.model <;> rfl

/-! ## Specs -/

/-- Entries whose names differ in more than the case of letters make the same dictionary, whether the
names are made small before or after that. -/
theorem ofList_loweredEntry {α : Type} {es : List (String × α)}
    (hnodup : (es.map fun e => Ascii.lower e.1).Nodup) :
    Dictionary.ofList ((Dictionary.ofList es).entries.map loweredEntry) =
      Dictionary.ofList (es.map loweredEntry) := by
  have hkeys : (es.map (·.1)).Nodup := by
    have hlower : ((es.map (·.1)).map Ascii.lower).Nodup := by
      rw [List.map_map]
      exact hnodup
    exact List.Nodup.of_map _ hlower
  refine (Dictionary.ofList_perm ((Dictionary.perm_entries_ofList hkeys).symm.map _) ?_).symm
  rw [List.map_map]
  exact hnodup

namespace WrittenSpec

/-- The tags that are declared and their models. -/
def tags (w : WrittenSpec) : Except ModelError (List (String × TagSpec)) :=
  w.declarations.mapM fun d => return (d.tag, ← d.tagSpec)

theorem tags_lowered (w : WrittenSpec) : w.lowered.tags = w.tags.map (List.map loweredEntry) := by
  refine mapM_map (fun d => ?_) w.declarations
  rw [Declaration.tagSpec_lowered]
  cases d.tagSpec <;> rfl

theorem map_tags {w : WrittenSpec} {ts : List (String × TagSpec)} (h : w.tags = .ok ts) :
    ts.map (·.1) = w.declarations.map (·.tag) := by
  unfold tags at h
  generalize w.declarations = ds at h ⊢
  induction ds generalizing ts with
  | nil =>
    rw [List.mapM_nil] at h
    obtain rfl := Except.ok.inj h
    rfl
  | cons d ds ih =>
    rw [List.mapM_cons] at h
    obtain ⟨e, he, h⟩ := ok_of_bind h
    obtain ⟨rest, hrest, h⟩ := ok_of_bind h
    obtain ⟨t, -, he⟩ := ok_of_bind he
    obtain rfl := Except.ok.inj he
    obtain rfl := Except.ok.inj h
    rw [List.map_cons, List.map_cons, ih hrest]

/-- A spec with names in small letters is the same spec, or has the same error, provided that no tag is
declared twice. -/
theorem spec_lowered {w : WrittenSpec}
    (htags : (w.declarations.map fun d => Ascii.lower d.tag).Nodup) : w.lowered.spec = w.spec := by
  show (w.lowered.tags >>= fun ts => Spec.new (.ofList ts) w.categories.lowered) =
    (w.tags >>= fun ts => Spec.new (.ofList ts) w.categories)
  rw [tags_lowered]
  cases hts : w.tags with
  | error e => rfl
  | ok ts =>
    have hnodup : (ts.map fun e => Ascii.lower e.1).Nodup := by
      have hmap := congrArg (List.map Ascii.lower) (map_tags hts)
      rw [List.map_map, List.map_map] at hmap
      exact hmap ▸ htags
    have hlowered : ((ts.map loweredEntry).map fun e => Ascii.lower e.1).Nodup := by
      rw [List.map_map]
      simpa [Function.comp_def, loweredEntry] using hnodup
    have hsame : Dictionary.ofList ((Dictionary.ofList (ts.map loweredEntry)).entries.map loweredEntry) =
        Dictionary.ofList ((Dictionary.ofList ts).entries.map loweredEntry) := by
      rw [ofList_loweredEntry hlowered, ofList_loweredEntry hnodup, map_loweredEntry_twice]
    show Spec.new (.ofList (ts.map loweredEntry)) w.categories.lowered =
      Spec.new (.ofList ts) w.categories
    rw [Spec.new, Spec.new, Category.resolveTable_lowered]
    exact congrArg (fun tags => Category.resolveTable w.categories >>= fun sets =>
      (Spec.checkTags sets tags.values >>= fun _ => Except.ok (Spec.mk tags sets))) hsame

end WrittenSpec

end ContentGrammar
