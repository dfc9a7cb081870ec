import Mathlib
import ContentGrammar.Proofs.Model.Growth
import ContentGrammar.Proofs.Spec.Loaded
import ContentGrammar.Proofs.Validation.Form

/-!
# Validation with larger categories

The same declarations may be loaded with a table of categories and with one that has grown. The
specs then differ in the sets of their categories only, which have grown as well
(`Spec.growsTo_of_spec`). A model that has a pattern at a place still has one, and permits more
rows there, also where it takes over what the elements around it permit. So what was found to be
in form stays in form (`growth_keeps_form`).
-/

namespace ContentGrammar

/-- Whether nothing is found against the form of the content: no violation of it, and no warning. -/
def Outcome.InForm (o : Outcome) : Prop := o.warnings = [] ∧ ∀ v ∈ o.violations, v.fault ≠ .form

/-- Whether a report has nothing against the form of an element with respect to a source: no such
violation, and no warning about the element. Warnings do not say which source they come from. -/
def Report.InForm (r : Report) (id : Nat) (source : Source) : Prop :=
  (∀ w ∈ r.warnings, w.element ≠ id) ∧
    ∀ v ∈ r.violations, v.element = id → v.source = source → v.fault ≠ .form

/-- Whether a spec has the tags of another one, and its categories stand for as much or more. -/
structure Spec.GrowsTo (s s' : Spec) : Prop where
  tags : s'.tags = s.tags
  categories : s.categories.GrowsTo s'.categories

namespace Spec

variable {s s' : Spec} {rules : List Rule} {m : Model} {above : List Head} {p : Place}
  {x : Source × Model}

/-! ## Loading with another table -/

theorem growsTo_of_new {table table' : Category.Table} (h : table.GrowsTo table')
    {tags : Dictionary TagSpec} (hs : Spec.new tags table = .ok s)
    (hs' : Spec.new tags table' = .ok s') : s.GrowsTo s' := by
  obtain ⟨sets, hsets, hs⟩ := ok_of_bind hs
  obtain ⟨sets', hsets', hs'⟩ := ok_of_bind hs'
  obtain ⟨_, -, hs⟩ := ok_of_bind hs
  obtain ⟨_, -, hs'⟩ := ok_of_bind hs'
  obtain rfl := Except.ok.inj hs
  obtain rfl := Except.ok.inj hs'
  exact ⟨rfl, Category.resolveTable_mono h hsets hsets'⟩

theorem growsTo_of_spec {table table' : Category.Table} (h : table.GrowsTo table')
    {declarations : List Declaration}
    (hs : (⟨table, declarations⟩ : WrittenSpec).spec = .ok s)
    (hs' : (⟨table', declarations⟩ : WrittenSpec).spec = .ok s') : s.GrowsTo s' := by
  obtain ⟨tags, htags, hs⟩ := ok_of_bind hs
  obtain ⟨tags', htags', hs'⟩ := ok_of_bind hs'
  obtain rfl := Except.ok.inj (htags.symm.trans htags')
  exact growsTo_of_new h hs hs'

/-! ## What a model permits at a place -/

theorem GrowsTo.tag?_eq (h : s.GrowsTo s') (name : String) : s'.tag? name = s.tag? name := by
  rw [tag?, tag?, h.tags]

theorem GrowsTo.modelOf_eq (h : s.GrowsTo s') (e : Head) (around : List Head) :
    s'.modelOf e around = s.modelOf e around := by
  rw [modelOf, modelOf, h.tag?_eq]

theorem GrowsTo.sourcesOf_eq (h : s.GrowsTo s') (rules : List Rule) (p : Place) :
    s'.sourcesOf rules p = s.sourcesOf rules p := by
  rw [sourcesOf, sourcesOf, h.tag?_eq]

theorem GrowsTo.languageOf_mono (h : s.GrowsTo s') (m : Model) (above : List Head) :
    s.languageOf m above ≤ s'.languageOf m above := by
  induction above generalizing m with
  | nil => exact Model.language_mono h.categories (le_refl _) m
  | cons e around ih =>
    rw [languageOf, languageOf, h.modelOf_eq]
    exact Model.language_mono h.categories (ih _) m

theorem GrowsTo.exists_patternOf (h : s.GrowsTo s') (hm : ∃ q, s.patternOf m above = .ok q) :
    ∃ q, s'.patternOf m above = .ok q := by
  induction above generalizing m with
  | nil => exact Model.exists_compile_mono h.categories id hm
  | cons e around ih =>
    by_cases hi : m.inherits = true
    · rw [patternOf, if_pos hi] at hm ⊢
      rw [h.modelOf_eq]
      cases hq : s.patternOf (s.modelOf e around) around with
      | error err =>
        rw [hq] at hm
        obtain ⟨_, hm⟩ := hm
        cases hm
      | ok q =>
        rw [hq] at hm
        -- there is something to inherit from the larger spec, too
        obtain ⟨q', hq'⟩ := ih ⟨q, hq⟩
        rw [hq']
        refine Model.exists_compile_mono h.categories ?_ hm
        rintro h
        cases h
    · rw [patternOf_of_not_inherits (Bool.eq_false_iff.mpr hi)] at hm ⊢
      exact Model.exists_compile_mono h.categories id hm

/-! ## What is found -/

theorem warnings_found_eq_nil_iff :
    (s.found p x).warnings = [] ↔ ∃ q, s.patternOf x.2 p.above = .ok q := by
  rw [found]
  cases s.patternOf x.2 p.above with
  | error e =>
    refine iff_of_false (List.cons_ne_nil _ _) ?_
    rintro ⟨q, h⟩
    cases h
  | ok q =>
    refine iff_of_true ?_ ⟨q, rfl⟩
    rw [Outcome.ofResult, Outcome.ofPattern]
    dsimp only
    cases q.run? (tokensOf p.content) <;> rfl

/-- A place is in form with respect to a model that has a pattern there and permits its content. -/
theorem inForm_found_iff : (s.found p x).InForm ↔
    (∃ q, s.patternOf x.2 p.above = .ok q) ∧ p.row ∈ s.languageOf x.2 p.above := by
  rw [Outcome.InForm, warnings_found_eq_nil_iff]
  refine and_congr_right fun ⟨q, hq⟩ => ?_
  have hverdict := s.verdict_found p x
  rw [Verdict, hq] at hverdict
  constructor
  · intro hviolations
    by_contra hrow
    rw [hverdict.1 hrow] at hviolations
    exact hviolations _ List.mem_cons_self rfl
  · exact fun hrow => (hverdict.2 hrow).2

theorem GrowsTo.warnings_found (h : s.GrowsTo s') (hx : (s.found p x).warnings = []) :
    (s'.found p x).warnings = [] := by
  rw [warnings_found_eq_nil_iff] at hx ⊢
  exact h.exists_patternOf hx

theorem GrowsTo.inForm_found (h : s.GrowsTo s') (hx : (s.found p x).InForm) :
    (s'.found p x).InForm := by
  rw [inForm_found_iff] at hx ⊢
  exact ⟨h.exists_patternOf hx.1, h.languageOf_mono _ _ hx.2⟩

end Spec

/-! ## Reports -/

namespace Report.Faithful

variable {s : Spec} {rules : List Rule} {d : Document} {r : Report} {p : Place} {source : Source}

/-- Of what is found about all elements, that about one of them is what is found at its place. -/
theorem mem_found_iff (hd : d.Numbered) (hp : p ∈ d.elements) {α : Type} {f : Outcome → List α}
    {element : α → Nat} (hf : ∀ p x, ∀ a ∈ f (s.found p x), element a = p.node.id) {a : α} :
    (a ∈ d.elements.flatMap (fun p => (s.sourcesOf rules p).flatMap fun x => f (s.found p x)) ∧
        element a = p.node.id) ↔ ∃ x ∈ s.sourcesOf rules p, a ∈ f (s.found p x) := by
  constructor
  · rintro ⟨ha, hid⟩
    obtain ⟨p', hp', ha⟩ := List.mem_flatMap.mp ha
    obtain ⟨x, hx, ha⟩ := List.mem_flatMap.mp ha
    rw [hf p' x a ha] at hid
    obtain rfl := hd.eq_of_id (List.mem_of_mem_filter hp') (List.mem_of_mem_filter hp) hid
    exact ⟨x, hx, ha⟩
  · rintro ⟨x, hx, ha⟩
    exact ⟨List.mem_flatMap.mpr ⟨p, hp, List.mem_flatMap.mpr ⟨x, hx, ha⟩⟩, hf p x a ha⟩

theorem mem_warnings_iff (hd : d.Numbered) (h : r.Faithful s rules d) (hp : p ∈ d.elements)
    {w : Warning} : w ∈ r.warnings ∧ w.element = p.node.id ↔
      ∃ x ∈ s.sourcesOf rules p, w ∈ (s.found p x).warnings := by
  rw [h.warnings]
  exact mem_found_iff hd hp fun _ _ _ hw => (Outcome.of_mem_warnings hw).1

theorem mem_violations_iff (hd : d.Numbered) (h : r.Faithful s rules d) (hp : p ∈ d.elements)
    {v : Violation} : v ∈ r.violations ∧ v.element = p.node.id ↔
      ∃ x ∈ s.sourcesOf rules p, v ∈ (s.found p x).violations := by
  rw [h.violations]
  exact mem_found_iff hd hp fun _ _ _ hv => (Outcome.of_mem_violations hv).1

/-- A report has nothing against the form of an element with respect to a source if nothing is found
against it there and all other models can be used on the element, too. -/
theorem inForm_iff (hd : d.Numbered) (h : r.Faithful s rules d) (hp : p ∈ d.elements) :
    r.InForm p.node.id source ↔
      (∀ x ∈ s.sourcesOf rules p, (s.found p x).warnings = []) ∧
        ∀ x ∈ s.sourcesOf rules p, x.1 = source → (s.found p x).InForm := by
  constructor
  · rintro ⟨hwarnings, hviolations⟩
    have hnone : ∀ x ∈ s.sourcesOf rules p, (s.found p x).warnings = [] := by
      refine fun x hx => List.eq_nil_iff_forall_not_mem.mpr fun w hw => ?_
      obtain ⟨hmem, hid⟩ := (h.mem_warnings_iff hd hp).mpr ⟨x, hx, hw⟩
      exact hwarnings w hmem hid
    refine ⟨hnone, fun x hx hsource => ⟨hnone x hx, fun v hv => ?_⟩⟩
    obtain ⟨hmem, hid⟩ := (h.mem_violations_iff hd hp).mpr ⟨x, hx, hv⟩
    exact hviolations v hmem hid ((h.named p hp x hx v hv).2.2.2.trans hsource)
  · rintro ⟨hnone, hform⟩
    constructor
    · intro w hmem hid
      obtain ⟨x, hx, hw⟩ := (h.mem_warnings_iff hd hp).mp ⟨hmem, hid⟩
      rw [hnone x hx] at hw
      cases hw
    · intro v hmem hid hsource
      obtain ⟨x, hx, hv⟩ := (h.mem_violations_iff hd hp).mp ⟨hmem, hid⟩
      exact (hform x hx ((h.named p hp x hx v hv).2.2.2.symm.trans hsource)).2 v hv

end Report.Faithful

/-- The same declarations, loaded with a table of categories and with one that has grown, give
reports in which the same sources apply to each element, and what is in form with the smaller table
is in form with the larger one: what is found about an element and a source, and what the reports
say about them. The findings are all that the reports say. -/
theorem growth_keeps_form {table table' : Category.Table} (hgrows : table.GrowsTo table')
    {declarations : List Declaration} {s s' : Spec}
    (hs : (⟨table, declarations⟩ : WrittenSpec).spec = .ok s)
    (hs' : (⟨table', declarations⟩ : WrittenSpec).spec = .ok s') (settings : Settings)
    (hrules : s.checkRules settings.rules = .ok ())
    (hrules' : s'.checkRules settings.rules = .ok ()) (forest : List Markup) :
    ∃ report report', (Document.ofMarkup forest).validate s settings = .ok report ∧
      (Document.ofMarkup forest).validate s' settings = .ok report' ∧
      report.Faithful s settings.rules (Document.ofMarkup forest) ∧
      report'.Faithful s' settings.rules (Document.ofMarkup forest) ∧
      ∀ p ∈ (Document.ofMarkup forest).elements,
        s'.sourcesOf settings.rules p = s.sourcesOf settings.rules p ∧
        (∀ x ∈ s.sourcesOf settings.rules p, (s.found p x).InForm → (s'.found p x).InForm) ∧
        ∀ source, report.InForm p.node.id source → report'.InForm p.node.id source := by
  have hspec := Spec.growsTo_of_spec hgrows hs hs'
  have hd := Document.numbered_ofMarkup forest
  have hfaithful := Document.check_faithful hd s settings
  have hfaithful' := Document.check_faithful hd s' settings
  refine ⟨_, _, Document.validate_ok_iff.mpr ⟨hrules, rfl⟩,
    Document.validate_ok_iff.mpr ⟨hrules', rfl⟩, hfaithful, hfaithful', fun p hp => ?_⟩
  have hfound : ∀ x ∈ s.sourcesOf settings.rules p,
      (s.found p x).InForm → (s'.found p x).InForm := fun x _ => hspec.inForm_found
  refine ⟨hspec.sourcesOf_eq settings.rules p, hfound, fun source hform => ?_⟩
  rw [hfaithful.inForm_iff hd hp] at hform
  rw [hfaithful'.inForm_iff hd hp, hspec.sourcesOf_eq]
  exact ⟨fun x hx => hspec.warnings_found (hform.1 x hx),
    fun x hx hsource => hfound x hx (hform.2 x hx hsource)⟩

/-- A category with a new member, and with a new category that leads back to it. -/
theorem growth_keeps_form_new_member :
    let table : Category.Table := Dictionary.empty.insert "#c" ["a"]
    let table' : Category.Table := (Dictionary.empty.insert "#c" ["b", "a", "#d"]).insert "#d" ["#c"]
    let declarations : List Declaration := [⟨"p", .items [.require (.one "#c") none none none], []⟩]
    let tags : Dictionary TagSpec := .ofList [("p", ⟨.category "#c", []⟩)]
    let both : NameSet := .ofList ["a", "b"]
    let s : Spec := ⟨tags, Dictionary.empty.insert "#c" (.singleton "a")⟩
    let s' : Spec := ⟨tags, (Dictionary.empty.insert "#c" both).insert "#d" both⟩
    let forest : List Markup := [.element "p" .empty [.element "a" .empty [] none] none]
    table.GrowsTo table' ∧ (⟨table, declarations⟩ : WrittenSpec).spec = .ok s ∧
      (⟨table', declarations⟩ : WrittenSpec).spec = .ok s' ∧
      s.checkRules [] = .ok () ∧ s'.checkRules [] = .ok () ∧
      ∃ p ∈ (Document.ofMarkup forest).elements,
        (s.found p (.spec, .category "#c")).InForm ∧ (s'.found p (.spec, .category "#c")).InForm := by
  intro table table' declarations tags both s s' forest
  have hgrows : table.GrowsTo table' := by
    intro name listed hlisted
    rw [Dictionary.get?_insert] at hlisted
    split at hlisted
    · rename_i hname
      cases hlisted
      exact ⟨["b", "a", "#d"], by rw [hname]; rfl, by simp⟩
    · cases hlisted
  have hs : (⟨table, declarations⟩ : WrittenSpec).spec = .ok s := by cbv
  have hs' : (⟨table', declarations⟩ : WrittenSpec).spec = .ok s' := by
    show _ = Except.ok (Spec.mk _ ((Dictionary.empty.insert "#c" both).insert "#d" both))
    cbv
  have hp : (⟨.element ⟨1, "p", [], none⟩ [.element ⟨2, "a", [], none⟩ []], []⟩ : Place) ∈
      (Document.ofMarkup forest).elements := List.mem_cons_self
  have hform : (s.found ⟨.element ⟨1, "p", [], none⟩ [.element ⟨2, "a", [], none⟩ []], []⟩
      (.spec, .category "#c")).InForm :=
    Spec.inForm_found_iff.mpr ⟨⟨_, rfl⟩, .singleton "a", rfl, "a", List.mem_cons_self, rfl⟩
  obtain ⟨_, _, -, -, -, -, hall⟩ := growth_keeps_form hgrows hs hs' { rules := [] } rfl rfl forest
  exact ⟨hgrows, hs, hs', rfl, rfl, _, hp, hform, (hall _ hp).2.1 _ List.mem_cons_self hform⟩

end ContentGrammar
