import ContentGrammar.Proofs.Document.Case
import ContentGrammar.Proofs.Spec.Case
import ContentGrammar.Proofs.Validation.Likeness

/-!
# The letter case of names

Changing the case of letters in names, in a document as well as in a spec and in rules, makes no
difference to what is found (`case_unseen`). What is loaded is the same, too, but for the tags of rules,
which are kept as they are written, and the order of the attributes of an element.
-/

namespace ContentGrammar

/-- Rules that are the same but for the case of letters in their tags put the same models on the same
elements. -/
theorem allAlike_of_lowered {rules rules' : List Rule}
    (h : rules'.map Rule.lowered = rules.map Rule.lowered) : AllAlike rules rules' := by
  induction rules generalizing rules' with
  | nil =>
    cases rules' with
    | nil => exact .nil
    | cons r' rules' => cases h
  | cons r rules ih =>
    cases rules' with
    | nil => cases h
    | cons r' rules' =>
      obtain ⟨hr, hrest⟩ := List.cons.inj h
      obtain ⟨htag, hmodel⟩ := Rule.mk.inj hr
      have happlies : r.appliesTo = r'.appliesTo := by
        funext name
        rw [Rule.appliesTo, Rule.appliesTo, Ascii.same, Ascii.same, htag]
      exact .cons ⟨happlies, hmodel.symm⟩ (ih hrest)

theorem Report.renumber_id (r : Report) : r.renumber id = r := by
  have hviolations : ∀ v : Violation, v.renumber id = v := by
    rintro ⟨element, tag, position, source, fault⟩
    cases fault <;> rfl
  obtain ⟨elements, violations, warnings⟩ := r
  rw [renumber]
  dsimp only
  rw [List.map_congr_left (g := id) fun v _ => hviolations v,
    List.map_congr_left (g := id) fun w _ => (rfl : Warning.renumber id w = w), List.map_id, List.map_id]

theorem Report.map_renumber_id (x : Except ModelError Report) : x.map (Report.renumber id) = x := by
  cases x with
  | error e => rfl
  | ok r => exact congrArg Except.ok r.renumber_id

/-! ## What is written -/

/-- The report on a document with respect to a spec and to rules as they are written. -/
def validateWritten (w : WrittenSpec) (rs : List WrittenRule) (parallel : Bool)
    (forest : List Markup) : Except ModelError Report := do
  let s ← w.spec
  let rules ← rs.mapM WrittenRule.rule
  (Document.ofMarkup forest).validate s ⟨rules, parallel⟩

/-- Specs that are the same but for the case of letters in names load the same. -/
theorem WrittenSpec.spec_of_lowered {w w' : WrittenSpec} (h : w'.lowered = w.lowered)
    (htags : (w.declarations.map fun d => Ascii.lower d.tag).Nodup) : w'.spec = w.spec := by
  have hlowered : ∀ w : WrittenSpec, w.lowered.declarations.map (·.tag) =
      w.declarations.map fun d => Ascii.lower d.tag := by
    intro w
    rw [lowered, List.map_map]
    rfl
  have htags' : (w'.declarations.map fun d => Ascii.lower d.tag).Nodup := by
    rw [← hlowered, h, hlowered]
    exact htags
  rw [← spec_lowered htags, ← spec_lowered htags', h]

/-- Written rules that are the same but for the case of letters in names load the same, but for the case
of letters in their tags. -/
theorem WrittenRule.mapM_rule_of_lowered {rs rs' : List WrittenRule}
    (h : rs'.map lowered = rs.map lowered) :
    (rs'.mapM rule).map (List.map Rule.lowered) = (rs.mapM rule).map (List.map Rule.lowered) := by
  rw [← mapM_map rule_lowered, ← mapM_map rule_lowered, h]

/-- The case of letters makes no difference in the names of elements and of attributes in a document,
where no two attributes of an element have the same name but for case, in the tags and the names of
attributes of a spec that declares no tag twice, in the tags of rules, and in the names of tags within
contents, except for what is to be ignored, and within categories. The same spec is loaded, or there is
the same error; the same rules are loaded, except that they keep the case of letters in their own tags;
the document is the same except for the order in which attributes are kept; and the report is the same. -/
theorem case_unseen {forest forest' : List Markup} {w w' : WrittenSpec} {rs rs' : List WrittenRule}
    (hforest : SameButCase forest forest')
    (hdistinct : ∀ p ∈ (Document.ofMarkup forest).places, p.node.head.Distinct)
    (hspec : w'.lowered = w.lowered)
    (htags : (w.declarations.map fun d => Ascii.lower d.tag).Nodup)
    (hrules : rs'.map WrittenRule.lowered = rs.map WrittenRule.lowered) :
    w'.spec = w.spec ∧
    (rs'.mapM WrittenRule.rule).map (List.map Rule.lowered) =
      (rs.mapM WrittenRule.rule).map (List.map Rule.lowered) ∧
    Node.sortedAll (Document.ofMarkup forest').children =
      Node.sortedAll (Document.ofMarkup forest).children ∧
    ∀ parallel, validateWritten w' rs' parallel forest' = validateWritten w rs parallel forest := by
  have hsame := WrittenSpec.spec_of_lowered hspec htags
  have hloaded := WrittenRule.mapM_rule_of_lowered hrules
  have hinside : ∀ p ∈ Node.placesAll [] (Document.ofMarkup forest).children,
      p.node.head.Distinct := fun p hp => hdistinct p (List.mem_cons_of_mem _ hp)
  refine ⟨hsame, hloaded, hforest.sorted 1 [] hinside, fun parallel => ?_⟩
  rw [validateWritten, validateWritten, hsame]
  cases w.spec with
  | error e => rfl
  | ok s =>
    cases hrs : rs.mapM WrittenRule.rule with
    | error e =>
      cases hrs' : rs'.mapM WrittenRule.rule with
      | error e' =>
        rw [hrs, hrs'] at hloaded
        obtain rfl := Except.error.inj hloaded
        rfl
      | ok rules' =>
        rw [hrs, hrs'] at hloaded
        cases hloaded
    | ok rules =>
      cases hrs' : rs'.mapM WrittenRule.rule with
      | error e' =>
        rw [hrs, hrs'] at hloaded
        cases hloaded
      | ok rules' =>
        rw [hrs, hrs'] at hloaded
        have halike := allAlike_of_lowered (Except.ok.inj hloaded)
        have hvalidate : (Document.ofMarkup forest').validate s ⟨rules', parallel⟩ =
            ((Document.ofMarkup forest).validate s ⟨rules, parallel⟩).map (Report.renumber id) :=
          Document.validate_like (Document.numbered_ofMarkup forest)
            (Document.numbered_ofMarkup forest') (hforest.like 1 [] hinside) s halike
        exact hvalidate.trans (Report.map_renumber_id _)

/-- A transparent element at the top, with attributes that are kept in another order once their names
are written in another case. -/
theorem case_unseen_top :
    let item := Item.require (.one "#transparent") none none none
    let w : WrittenSpec := ⟨.empty, [⟨"A", .items [item], []⟩]⟩
    let w' : WrittenSpec := ⟨.empty, [⟨"a", .items [item], []⟩]⟩
    let forest := [Markup.element "A" (.ofList [("B", "1"), ("c", "2")]) [] none]
    let forest' := [Markup.element "a" (.ofList [("b", "1"), ("C", "2")]) [] none]
    SameButCase forest forest' ∧
    (∀ p ∈ (Document.ofMarkup forest).places, p.node.head.Distinct) ∧
    w'.lowered = w.lowered ∧ (w.declarations.map fun d => Ascii.lower d.tag).Nodup ∧
    [(⟨"I", .flag true⟩ : WrittenRule)].map WrittenRule.lowered =
      [(⟨"i", .flag true⟩ : WrittenRule)].map WrittenRule.lowered ∧
    validateWritten w' [⟨"I", .flag true⟩] false forest' =
      .ok ⟨1, [], [⟨1, "a", none, .missingInheritance⟩]⟩ := by
  intro item w w' forest forest'
  have hforest : SameButCase forest forest' := .element rfl (.swap _ _ _) .nil .nil
  have hdistinct : ∀ p ∈ (Document.ofMarkup forest).places, p.node.head.Distinct := by
    intro p hp
    rcases List.mem_cons.mp hp with rfl | hp
    · exact List.nodup_nil
    · obtain rfl := List.mem_singleton.mp hp
      show [_, _].Nodup
      decide
  have htag : Ascii.lower "A" = "a" := by decide
  have hlowered : w'.lowered = w.lowered :=
    congrArg (fun tag => WrittenSpec.mk Dictionary.empty [⟨tag, .items [item.lowered], []⟩])
      (show Ascii.lower "a" = Ascii.lower "A" by decide)
  have hrules : [(⟨"I", .flag true⟩ : WrittenRule)].map WrittenRule.lowered =
      [(⟨"i", .flag true⟩ : WrittenRule)].map WrittenRule.lowered :=
    congrArg (fun tag => [WrittenRule.mk tag (.flag true)])
      (show Ascii.lower "I" = Ascii.lower "i" by decide)
  have hspec : w.spec = .ok ⟨.ofList [("a", ⟨.transparent, []⟩)], .empty⟩ := by
    show Except.ok (Spec.mk (.ofList [(Ascii.lower "A", ⟨.transparent, []⟩)]) .empty) = _
    rw [htag]
  have hreport : validateWritten w [⟨"i", .flag true⟩] false forest =
      .ok ⟨1, [], [⟨1, "a", none, .missingInheritance⟩]⟩ := by
    rw [validateWritten, hspec]
    show Except.ok ((Document.ofMarkup forest).check _ ⟨[⟨"i", .any⟩], false⟩) = _
    rw [Document.check_eq (Document.numbered_ofMarkup forest), show (Document.ofMarkup forest).elements =
      [⟨.element ⟨1, "a", [("b", "1"), ("c", "2")], none⟩ [], []⟩] from rfl]
    rfl
  have hsame := (case_unseen hforest hdistinct hlowered (List.nodup_singleton _) hrules).2.2.2 false
  exact ⟨hforest, hdistinct, hlowered, List.nodup_singleton _, hrules, hsame.trans hreport⟩

/-- What is loaded is not the same in every respect: a rule keeps its tag as it is written, and an
element the order of its attributes. -/
theorem not_case_unseen_when_loaded :
    ¬ (∀ rs rs' : List WrittenRule, rs'.map WrittenRule.lowered = rs.map WrittenRule.lowered →
        rs'.mapM WrittenRule.rule = rs.mapM WrittenRule.rule) ∧
    ¬ ∀ forest forest' : List Markup, SameButCase forest forest' →
        (∀ p ∈ (Document.ofMarkup forest).places, p.node.head.Distinct) →
        Document.ofMarkup forest' = Document.ofMarkup forest := by
  constructor
  · intro hall
    have hsame := hall [⟨"p", .flag true⟩] [⟨"P", .flag true⟩]
      (congrArg (fun tag => [WrittenRule.mk tag (.flag true)])
        (show Ascii.lower "P" = Ascii.lower "p" by decide))
    have htags : ["P"] = ["p"] :=
      congrArg (fun rules : List Rule => rules.map Rule.tag) (Except.ok.inj hsame)
    revert htags
    decide
  · intro hall
    have hsame := hall [.element "a" (.ofList [("B", "1"), ("c", "2")]) [] none]
      [.element "a" (.ofList [("b", "1"), ("C", "2")]) [] none]
      (.element rfl (.swap _ _ _) .nil .nil) (by
        intro p hp
        rcases List.mem_cons.mp hp with rfl | hp
        · exact List.nodup_nil
        · obtain rfl := List.mem_singleton.mp hp
          show [_, _].Nodup
          decide)
    have hvalues : ["2", "1"] = ["1", "2"] :=
      congrArg (fun d : Document =>
        d.elements.flatMap fun p : Place => p.node.head.attributes.map Prod.snd) hsame
    revert hvalues
    decide

end ContentGrammar
