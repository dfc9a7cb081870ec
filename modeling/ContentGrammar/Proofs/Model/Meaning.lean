import ContentGrammar.Proofs.Model.Defect
import ContentGrammar.Proofs.Model.Language
import ContentGrammar.Proofs.Text.Ascii

/-!
# What written contents mean

The rows of children that contents permit can be read off the items as they are written
(`Contents.language`), with no model in between: a list of items permits one after the other, an item
so many of its names or items, and a choice any one of its lists. The model that contents are read to
leaves out sequences of one item and repetitions of exactly one, and has the same language
(`Contents.language_model`).
-/

namespace ContentGrammar

open Category (Sets)

/-- The rows that consist of so many rows of a language: `least` or more, and not more than `most`. -/
def countedRows (l : Language String) (least : Nat) (most : Option Nat) : Language String :=
  {w | ∃ k, least ≤ k ∧ (∀ m, most = some m → k ≤ m) ∧ w ∈ l ^ k}

section Reading

variable (sets : Sets) (inherited : Language String)

/-- The rows that consist of one member of a category. -/
def memberRows (name : String) : Language String :=
  {w | ∃ members, sets.get? name = some members ∧ ∃ n ∈ members, w = [n]}

/-- The rows that a name permits: text, what is inherited, a member of a category or an element. -/
def nameLanguage (raw : String) : Language String :=
  let name := trimmed raw
  if name = textName then {[textName]}
  else if name = transparentName then inherited
  else if isCategoryName name then memberRows sets name
  else {[Ascii.lower name]}

/-- The rows that one of several names permits. -/
def Names.language (names : Names) : Language String :=
  {w | ∃ raw ∈ names.toList, w ∈ nameLanguage sets inherited raw}

mutual

/-- The rows that an item permits. What it ignores makes no difference to that. -/
def Item.language : Item → Language String
  | .require what min max _ =>
    countedRows (what.language sets inherited) (min.getD 1) (some (max.getD (min.getD 1)))
  | .optional what _ => countedRows (what.language sets inherited) 0 (some 1)
  | .repeatNames .oneOrMore what max _ => countedRows (what.language sets inherited) 1 max
  | .repeatNames .zeroOrMore what max _ => countedRows (what.language sets inherited) 0 max
  | .repeatItems .oneOrMore what max _ => countedRows (itemsLanguage what) 1 max
  | .repeatItems .zeroOrMore what max _ => countedRows (itemsLanguage what) 0 max
  | .choice alternatives => alternativesLanguage alternatives

/-- The rows that consist of what each of several items permits, in their order. -/
def itemsLanguage : List Item → Language String
  | [] => 1
  | i :: is => i.language * itemsLanguage is

/-- The rows that one of several lists of items permits. -/
def alternativesLanguage : List (List Item) → Language String
  | [] => 0
  | is :: rest => itemsLanguage is + alternativesLanguage rest

end

/-- The rows that contents permit. -/
def Contents.language : Contents → Language String
  | .flag true => ⊤
  | .flag false => {[]}
  | .items is => itemsLanguage sets inherited is

end Reading

variable {sets : Sets} {inherited : Language String}

/-! ## Counted rows -/

theorem countedRows_one (l : Language String) : countedRows l 1 (some 1) = l := by
  ext w
  constructor
  · rintro ⟨k, hleast, hmost, hw⟩
    obtain rfl := Nat.le_antisymm (hmost 1 rfl) hleast
    rwa [pow_one] at hw
  · intro hw
    exact ⟨1, Nat.le_refl 1, fun m hm => (Option.some.inj hm).le, by rwa [pow_one]⟩

/-- With bounds in order, counted rows are repetitions. -/
theorem countedRows_eq_repetitions {l : Language String} {least : Nat} {most : Option Nat}
    (h : ∀ m, most = some m → least ≤ m) : countedRows l least most = repetitions l least most := by
  have hmax : ∀ k, (∀ m, most = some m → k ≤ m) ↔ ∀ m, most = some m → k ≤ max least m :=
    fun k => forall₂_congr fun m hm => by rw [max_eq_right (h m hm)]
  ext w
  rw [Pattern.mem_repetitions]
  exact exists_congr fun k => and_congr_right' (and_congr_left' (hmax k))

/-! ## The language of the model -/

namespace Model

/-- A name permits a child of its own, of its category, text, or what is inherited. -/
theorem language_ofName (raw : String) :
    (ofName raw).language sets inherited = nameLanguage sets inherited raw := by
  rw [ofName, nameLanguage]
  split
  case isTrue => rfl
  split
  case isTrue => rfl
  by_cases hcategory : isCategoryName (trimmed raw) = true
  · rw [if_pos hcategory, if_pos hcategory]
    rfl
  · rw [if_neg hcategory, if_neg hcategory, language, Ascii.lower_lower]

theorem languages_eq_map (ms : List Model) :
    languages sets inherited ms = ms.map (·.language sets inherited) := by
  induction ms with
  | nil => rfl
  | cons m ms ih => rw [languages, ih, List.map_cons]

theorem language_ofSequence (ms : List Model) :
    (ofSequence ms).language sets inherited = (languages sets inherited ms).prod := by
  unfold ofSequence
  split
  · rw [languages, languages, List.prod_singleton]
  · rfl

/-- What is to be ignored inside does not matter for which rows of children are permitted. -/
theorem language_ignoring {m n : Model} {ignore : Option Names} (h : m.ignoring ignore = .ok n) :
    n.language sets inherited = m.language sets inherited := by
  rcases ok_of_ignoring h with rfl | ⟨targets, -, rfl⟩ <;> rfl

/-- A repetition that is accepted counts rows. -/
theorem language_repetition {m n : Model} {least : Nat} {most : Option Nat}
    (h : m.repetition least most = .ok n) :
    n.language sets inherited = countedRows (m.language sets inherited) least most := by
  obtain ⟨rfl, hbounds⟩ := ok_of_repetition h
  rw [countedRows_eq_repetitions hbounds, language]

end Model

/-- Names permit what one of them permits. -/
theorem Names.language_model {names : Names} {m : Model} (h : names.model = .ok m) :
    m.language sets inherited = names.language sets inherited := by
  ext w
  rcases ok_of_model h with ⟨raw, hraw, rfl⟩ | ⟨-, rfl⟩
  · show _ ↔ ∃ r ∈ names.toList, _
    rw [Model.language_ofName, hraw]
    simp
  · rw [Model.language, Model.languages_eq_map, mem_sum_map]
    simp only [List.mem_map, exists_exists_and_eq_and, Model.language_ofName]
    rfl

/-- Whether the model of an item, if it has one, has the language of the item. -/
def Item.Kept (sets : Sets) (inherited : Language String) (i : Item) : Prop :=
  ∀ m, i.model = .ok m → m.language sets inherited = i.language sets inherited

/-- A row of items permits what they permit one behind the other. -/
theorem language_itemModels {is : List Item} {ms : List Model}
    (his : ∀ i ∈ is, i.Kept sets inherited) (h : itemModels is = .ok ms) :
    (Model.ofSequence ms).language sets inherited = itemsLanguage sets inherited is := by
  rw [Model.language_ofSequence]
  have hall := forall₂_of_itemModels h
  clear h
  induction hall with
  | nil => rfl
  | cons hm _ ih =>
    rw [Model.languages, List.prod_cons, itemsLanguage, his _ List.mem_cons_self _ hm,
      ih fun j hj => his j (List.mem_cons_of_mem _ hj)]

/-- A choice permits what one of its alternatives permits. -/
theorem language_alternativeModels {as : List (List Item)} {ms : List Model}
    (has : ∀ is ∈ as, ∀ i ∈ is, i.Kept sets inherited) (h : alternativeModels as = .ok ms) :
    (Model.choice ms).language sets inherited = alternativesLanguage sets inherited as := by
  rw [Model.language]
  have hall := forall₂_of_alternativeModels h
  clear h
  induction hall with
  | nil => rfl
  | cons hm _ ih =>
    obtain ⟨ns, hns, rfl⟩ := hm
    rw [Model.languages, List.sum_cons, alternativesLanguage,
      language_itemModels (has _ List.mem_cons_self) hns,
      ih fun js hjs => has js (List.mem_cons_of_mem _ hjs)]

/-- The model of an item has the language that the item has as it is written. -/
theorem Item.kept (i : Item) : i.Kept sets inherited := by
  intro m h
  induction i generalizing m with
  | require what min max ignore =>
    rw [model] at h
    obtain ⟨n, hn, h⟩ := ok_of_bind h
    dsimp only at h
    rw [language, ← Names.language_model hn]
    split at h
    -- one row is what the names themselves permit
    case isTrue hone =>
      rw [Model.language_ignoring h, hone.2, hone.1, countedRows_one]
    case isFalse =>
      obtain ⟨n', hn', h⟩ := ok_of_bind h
      rw [Model.language_ignoring h, Model.language_repetition hn']
  | optional what ignore =>
    rw [model] at h
    obtain ⟨n, hn, h⟩ := ok_of_bind h
    rw [Model.language_ignoring h, language, ← Names.language_model hn,
      countedRows_eq_repetitions (fun _ _ => Nat.zero_le _), Model.repetitions_zero_one,
      Model.language]
  | repeatNames quantity what max ignore =>
    rw [model] at h
    obtain ⟨n, hn, h⟩ := ok_of_bind h
    obtain ⟨n', hn', h⟩ := ok_of_bind h
    rw [Model.language_ignoring h, Model.language_repetition hn', Names.language_model hn]
    cases quantity <;> rfl
  | repeatItems quantity what max ignore ih =>
    rw [model] at h
    obtain ⟨ms, hms, h⟩ := ok_of_bind h
    obtain ⟨n', hn', h⟩ := ok_of_bind h
    rw [Model.language_ignoring h, Model.language_repetition hn', language_itemModels ih hms]
    cases quantity <;> rfl
  | choice alternatives ih =>
    rw [model] at h
    split at h
    · cases h
    · obtain ⟨ms, hms, h⟩ := ok_of_bind h
      obtain rfl := Except.ok.inj h
      exact language_alternativeModels ih hms

/-- The model of contents has the language that the contents have as they are written. -/
theorem Contents.language_model {c : Contents} {m : Model} (h : c.model = .ok m) :
    m.language sets inherited = c.language sets inherited := by
  unfold model at h
  split at h
  · obtain rfl := Except.ok.inj h
    rfl
  · obtain rfl := Except.ok.inj h
    rfl
  · obtain ⟨ms, hms, h⟩ := ok_of_bind h
    obtain rfl := Except.ok.inj h
    exact language_itemModels (fun i _ => i.kept) hms

/-- Contents are not read just if an item in them, at any depth, is wrong by itself, and the error is
that of the first piece that is wrong: pieces are looked at in written order, in an item first what it
permits, then its bounds, then what it ignores, and that a choice offers anything before what it
offers. Otherwise the model is sound, and its language is the one that can be read off the contents. So
where the model is used, those children are accepted whose names the contents permit. -/
theorem Contents.model_defect_or_meaning (c : Contents) :
    (∀ e, c.model = .error e ↔ c.checks.findSome? Check.defect? = some e) ∧
    ((∃ e, c.model = .error e) ↔ ∃ i ∈ c.all, ∃ e, i.Defect e) ∧
    ∀ m, c.model = .ok m → m.Sound ∧
      (∀ sets inherited, m.language sets inherited = c.language sets inherited) ∧
      ∀ sets parent q, m.compile sets parent = .ok q → ∀ ts : List Token,
        (q.run? ts).isSome ↔ ts.map Token.name ∈ c.language sets (inheritedLanguage parent) := by
  have herror : ∀ e, c.model = .error e ↔ c.checks.findSome? Check.defect? = some e := by
    intro e
    rw [← failure?_model, failure?_eq_some_iff]
  refine ⟨herror, ?_, fun m h => ⟨sound h, fun _ _ => language_model h, ?_⟩⟩
  · simp only [herror, ← Option.isSome_iff_exists, List.findSome?_isSome_iff]
    simp only [Option.isSome_iff_exists]
    constructor
    · rintro ⟨k, hk, e, he⟩
      obtain ⟨i, hi, hdefect⟩ := exists_checks_iff.mp ⟨k, hk, he⟩
      exact ⟨i, hi, e, hdefect⟩
    · rintro ⟨i, hi, e, hdefect⟩
      obtain ⟨k, hk, he⟩ := exists_checks_iff.mpr ⟨i, hi, hdefect⟩
      exact ⟨k, hk, e, he⟩
  · intro sets parent q hq ts
    rw [Model.run?_compile_isSome_iff hq, language_model h]

/-- An item that ignores text, and one in which the item inside is wrong before the bounds are. -/
theorem Contents.model_defect_or_meaning_optional :
    let c : Contents := .items [.optional (.one " DD ") (some (.one "#text"))]
    let d : Contents := .items [.repeatItems .oneOrMore [.choice []] (some 0) none]
    (∃ m q, c.model = .ok m ∧ m.Sound ∧ m.compile .empty none = .ok q ∧
      (q.run? [.element "dd"]).isSome) ∧ d.model = .error .emptyChoice := by
  intro c d
  have hname : nameLanguage .empty 0 " DD " = {["dd"]} := by
    have htrimmed : trimmed " DD " = "DD" := by decide
    have hlower : Ascii.lower "DD" = "dd" := by decide
    have hcategory : isCategoryName "DD" = false := by decide
    rw [nameLanguage, htrimmed, if_neg (by decide), if_neg (by decide), hcategory, hlower]
    rfl
  have hrow : ["dd"] ∈ c.language .empty (inheritedLanguage none) := by
    refine Language.mem_mul.mpr ⟨["dd"], ⟨1, Nat.zero_le 1, fun m hm => ?_, ?_⟩, [], rfl, rfl⟩
    · exact (Option.some.inj hm).le
    · rw [pow_one]
      refine ⟨" DD ", List.mem_singleton.mpr rfl, ?_⟩
      show ["dd"] ∈ nameLanguage .empty 0 " DD "
      rw [hname]
      rfl
  have hmodel : c.model = .ok (.excluding (.optional (.tag "dd")) [.text]) := rfl
  obtain ⟨hsound, -, haccepts⟩ := (model_defect_or_meaning c).2.2 _ hmodel
  obtain ⟨q, hq⟩ : ∃ q, (Model.excluding (.optional (.tag "dd")) [.text]).compile .empty none =
      .ok q := ⟨_, rfl⟩
  have haccepted := (haccepts _ _ q hq [.element "dd"]).mpr hrow
  have herror := ((model_defect_or_meaning d).1 .emptyChoice).mpr rfl
  exact ⟨⟨_, q, hmodel, hsound, hq, haccepted⟩, herror⟩

end ContentGrammar
