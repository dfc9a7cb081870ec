import ContentGrammar.Proofs.Model.Author

/-!
# What is wrong with written contents

Reading contents looks at them piece by piece, and each piece can be wrong by itself whatever is
around it. `Contents.checks` lists the pieces in the order in which they are looked at, and
`Item.Defect` says when an item by itself has something wrong in it.

* `Contents.failure?_model` — contents are not read just if a piece is wrong, and the error is that
  of the first one;
* `Contents.exists_checks_iff` — a piece is wrong just if an item, at any depth, is wrong by itself.
-/

namespace ContentGrammar

/-- A piece of contents that is looked at. -/
inductive Check
  /-- Names to permit, which must not be missing. -/
  | named (names : Names)
  /-- The alternatives of a choice, which must not be missing. -/
  | offered (alternatives : List (List Item))
  /-- The bounds of a repetition, which have to be in order. -/
  | counted (least : Nat) (most : Option Nat)
  /-- A target to ignore, which has to be text, a category or a selector. -/
  | target (raw : String)
  /-- All targets to ignore, which must not be missing. -/
  | ignored (names : Names)

/-- What is wrong with a piece, if anything is. -/
def Check.defect? : Check → Option ModelError
  | .named names => if names.toList.isEmpty then some .emptyChoice else none
  | .offered alternatives => if alternatives.isEmpty then some .emptyChoice else none
  | .counted least (some most) =>
    if most < least then some (.invalidRepetition least most) else none
  | .counted _ none => none
  | .target raw =>
    if trimmed raw = textName ∨ isCategoryName (trimmed raw) = true then none
    else match Selector.parse (trimmed raw) with
      | .ok _ => none
      | .error e => some (.selector e)
  | .ignored names => if names.toList.isEmpty then some .emptyForbiddenSet else none

/-- The pieces of what is to be ignored, if anything is: the targets in written order. -/
def ignoreChecks : Option Names → List Check
  | none => []
  | some names => names.toList.map .target ++ [.ignored names]

mutual

/-- The pieces of an item: what it permits, then its bounds, then what it ignores. That a choice
offers anything comes before what it offers. -/
def Item.checks : Item → List Check
  | .require what min max ignore =>
    .named what :: .counted (min.getD 1) (some (max.getD (min.getD 1))) :: ignoreChecks ignore
  | .optional what ignore => .named what :: ignoreChecks ignore
  | .repeatNames quantity what max ignore =>
    .named what :: .counted quantity.least max :: ignoreChecks ignore
  | .repeatItems quantity what max ignore =>
    itemChecks what ++ .counted quantity.least max :: ignoreChecks ignore
  | .choice alternatives => .offered alternatives :: alternativeChecks alternatives

/-- The pieces of items, one item after the other. -/
def itemChecks : List Item → List Check
  | [] => []
  | i :: is => i.checks ++ itemChecks is

/-- The pieces of lists of items, one list after the other. -/
def alternativeChecks : List (List Item) → List Check
  | [] => []
  | is :: rest => itemChecks is ++ alternativeChecks rest

end

/-- The pieces of contents. -/
def Contents.checks : Contents → List Check
  | .flag _ => []
  | .items is => itemChecks is

/-! ## The first defect -/

/-- Reading names fails only if there are none. -/
theorem Names.failure?_model (names : Names) : failure? names.model = (Check.named names).defect? := by
  rw [model, Check.defect?]
  cases names.toList with
  | nil => rfl
  | cons name rest => cases rest <;> rfl

/-- Reading bounds fails only if they are not in order. -/
theorem Model.failure?_repetition (m : Model) (least : Nat) (most : Option Nat) :
    failure? (m.repetition least most) = (Check.counted least most).defect? := by
  cases most with
  | none => rfl
  | some most =>
    show failure? (if most < least then _ else _) = if most < least then _ else _
    split <;> rfl

theorem Target.failure?_ofText (raw : String) :
    failure? (Target.ofText raw) = (Check.target raw).defect? := by
  unfold ofText Check.defect?
  dsimp only
  by_cases htext : trimmed raw = textName
  · rw [if_pos htext, if_pos (.inl htext)]
    rfl
  by_cases hcategory : isCategoryName (trimmed raw) = true
  · rw [if_neg htext, if_pos hcategory, if_pos (.inr hcategory)]
    rfl
  · rw [if_neg htext, if_neg hcategory, if_neg (not_or.mpr ⟨htext, hcategory⟩)]
    cases Selector.parse (trimmed raw) <;> rfl

/-- Reading what is to be ignored fails at the first target that is wrong, or if there is none. -/
theorem Model.failure?_ignoring (m : Model) (ignore : Option Names) :
    failure? (m.ignoring ignore) = (ignoreChecks ignore).findSome? Check.defect? := by
  cases ignore with
  | none => rfl
  | some names =>
    have htargets : ∀ raws : List String, failure? (raws.mapM Target.ofText) =
        (raws.map Check.target).findSome? Check.defect? := by
      intro raws
      induction raws with
      | nil => rfl
      | cons raw raws ih =>
        rw [List.mapM_cons, List.map_cons, findSome?_cons_or, ← Target.failure?_ofText, ← ih]
        exact failure?_bind fun _ => failure?_bind_ok fun _ => rfl
    -- whether there are targets at all can be seen from the names
    have hempty : ∀ {raws : List String} {ts : List Target},
        raws.mapM Target.ofText = .ok ts → ts.isEmpty = raws.isEmpty := by
      intro raws ts h
      cases raws with
      | nil =>
        obtain rfl := Except.ok.inj h
        rfl
      | cons raw raws =>
        rw [List.mapM_cons] at h
        obtain ⟨t, -, h⟩ := ok_of_bind h
        obtain ⟨ts', -, h⟩ := ok_of_bind h
        obtain rfl := Except.ok.inj h
        rfl
    rw [ignoring, ignoreChecks, List.findSome?_append, ← htargets]
    cases h : names.toList.mapM Target.ofText with
    | error e => rfl
    | ok ts =>
      show failure? (exclusion m ts) = Option.or none _
      rw [exclusion, hempty h, List.findSome?_singleton, Option.none_or, Check.defect?]
      split <;> rfl

/-- A row of items is read up to the first that is wrong. -/
theorem failure?_itemModels {is : List Item}
    (h : ∀ i ∈ is, failure? i.model = i.checks.findSome? Check.defect?) :
    failure? (itemModels is) = (itemChecks is).findSome? Check.defect? := by
  induction is with
  | nil => rfl
  | cons i is ih =>
    rw [itemModels, itemChecks, List.findSome?_append, ← h i List.mem_cons_self,
      ← ih fun j hj => h j (List.mem_cons_of_mem _ hj)]
    exact failure?_bind fun _ => failure?_bind_ok fun _ => rfl

theorem failure?_alternativeModels {as : List (List Item)}
    (h : ∀ is ∈ as, ∀ i ∈ is, failure? i.model = i.checks.findSome? Check.defect?) :
    failure? (alternativeModels as) = (alternativeChecks as).findSome? Check.defect? := by
  induction as with
  | nil => rfl
  | cons is as ih =>
    rw [alternativeModels, alternativeChecks, List.findSome?_append,
      ← failure?_itemModels (h is List.mem_cons_self),
      ← ih fun js hjs => h js (List.mem_cons_of_mem _ hjs)]
    exact failure?_bind fun _ => failure?_bind_ok fun _ => rfl

/-- An item is not read just if a piece of it is wrong, and the error is that of the first one. -/
theorem Item.failure?_model (i : Item) : failure? i.model = i.checks.findSome? Check.defect? := by
  induction i with
  | require what min max ignore =>
    rw [model, checks, findSome?_cons_or, findSome?_cons_or, ← Names.failure?_model]
    refine failure?_bind fun m => ?_
    dsimp only
    split
    case isTrue hone =>
      -- there is nothing wrong with bounds that are both 1
      rw [hone.2, hone.1]
      exact m.failure?_ignoring ignore
    case isFalse =>
      rw [← m.failure?_repetition]
      exact failure?_bind fun n => n.failure?_ignoring ignore
  | optional what ignore =>
    rw [model, checks, findSome?_cons_or, ← Names.failure?_model]
    exact failure?_bind fun m => Model.failure?_ignoring (.optional m) ignore
  | repeatNames quantity what max ignore =>
    rw [model, checks, findSome?_cons_or, findSome?_cons_or, ← Names.failure?_model]
    refine failure?_bind fun m => ?_
    rw [← m.failure?_repetition]
    exact failure?_bind fun n => n.failure?_ignoring ignore
  | repeatItems quantity what max ignore ih =>
    rw [model, checks, List.findSome?_append, findSome?_cons_or, ← failure?_itemModels ih]
    refine failure?_bind fun ms => ?_
    rw [← (Model.ofSequence ms).failure?_repetition]
    exact failure?_bind fun n => n.failure?_ignoring ignore
  | choice alternatives ih =>
    rw [model, checks, findSome?_cons_or, Check.defect?]
    split
    · rfl
    · rw [Option.none_or, ← failure?_alternativeModels ih]
      exact failure?_bind_ok fun _ => rfl

/-- Contents are not read just if a piece of them is wrong, and the error is that of the first. -/
theorem Contents.failure?_model (c : Contents) :
    failure? c.model = c.checks.findSome? Check.defect? := by
  cases c with
  | flag anything => cases anything <;> rfl
  | items is =>
    rw [model, checks, ← failure?_itemModels fun i _ => i.failure?_model]
    exact failure?_bind_ok fun _ => rfl

/-! ## Defects by themselves -/

/-- The names that an item permits, if it does not go by items. -/
def Item.names? : Item → Option Names
  | .require what _ _ _ | .optional what _ | .repeatNames _ what _ _ => some what
  | .repeatItems _ _ _ _ | .choice _ => none

/-- How often at least, and at most, an item permits what it does. What is required is so once, or as
often as it is at least. -/
def Item.bounds? : Item → Option (Nat × Option Nat)
  | .require _ min max _ => some (min.getD 1, some (max.getD (min.getD 1)))
  | .repeatNames quantity _ max _ | .repeatItems quantity _ max _ => some (quantity.least, max)
  | .optional _ _ | .choice _ => none

/-- The targets that an item ignores. -/
def Item.ignore? : Item → Option Names
  | .require _ _ _ ignore | .optional _ ignore | .repeatNames _ _ _ ignore
  | .repeatItems _ _ _ ignore => ignore
  | .choice _ => none

/-- `i.Defect e`: the item `i` by itself is wrong in the way of `e`, whatever the items in it. -/
inductive Item.Defect : Item → ModelError → Prop
  | noNames {i names} : i.names? = some names → names.toList = [] → Defect i .emptyChoice
  | noAlternatives : Defect (.choice []) .emptyChoice
  | bounds {i least most} : i.bounds? = some (least, some most) → most < least →
      Defect i (.invalidRepetition least most)
  | noTargets {i names} : i.ignore? = some names → names.toList = [] → Defect i .emptyForbiddenSet
  | target {i names raw e} : i.ignore? = some names → raw ∈ names.toList →
      trimmed raw ≠ textName → isCategoryName (trimmed raw) = false →
      Selector.parse (trimmed raw) = .error e → Defect i (.selector e)

mutual

/-- An item and the items in it, at any depth. -/
def Item.all : Item → List Item
  | .require what min max ignore => [.require what min max ignore]
  | .optional what ignore => [.optional what ignore]
  | .repeatNames quantity what max ignore => [.repeatNames quantity what max ignore]
  | .repeatItems quantity what max ignore =>
    .repeatItems quantity what max ignore :: allItems what
  | .choice alternatives => .choice alternatives :: allAlternatives alternatives

/-- Items and the items in them. -/
def allItems : List Item → List Item
  | [] => []
  | i :: is => i.all ++ allItems is

/-- The items of lists and the items in them. -/
def allAlternatives : List (List Item) → List Item
  | [] => []
  | is :: rest => allItems is ++ allAlternatives rest

end

/-- The items of contents, at any depth. -/
def Contents.all : Contents → List Item
  | .flag _ => []
  | .items is => allItems is

/-- The pieces of an item that are not pieces of an item in it. -/
def Item.own : Item → List Check
  | .choice alternatives => [.offered alternatives]
  | i => (i.names?.map Check.named).toList ++ (i.bounds?.map fun b => .counted b.1 b.2).toList ++
    ignoreChecks i.ignore?

theorem mem_itemChecks {is : List Item} {k : Check}
    (h : ∀ i ∈ is, k ∈ i.checks ↔ ∃ j ∈ i.all, k ∈ j.own) :
    k ∈ itemChecks is ↔ ∃ j ∈ allItems is, k ∈ j.own := by
  induction is with
  | nil => simp [itemChecks, allItems]
  | cons i is ih =>
    simp only [itemChecks, allItems, List.mem_append, h i List.mem_cons_self,
      ih fun j hj => h j (List.mem_cons_of_mem _ hj), or_and_right, exists_or]

theorem mem_alternativeChecks {as : List (List Item)} {k : Check}
    (h : ∀ is ∈ as, ∀ i ∈ is, k ∈ i.checks ↔ ∃ j ∈ i.all, k ∈ j.own) :
    k ∈ alternativeChecks as ↔ ∃ j ∈ allAlternatives as, k ∈ j.own := by
  induction as with
  | nil => simp [alternativeChecks, allAlternatives]
  | cons is as ih =>
    simp only [alternativeChecks, allAlternatives, List.mem_append,
      mem_itemChecks (h is List.mem_cons_self), ih fun js hjs => h js (List.mem_cons_of_mem _ hjs),
      or_and_right, exists_or]

/-- A piece of an item is a piece of its own of one of the items in it. -/
theorem Item.mem_checks {i : Item} {k : Check} : k ∈ i.checks ↔ ∃ j ∈ i.all, k ∈ j.own := by
  induction i with
  | require what min max ignore => simp [checks, all, own, names?, bounds?, ignore?]
  | optional what ignore => simp [checks, all, own, names?, bounds?, ignore?]
  | repeatNames quantity what max ignore => simp [checks, all, own, names?, bounds?, ignore?]
  | repeatItems quantity what max ignore ih =>
    simp only [checks, all, List.mem_append, mem_itemChecks ih, List.mem_cons, exists_eq_or_imp, own,
      names?, bounds?, ignore?, Option.map_none, Option.map_some, Option.toList_none,
      Option.toList_some, List.nil_append, List.singleton_append]
    exact or_comm
  | choice alternatives ih =>
    simp only [checks, all, List.mem_cons, mem_alternativeChecks ih, exists_eq_or_imp, own,
      List.not_mem_nil, or_false]

/-- The pieces of an item: what it permits, its alternatives, its bounds and what it ignores. -/
theorem Item.mem_own {i : Item} {k : Check} : k ∈ i.own ↔
    (∃ names, i.names? = some names ∧ k = .named names) ∨
    (∃ as, i = .choice as ∧ k = .offered as) ∨
    (∃ least most, i.bounds? = some (least, most) ∧ k = .counted least most) ∨
    ∃ names, i.ignore? = some names ∧ (k = .ignored names ∨ ∃ raw ∈ names.toList, k = .target raw) := by
  have hignore : ∀ ignore : Option Names, k ∈ ignoreChecks ignore ↔ ∃ names, ignore = some names ∧
      (k = .ignored names ∨ ∃ raw ∈ names.toList, k = .target raw) := by
    intro ignore
    cases ignore with
    | none => simp [ignoreChecks]
    | some names => simp [ignoreChecks, eq_comm, or_comm]
  cases i <;> simp [own, names?, bounds?, ignore?, hignore, eq_comm]

namespace Check

variable {names : Names} {least : Nat} {most : Option Nat} {raw : String} {e : ModelError}

theorem defect?_named : (named names).defect? = some e ↔ names.toList = [] ∧ .emptyChoice = e := by
  simp [defect?]

theorem defect?_offered {as : List (List Item)} :
    (offered as).defect? = some e ↔ as = [] ∧ .emptyChoice = e := by
  simp [defect?]

theorem defect?_counted : (counted least most).defect? = some e ↔
    ∃ k, most = some k ∧ k < least ∧ .invalidRepetition least k = e := by
  cases most <;> simp [defect?]

theorem defect?_target : (target raw).defect? = some e ↔ trimmed raw ≠ textName ∧
    isCategoryName (trimmed raw) = false ∧
    ∃ cause, Selector.parse (trimmed raw) = .error cause ∧ .selector cause = e := by
  rw [defect?]
  split
  case isTrue h => grind
  case isFalse h =>
    rw [not_or, Bool.not_eq_true] at h
    split <;> grind

theorem defect?_ignored :
    (ignored names).defect? = some e ↔ names.toList = [] ∧ .emptyForbiddenSet = e := by
  simp [defect?]

end Check

/-- What is wrong with an item by itself can be seen from the pieces of its own. -/
theorem Item.defect_iff {i : Item} {e : ModelError} :
    i.Defect e ↔ ∃ k ∈ i.own, k.defect? = some e := by
  -- each defect is that of one piece of the item, and the other way round
  constructor
  · intro h
    cases h with
    | noNames hi hnames =>
      exact ⟨_, mem_own.mpr (.inl ⟨_, hi, rfl⟩), Check.defect?_named.mpr ⟨hnames, rfl⟩⟩
    | noAlternatives =>
      exact ⟨_, mem_own.mpr (.inr (.inl ⟨_, rfl, rfl⟩)), Check.defect?_offered.mpr ⟨rfl, rfl⟩⟩
    | bounds hi hlt =>
      exact ⟨_, mem_own.mpr (.inr (.inr (.inl ⟨_, _, hi, rfl⟩))),
        Check.defect?_counted.mpr ⟨_, rfl, hlt, rfl⟩⟩
    | noTargets hi hnames =>
      exact ⟨_, mem_own.mpr (.inr (.inr (.inr ⟨_, hi, .inl rfl⟩))),
        Check.defect?_ignored.mpr ⟨hnames, rfl⟩⟩
    | target hi hraw htext hcategory hparse =>
      exact ⟨_, mem_own.mpr (.inr (.inr (.inr ⟨_, hi, .inr ⟨_, hraw, rfl⟩⟩))),
        Check.defect?_target.mpr ⟨htext, hcategory, _, hparse, rfl⟩⟩
  · rintro ⟨k, hk, he⟩
    rcases mem_own.mp hk with ⟨names, hi, rfl⟩ | ⟨as, rfl, rfl⟩ | ⟨least, most, hi, rfl⟩ |
      ⟨names, hi, rfl | ⟨raw, hraw, rfl⟩⟩
    · obtain ⟨hnames, rfl⟩ := Check.defect?_named.mp he
      exact .noNames hi hnames
    · obtain ⟨rfl, rfl⟩ := Check.defect?_offered.mp he
      exact .noAlternatives
    · obtain ⟨k, rfl, hlt, rfl⟩ := Check.defect?_counted.mp he
      exact .bounds hi hlt
    · obtain ⟨hnames, rfl⟩ := Check.defect?_ignored.mp he
      exact .noTargets hi hnames
    · obtain ⟨htext, hcategory, _, hparse, rfl⟩ := Check.defect?_target.mp he
      exact .target hi hraw htext hcategory hparse

/-- A piece of contents is wrong just if an item of the contents is wrong by itself. -/
theorem Contents.exists_checks_iff {c : Contents} {e : ModelError} :
    (∃ k ∈ c.checks, k.defect? = some e) ↔ ∃ i ∈ c.all, i.Defect e := by
  have hchecks : ∀ k, k ∈ c.checks ↔ ∃ i ∈ c.all, k ∈ i.own := by
    intro k
    cases c with
    | flag anything => simp [checks, all]
    | items is => exact mem_itemChecks fun i _ => i.mem_checks
  simp only [hchecks, Item.defect_iff]
  grind

end ContentGrammar
