import ContentGrammar.Proofs.Model.Fault
import ContentGrammar.Proofs.Pattern.Language

/-!
# The language of a model

What a model means, by the rows of names that it permits, given the rows that are permitted where
it is transparent. Compiling keeps the language (`language_compile`), so what the pattern of a model
accepts can be read off the model. A model that is nowhere transparent compiles to the same pattern
whatever there is to inherit, except that marks are given out from another number on
(`compile_eq_map`).
-/

namespace ContentGrammar

open Category (Sets)

/-- The rows of names that an inherited pattern accepts; none if there is no pattern. -/
def inheritedLanguage (parent : Option Pattern) : Language String :=
  (parent.map Pattern.accepted).getD 0

/-! ## Marks -/

/-- A label with its mark renamed. -/
def Label.mapMark (f : Nat → Nat) : Label → Label
  | .transparent => .transparent
  | .exclusion mark x => .exclusion (f mark) x

namespace Pattern

mutual

/-- A pattern with its marks renamed. -/
def mapMarks (f : Nat → Nat) : Pattern → Pattern
  | .empty => .empty
  | .token c => .token c
  | .sequence ps => .sequence (mapMarksAll f ps)
  | .choice ps => .choice (mapMarksAll f ps)
  | .repeated p least most => .repeated (p.mapMarks f) least most
  | .labeled l p => .labeled (l.mapMark f) (p.mapMarks f)

/-- Several patterns with their marks renamed. -/
def mapMarksAll (f : Nat → Nat) : List Pattern → List Pattern
  | [] => []
  | p :: ps => p.mapMarks f :: mapMarksAll f ps

end

/-- The first mark that a model gives out next to an inherited pattern. -/
def firstMark (parent : Option Pattern) : Nat := (parent.map freshMark).getD 0

end Pattern

namespace Model

mutual

/-- The rows of names that a model permits, where `inherited` are those that it permits where it is
transparent. -/
def language (sets : Sets) (inherited : Language String) : Model → Language String
  | .any => ⊤
  | .tag name => {[Ascii.lower name]}
  | .text => {[textName]}
  | .category name => {w | ∃ members, sets.get? name = some members ∧ ∃ n ∈ members, w = [n]}
  | .sequence ms => (languages sets inherited ms).prod
  | .choice ms => (languages sets inherited ms).sum
  | .optional m => 1 + m.language sets inherited
  | .repeated m least most => repetitions (m.language sets inherited) least most
  | .transparent => inherited
  | .excluding scope _ => scope.language sets inherited

/-- The languages of several models. -/
def languages (sets : Sets) (inherited : Language String) : List Model → List (Language String)
  | [] => []
  | m :: ms => m.language sets inherited :: languages sets inherited ms

end

variable {sets : Sets} {parent parent' : Option Pattern} {next after base : Nat} {p q : Pattern}
  {g : Nat → Nat}

/-! ## Languages of patterns -/

theorem language_singleton (name : String) :
    (Pattern.token (.oneOf (.singleton name))).language = {[name]} := by
  ext w
  rw [Pattern.language]
  constructor
  · rintro ⟨n, hn, rfl⟩
    rcases NameSet.mem_insert.mp hn with rfl | hn
    · rfl
    · exact absurd hn NameSet.not_mem_empty
  · rintro rfl
    exact ⟨name, NameSet.mem_insert.mpr (.inl rfl), rfl⟩

theorem get?_of_members {name : String} {members : NameSet}
    (h : sets.members name = .ok members) : sets.get? name = some members := by
  rw [Category.Sets.members] at h
  cases hg : sets.get? name with
  | none =>
    rw [hg] at h
    cases h
  | some members' =>
    rw [hg] at h
    rw [Except.ok.inj h]

theorem language_category {name : String} {members : NameSet} {inherited : Language String}
    (h : sets.get? name = some members) : (Pattern.token (.oneOf members)).language =
      (Model.category name).language sets inherited := by
  ext w
  rw [Pattern.language, language]
  constructor
  · intro hw
    exact ⟨members, h, hw⟩
  · rintro ⟨members', h', hw⟩
    obtain rfl := Option.some.inj (h.symm.trans h')
    exact hw

theorem repetitions_zero_one (l : Language String) : repetitions l 0 (some 1) = 1 + l := by
  ext w
  rw [Language.mem_add, Pattern.mem_repetitions]
  constructor
  · rintro ⟨k, -, hmax, hw⟩
    obtain rfl | rfl : k = 0 ∨ k = 1 := by
      have := hmax 1 rfl
      omega
    · exact .inl hw
    · exact .inr (by rwa [pow_one] at hw)
  · rintro (hw | hw)
    · exact ⟨0, Nat.le_refl _, fun _ _ => Nat.zero_le _, by rwa [pow_zero]⟩
    · refine ⟨1, Nat.zero_le _, fun m hm => ?_, by rwa [pow_one]⟩
      obtain rfl := Option.some.inj hm
      exact Nat.le_refl _

theorem language_compileAllFrom {ms : List Model} {ps : List Pattern}
    (ih : ∀ m ∈ ms, ∀ next q after, m.compileFrom sets parent next = .ok (q, after) →
      q.language = m.language sets (inheritedLanguage parent))
    (h : compileAllFrom sets parent next ms = .ok (ps, after)) :
    Pattern.languages ps = languages sets (inheritedLanguage parent) ms := by
  induction ms generalizing next ps after with
  | nil =>
    obtain ⟨rfl, rfl⟩ := Prod.mk.inj (Except.ok.inj h)
    rfl
  | cons m ms ihms =>
    rw [compileAllFrom] at h
    obtain ⟨⟨p, next'⟩, hp, h⟩ := ok_of_bind h
    obtain ⟨⟨qs, next''⟩, hqs, h⟩ := ok_of_bind h
    obtain ⟨rfl, rfl⟩ := Prod.mk.inj (Except.ok.inj h)
    rw [Pattern.languages, languages, ih m List.mem_cons_self _ _ _ hp,
      ihms (fun n hn => ih n (List.mem_cons_of_mem _ hn)) hqs]

/-- A model and its pattern have the same language. -/
theorem language_compileFrom (m : Model) (next : Nat) (q : Pattern) (after : Nat)
    (h : m.compileFrom sets parent next = .ok (q, after)) :
    q.language = m.language sets (inheritedLanguage parent) := by
  induction m generalizing next q after with
  | any =>
    obtain ⟨rfl, rfl⟩ := Prod.mk.inj (Except.ok.inj h)
    exact Pattern.language_any
  | tag name =>
    obtain ⟨rfl, rfl⟩ := Prod.mk.inj (Except.ok.inj h)
    exact language_singleton _
  | text =>
    obtain ⟨rfl, rfl⟩ := Prod.mk.inj (Except.ok.inj h)
    exact language_singleton _
  | category name =>
    rw [compileFrom] at h
    obtain ⟨members, hm, h⟩ := ok_of_bind h
    obtain ⟨rfl, rfl⟩ := Prod.mk.inj (Except.ok.inj h)
    exact language_category (get?_of_members hm)
  | sequence ms ih =>
    rw [compileFrom] at h
    obtain ⟨⟨ps, next'⟩, hps, h⟩ := ok_of_bind h
    obtain ⟨rfl, rfl⟩ := Prod.mk.inj (Except.ok.inj h)
    rw [Pattern.language, language, language_compileAllFrom ih hps]
  | choice ms ih =>
    rw [compileFrom] at h
    split at h
    · cases h
    · obtain ⟨⟨ps, next'⟩, hps, h⟩ := ok_of_bind h
      obtain ⟨rfl, rfl⟩ := Prod.mk.inj (Except.ok.inj h)
      rw [Pattern.language, language, language_compileAllFrom ih hps]
  | optional m ih =>
    rw [compileFrom] at h
    obtain ⟨⟨p, next'⟩, hp, h⟩ := ok_of_bind h
    obtain ⟨rfl, rfl⟩ := Prod.mk.inj (Except.ok.inj h)
    rw [Pattern.language, language, ih _ _ _ hp, repetitions_zero_one]
  | repeated m least most ih =>
    rw [compileFrom] at h
    obtain ⟨⟨p, next'⟩, hp, h⟩ := ok_of_bind h
    obtain ⟨rfl, rfl⟩ := Prod.mk.inj (Except.ok.inj h)
    rw [Pattern.language, language, ih _ _ _ hp]
  | transparent =>
    cases parent with
    | none => cases h
    | some p =>
      obtain ⟨rfl, rfl⟩ := Prod.mk.inj (Except.ok.inj h)
      -- a region leaves the language as it is, and that of the inherited pattern is what it accepts
      rw [Pattern.language, language, ← Pattern.accepted_eq_language]
      rfl
  | excluding scope targets ih =>
    rw [compileFrom] at h
    obtain ⟨forbidden, -, h⟩ := ok_of_bind h
    obtain ⟨⟨p, next'⟩, hp, h⟩ := ok_of_bind h
    obtain ⟨rfl, rfl⟩ := Prod.mk.inj (Except.ok.inj h)
    rw [Pattern.language, language, ih _ _ _ hp]

theorem language_compile {m : Model} (h : m.compile sets parent = .ok q) :
    q.language = m.language sets (inheritedLanguage parent) := by
  rw [compile] at h
  obtain ⟨⟨p, after⟩, hp, h⟩ := ok_of_bind h
  obtain rfl : p = q := Except.ok.inj h
  exact language_compileFrom m _ _ _ hp

/-- The pattern of a model accepts a row of tokens just when the model permits their names. -/
theorem run?_compile_isSome_iff {m : Model} (h : m.compile sets parent = .ok q) {ts : List Token} :
    (q.run? ts).isSome ↔ ts.map Token.name ∈ m.language sets (inheritedLanguage parent) := by
  rw [Pattern.run?_isSome_iff_mem_language, language_compile h]

/-! ## Models that are nowhere transparent -/

theorem languages_congr {l l' : Language String} {ms : List Model}
    (h : ∀ m ∈ ms, m.inherits = false → m.language sets l = m.language sets l')
    (hms : anyInherits ms = false) : languages sets l ms = languages sets l' ms := by
  induction ms with
  | nil => rfl
  | cons m ms ih =>
    rw [anyInherits, Bool.or_eq_false_iff] at hms
    rw [languages, languages, h m List.mem_cons_self hms.1,
      ih (fun n hn => h n (List.mem_cons_of_mem _ hn)) hms.2]

/-- What a model permits does not depend on what is inherited unless it inherits. -/
theorem language_congr {m : Model} (h : m.inherits = false) (l l' : Language String) :
    m.language sets l = m.language sets l' := by
  induction m with
  | any | tag name | category name | text => rfl
  | sequence ms ih | choice ms ih => rw [language, language, languages_congr ih h]
  | optional m ih | repeated m least most ih => rw [language, language, ih h]
  | transparent => cases h
  | excluding scope targets ih => exact ih h

/-! ## Renaming marks -/

theorem le_of_compileAllFrom {ms : List Model} {ps : List Pattern}
    (hms : ∀ m ∈ ms, ∀ next p after, m.compileFrom sets parent next = .ok (p, after) →
      next ≤ after)
    (h : compileAllFrom sets parent next ms = .ok (ps, after)) : next ≤ after := by
  induction ms generalizing next ps after with
  | nil =>
    obtain ⟨-, rfl⟩ := Prod.mk.inj (Except.ok.inj h)
    exact Nat.le_refl _
  | cons m ms ih =>
    rw [compileAllFrom] at h
    obtain ⟨⟨p, middle⟩, hp, h⟩ := ok_of_bind h
    obtain ⟨⟨qs, last⟩, hqs, h⟩ := ok_of_bind h
    obtain ⟨-, rfl⟩ := Prod.mk.inj (Except.ok.inj h)
    have hfirst := hms m List.mem_cons_self _ _ _ hp
    have hrest := ih (fun n hn => hms n (List.mem_cons_of_mem _ hn)) hqs
    exact Nat.le_trans hfirst hrest

/-- Marks are given out upwards. -/
theorem le_of_compileFrom {m : Model} (h : m.compileFrom sets parent next = .ok (p, after)) :
    next ≤ after := by
  induction m generalizing next p after with
  | any | tag name | text =>
    obtain ⟨-, rfl⟩ := Prod.mk.inj (Except.ok.inj h)
    exact Nat.le_refl _
  | category name =>
    obtain ⟨members, -, h⟩ := ok_of_bind h
    obtain ⟨-, rfl⟩ := Prod.mk.inj (Except.ok.inj h)
    exact Nat.le_refl _
  | sequence ms ih =>
    rw [compileFrom] at h
    obtain ⟨⟨ps, last⟩, hps, h⟩ := ok_of_bind h
    obtain ⟨-, rfl⟩ := Prod.mk.inj (Except.ok.inj h)
    exact le_of_compileAllFrom (fun m hm _ _ _ => ih m hm) hps
  | choice ms ih =>
    rw [compileFrom] at h
    split at h
    · cases h
    · obtain ⟨⟨ps, last⟩, hps, h⟩ := ok_of_bind h
      obtain ⟨-, rfl⟩ := Prod.mk.inj (Except.ok.inj h)
      exact le_of_compileAllFrom (fun m hm _ _ _ => ih m hm) hps
  | optional m ih | repeated m least most ih =>
    rw [compileFrom] at h
    obtain ⟨⟨q, last⟩, hq, h⟩ := ok_of_bind h
    obtain ⟨-, rfl⟩ := Prod.mk.inj (Except.ok.inj h)
    exact ih hq
  | transparent =>
    cases parent with
    | none => cases h
    | some q =>
      obtain ⟨-, rfl⟩ := Prod.mk.inj (Except.ok.inj h)
      exact Nat.le_refl _
  | excluding scope targets ih =>
    rw [compileFrom] at h
    obtain ⟨forbidden, -, h⟩ := ok_of_bind h
    obtain ⟨⟨q, last⟩, hq, h⟩ := ok_of_bind h
    obtain ⟨-, rfl⟩ := Prod.mk.inj (Except.ok.inj h)
    exact Nat.le_of_succ_le (ih hq)

theorem compileAllFrom_mapMarks {ms : List Model}
    (hms : ∀ m ∈ ms, (m.inherits = true → parent' = parent.map (Pattern.mapMarks g)) → ∀ next,
      base ≤ next → m.compileFrom sets parent' (g next) =
        (m.compileFrom sets parent next).map fun r => (r.1.mapMarks g, g r.2))
    (hparent : anyInherits ms = true → parent' = parent.map (Pattern.mapMarks g))
    (hnext : base ≤ next) : compileAllFrom sets parent' (g next) ms =
      (compileAllFrom sets parent next ms).map fun r => (Pattern.mapMarksAll g r.1, g r.2) := by
  induction ms generalizing next with
  | nil => rfl
  | cons m ms ih =>
    rw [anyInherits, Bool.or_eq_true] at hparent
    rw [compileAllFrom, compileAllFrom,
      hms m List.mem_cons_self (fun h => hparent (.inl h)) _ hnext]
    cases hm : m.compileFrom sets parent next with
    | error e => rfl
    | ok r =>
      -- marks go on from one model to the next, so the others begin further on as well
      have hrest := @ih r.2 (fun n hn => hms n (List.mem_cons_of_mem _ hn))
        (fun h => hparent (.inr h)) (Nat.le_trans hnext (le_of_compileFrom hm))
      show (Bind.bind (compileAllFrom sets parent' (g r.2) ms) _) = _
      rw [hrest]
      show _ = Except.map _ (Bind.bind (compileAllFrom sets parent r.2 ms) _)
      cases compileAllFrom sets parent r.2 ms <;> rfl

/-- Renamed marks stay renamed: with those of the inherited pattern renamed by `g`, and new ones
given out from the number that `g` gives to `next`, a model has the same pattern renamed by `g`. -/
theorem compileFrom_mapMarks (hg : ∀ n, base ≤ n → g (n + 1) = g n + 1) {m : Model}
    (hparent : m.inherits = true → parent' = parent.map (Pattern.mapMarks g))
    (hnext : base ≤ next) : m.compileFrom sets parent' (g next) =
      (m.compileFrom sets parent next).map fun r => (r.1.mapMarks g, g r.2) := by
  induction m generalizing next with
  | any | tag name | text => rfl
  | category name =>
    rw [compileFrom, compileFrom]
    cases sets.members name <;> rfl
  | sequence ms ih =>
    rw [compileFrom, compileFrom,
      compileAllFrom_mapMarks (fun m hm hp _ hn => ih m hm hp hn) hparent hnext]
    cases compileAllFrom sets parent next ms <;> rfl
  | choice ms ih =>
    rw [compileFrom, compileFrom,
      compileAllFrom_mapMarks (fun m hm hp _ hn => ih m hm hp hn) hparent hnext]
    cases ms with
    | nil => rfl
    | cons m ms => cases compileAllFrom sets parent next (m :: ms) <;> rfl
  | optional m ih | repeated m least most ih =>
    rw [compileFrom, compileFrom, ih hparent hnext]
    cases m.compileFrom sets parent next <;> rfl
  | transparent =>
    obtain rfl := hparent rfl
    cases parent <;> rfl
  | excluding scope targets ih =>
    -- the exclusion takes the first mark, so its scope begins one further on both sides
    rw [compileFrom, compileFrom, ← hg next hnext, ih hparent (Nat.le_succ_of_le hnext)]
    cases Forbidden.ofTargets sets targets with
    | error e => rfl
    | ok forbidden => cases scope.compileFrom sets parent (next + 1) <;> rfl

/-- With other marks free, a model that does not inherit has the same pattern except for its marks. -/
theorem compile_eq_map {m : Model} (h : m.inherits = false) (parent : Option Pattern) :
    m.compile sets parent =
      (m.compile sets none).map (Pattern.mapMarks (· + Pattern.firstMark parent)) := by
  have hshift : m.compileFrom sets parent (0 + Pattern.firstMark parent) =
      (m.compileFrom sets none 0).map fun r =>
        (r.1.mapMarks (· + Pattern.firstMark parent), r.2 + Pattern.firstMark parent) :=
    compileFrom_mapMarks (g := (· + Pattern.firstMark parent))
      (fun n _ => Nat.add_right_comm n 1 _)
      (fun hi => absurd (hi.symm.trans h) Bool.noConfusion) (Nat.le_refl 0)
  rw [compile, compile, ← Pattern.firstMark, ← Nat.zero_add (Pattern.firstMark parent), hshift,
    Nat.zero_add]
  show _ = Except.map _ (Bind.bind (m.compileFrom sets none 0) _)
  cases m.compileFrom sets none 0 <;> rfl

/-- Compiling a model fails just if one of its sites is at fault, and then with the fault of the
first one. Otherwise the pattern accepts a row of tokens just when the names of the tokens are in
the language of the model, where transparent models stand for what the inherited pattern accepts. A
model without transparent sites does not depend on it: it has the same language and, marks apart,
the same outcome with and without a pattern to inherit. -/
theorem compile_fault_or_language (sets : Sets) (parent : Option Pattern) (m : Model) :
    ((∃ e, m.compile sets parent = .error e) ↔ ∃ s ∈ m.sites, (s.fault? sets parent).isSome) ∧
    (∀ e, m.compile sets parent = .error e ↔
      m.sites.findSome? (Site.fault? sets parent) = some e) ∧
    (∀ q, m.compile sets parent = .ok q → ∀ ts : List Token,
      (q.run? ts).isSome ↔ ts.map Token.name ∈ m.language sets (inheritedLanguage parent)) ∧
    (m.inherits = true ↔ Site.shape .transparent ∈ m.sites) ∧
    (m.inherits = false →
      m.compile sets parent =
        (m.compile sets none).map (Pattern.mapMarks (· + Pattern.firstMark parent)) ∧
      m.language sets (inheritedLanguage parent) = m.language sets 0) := by
  refine ⟨?_, fun e => compile_eq_error_iff, fun q h ts => run?_compile_isSome_iff h,
    inherits_iff m, fun h => ⟨compile_eq_map h parent, language_congr h _ _⟩⟩
  rw [← List.findSome?_isSome_iff, ← fault?, Option.isSome_iff_exists]
  exact exists_congr fun e => compile_eq_error_iff

/-- A tag that may be left out, next to a pattern that it does not inherit. -/
theorem compile_fault_or_language_optional :
    (Model.optional (.tag "P")).inherits = false ∧
    ∃ q, (Model.optional (.tag "P")).compile .empty (some .empty) = .ok q ∧
      (q.run? [.element "p"]).isSome ∧ ¬ (q.run? [.text]).isSome ∧
      (Model.optional (.tag "P")).compile .empty none = .ok q := by
  obtain ⟨-, -, haccepts, -, halone⟩ :=
    compile_fault_or_language .empty (some .empty) (.optional (.tag "P"))
  refine ⟨rfl, _, rfl, (haccepts _ rfl _).mpr (.inr rfl), fun h => ?_, ?_⟩
  · rcases (haccepts _ rfl _).mp h with h | h
    · cases h
    · have hname : textName = Ascii.lower "P" := (List.cons.inj h).1
      exact absurd hname (by decide)
  · exact (halone rfl).1 ▸ rfl

end Model

end ContentGrammar
