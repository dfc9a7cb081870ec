import Mathlib.Computability.Language
import ContentGrammar.Proofs.Pattern.Matching

/-!
# The language of a pattern

Which rows of children a pattern takes depends on their names alone, so a pattern stands for a
language over names. `matches_iff` ties it to derivations, and `run?_isSome_iff_mem_language` to what is run.
-/

namespace ContentGrammar

/-- The rows that consist of one name of a class. -/
def TokenClass.language : TokenClass → Language String
  | .any => {w | ∃ name, w = [name]}
  | .oneOf names => {w | ∃ name ∈ names, w = [name]}

/-- The rows that consist of rows of a language: of `least` or more, and, if there is a bound, not
of more than the bound and `least`. -/
def repetitions (l : Language String) (least : Nat) (most : Option Nat) : Language String :=
  {w | ∃ k, least ≤ k ∧ (∀ m, most = some m → k ≤ max least m) ∧ w ∈ l ^ k}

theorem mem_sum_map {α : Type} {f : α → Language String} {xs : List α} {w : List String} :
    w ∈ (xs.map f).sum ↔ ∃ x ∈ xs, w ∈ f x := by
  induction xs with
  | nil => simp
  | cons x xs ih => simp [Language.mem_add, ih]

namespace Pattern

mutual

/-- The rows of names that a pattern takes. -/
def language : Pattern → Language String
  | .empty => 1
  | .token c => c.language
  | .sequence ps => (languages ps).prod
  | .choice ps => (languages ps).sum
  | .repeated p least most => repetitions p.language least most
  | .labeled _ p => p.language

/-- The languages of several patterns. -/
def languages : List Pattern → List (Language String)
  | [] => []
  | p :: ps => p.language :: languages ps

end

theorem languages_eq_map (ps : List Pattern) : languages ps = ps.map language := by
  induction ps with
  | nil => rfl
  | cons p ps ih => rw [languages, ih, List.map_cons]

theorem mem_repetitions {l : Language String} {least : Nat} {most : Option Nat}
    {w : List String} : w ∈ repetitions l least most ↔
      ∃ k, least ≤ k ∧ (∀ m, most = some m → k ≤ max least m) ∧ w ∈ l ^ k := Iff.rfl

/-! ## Derivations -/

/-- The derivations of a pattern, wherever they begin, are over the rows of its language. -/
def Denotes (p : Pattern) : Prop :=
  ∀ i ts, (∃ ss, Derivation p i ts ss) ↔ ts.map Token.name ∈ p.language

theorem denotes_token (c : TokenClass) : Denotes (.token c) := by
  intro i ts
  rw [language]
  constructor
  · rintro ⟨ss, h⟩
    cases h with
    | @token _ _ t h =>
      cases c with
      | any => exact ⟨t.name, rfl⟩
      | oneOf names => exact ⟨t.name, NameSet.contains_iff.mp h, rfl⟩
  · intro h
    obtain ⟨t, rfl, ht⟩ : ∃ t, ts = [t] ∧ c.accepts t = true := by
      cases c with
      | any =>
        obtain ⟨name, hname⟩ := h
        obtain ⟨t, rfl, rfl⟩ := List.map_eq_singleton_iff.mp hname
        exact ⟨t, rfl, rfl⟩
      | oneOf names =>
        obtain ⟨name, hmem, hname⟩ := h
        obtain ⟨t, rfl, rfl⟩ := List.map_eq_singleton_iff.mp hname
        exact ⟨t, rfl, NameSet.contains_iff.mpr hmem⟩
    exact ⟨[], .token ht⟩

theorem derivation_sequence_iff {ps : List Pattern} (h : ∀ p ∈ ps, Denotes p) (i : Nat)
    (ts : List Token) :
    (∃ ss, Derivation (.sequence ps) i ts ss) ↔ ts.map Token.name ∈ (ps.map language).prod := by
  induction ps generalizing i ts with
  | nil =>
    rw [List.map_nil, List.prod_nil, Language.mem_one, List.map_eq_nil_iff]
    constructor
    · rintro ⟨ss, hd⟩
      exact (Derivation.sequence_nil_iff.mp hd).1
    · rintro rfl
      exact ⟨[], .sequenceNil⟩
  | cons p ps ih =>
    have hp := h p List.mem_cons_self
    have hps := ih fun q hq => h q (List.mem_cons_of_mem _ hq)
    rw [List.map_cons, List.prod_cons, Language.mem_mul]
    constructor
    · rintro ⟨ss, hd⟩
      obtain ⟨us, vs, ss₁, ss₂, rfl, -, hd₁, hd₂⟩ := Derivation.sequence_cons_iff.mp hd
      exact ⟨_, (hp i us).mp ⟨_, hd₁⟩, _, (hps _ vs).mp ⟨_, hd₂⟩, List.map_append.symm⟩
    · rintro ⟨a, ha, b, hb, hab⟩
      obtain ⟨us, vs, rfl, rfl, rfl⟩ := List.map_eq_append_iff.mp hab.symm
      obtain ⟨ss₁, hd₁⟩ := (hp i us).mpr ha
      obtain ⟨ss₂, hd₂⟩ := (hps (i + us.length) vs).mpr hb
      exact ⟨_, .sequenceCons hd₁ hd₂⟩

theorem denotes_repeated {p : Pattern} {least : Nat} {most : Option Nat} (hp : Denotes p) :
    Denotes (.repeated p least most) := by
  intro i ts
  -- `k` items in a row are a sequence of `k` copies
  have hcopies : ∀ k, (∃ ss, Derivation (.sequence (List.replicate k p)) i ts ss) ↔
      ts.map Token.name ∈ p.language ^ k := by
    intro k
    have hall : ∀ q ∈ List.replicate k p, Denotes q := fun q hq =>
      List.eq_of_mem_replicate hq ▸ hp
    rw [derivation_sequence_iff hall, List.map_replicate, List.prod_replicate]
  rw [language, mem_repetitions]
  constructor
  · rintro ⟨ss, hd⟩
    obtain ⟨k, hmin, hmax, hd⟩ := Derivation.repeated_iff.mp hd
    exact ⟨k, hmin, hmax, (hcopies k).mp ⟨ss, hd⟩⟩
  · rintro ⟨k, hmin, hmax, hw⟩
    obtain ⟨ss, hd⟩ := (hcopies k).mpr hw
    exact ⟨ss, .repeated hmin hmax hd⟩

theorem denotes (p : Pattern) : Denotes p := by
  induction p with
  | empty =>
    intro i ts
    rw [language, Language.mem_one, List.map_eq_nil_iff]
    simp [Derivation.empty_iff]
  | token c => exact denotes_token c
  | sequence ps ih =>
    intro i ts
    rw [language, languages_eq_map]
    exact derivation_sequence_iff ih i ts
  | choice ps ih =>
    intro i ts
    rw [language, languages_eq_map, mem_sum_map]
    constructor
    · rintro ⟨ss, hd⟩
      obtain ⟨p, hp, hd⟩ := Derivation.choice_iff.mp hd
      exact ⟨p, hp, (ih p hp i ts).mp ⟨ss, hd⟩⟩
    · rintro ⟨p, hp, hw⟩
      obtain ⟨ss, hd⟩ := (ih p hp i ts).mpr hw
      exact ⟨ss, .choice hp hd⟩
  | repeated p least most ih => exact denotes_repeated ih
  | labeled l p ih =>
    -- a region takes what its inside takes, and is only recorded
    intro i ts
    rw [language, ← ih i ts]
    constructor
    · rintro ⟨ss, hd⟩
      obtain ⟨rs, -, hd⟩ := Derivation.labeled_iff.mp hd
      exact ⟨rs, hd⟩
    · rintro ⟨rs, hd⟩
      exact ⟨_, .labeled hd⟩

/-- A pattern takes a row of tokens just when their names are in its language. -/
theorem matches_iff {p : Pattern} {ts : List Token} :
    p.Matches ts ↔ ts.map Token.name ∈ p.language := denotes p 0 ts

/-! ## What is accepted -/

/-- The rows of names of the tokens that a pattern accepts when it is run. -/
def accepted (p : Pattern) : Language String :=
  {w | ∃ ts : List Token, (p.run? ts).isSome ∧ ts.map Token.name = w}

theorem run?_isSome_iff_mem_language {p : Pattern} {ts : List Token} :
    (p.run? ts).isSome ↔ ts.map Token.name ∈ p.language := run?_isSome_iff.trans matches_iff

/-- Each name is the name of a token, so all of the language is accepted. -/
theorem accepted_eq_language (p : Pattern) : p.accepted = p.language := by
  ext w
  constructor
  · rintro ⟨ts, hr, rfl⟩
    exact run?_isSome_iff_mem_language.mp hr
  · intro hw
    have hnames : (w.map Token.element).map Token.name = w := by
      rw [List.map_map]
      exact List.map_id w
    refine ⟨w.map Token.element, run?_isSome_iff_mem_language.mpr ?_, hnames⟩
    rwa [hnames]

theorem language_any : any.language = ⊤ := by
  refine top_unique fun w _ => ?_
  rw [any, language, language]
  refine mem_repetitions.mpr ⟨w.length, Nat.zero_le _, nofun, ?_⟩
  induction w with
  | nil => exact Language.nil_mem_one
  | cons name w ih =>
    rw [List.length_cons, pow_succ']
    exact Language.mem_mul.mpr ⟨[name], ⟨name, rfl⟩, w, ih trivial, rfl⟩

end Pattern

end ContentGrammar
