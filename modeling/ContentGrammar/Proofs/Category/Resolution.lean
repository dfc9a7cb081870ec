import ContentGrammar.Proofs.Category.DepthFirst
import ContentGrammar.Proofs.Text.Dictionary

/-!
# What categories are resolved to

A category is resolved to the names in all categories that it reaches, or else to an error that
names the first of these, depth first, which is missing (`Answers`). A resolver knows nothing but
such answers (`Resolver.Sound`) whatever it was asked, so `resolver_answers` holds after any
requests: what they were does not show. Resolving a whole table succeeds just when no reference in
it dangles.
-/

namespace ContentGrammar

/-- Sets with the same members are the same. -/
theorem NameSet.ext_mem {s t : NameSet} (h : ∀ name, name ∈ s ↔ name ∈ t) : s = t := by
  have : Std.Irrefl (fun x y : String => x < y) := ⟨String.lt_irrefl⟩
  obtain ⟨xs, hxs⟩ := s
  obtain ⟨ys, hys⟩ := t
  obtain rfl : xs = ys := hxs.eq_of_mem_iff hys fun name => h name
  rfl

namespace Category

variable {table : Table} {name a b c : String} {members : NameSet} {r r' : Resolver}
  {sought : List String}

/-! ## Expanding one category -/

/-- What a request for a category is to be answered: the names among the members of all categories
that it reaches, if all of them are in the table, and else the first one that is not. -/
structure Answers (table : Table) (name : String) (answer : Except ModelError NameSet) : Prop where
  ok_iff : (∃ members, answer = .ok members) ↔ ∀ c, Reaches table name c → c ∈ table.keys
  mem_iff : ∀ members, answer = .ok members → ∀ x, x ∈ members ↔
    ∃ c listed, Reaches table name c ∧ table.get? c = some listed ∧
      ∃ m ∈ listed, isCategoryName m = false ∧ x = Ascii.lower m
  missing : ∀ e, answer = .error e → ∃ c,
    (depthFirst table [] [name]).find? (isMissing table) = some c ∧ e = .unknownCategory c

theorem isMissing_eq_false_iff : isMissing table name = false ↔ name ∈ table.keys := by
  rw [isMissing, Option.isNone_eq_false_iff, Option.isSome_iff_exists, Dictionary.mem_keys_iff]

theorem find?_isMissing_eq_none_iff :
    (depthFirst table [] [name]).find? (isMissing table) = none ↔
      ∀ c, Reaches table name c → c ∈ table.keys := by
  simp only [List.find?_eq_none, mem_depthFirst_singleton, Bool.not_eq_true,
    isMissing_eq_false_iff]

theorem mem_flatMap_names {x : String} :
    x ∈ (depthFirst table [] [name]).flatMap (names table) ↔
      ∃ c listed, Reaches table name c ∧ table.get? c = some listed ∧
        ∃ m ∈ listed, isCategoryName m = false ∧ x = Ascii.lower m := by
  simp only [List.mem_flatMap, mem_depthFirst_singleton, mem_names]
  constructor
  · rintro ⟨c, hreaches, listed, hlisted, hm⟩
    exact ⟨c, listed, hreaches, hlisted, hm⟩
  · rintro ⟨c, listed, hreaches, hlisted, hm⟩
    exact ⟨c, hreaches, listed, hlisted, hm⟩

theorem answers_expand (table : Table) (name : String) :
    Answers table name (expand table name) := by
  have hmissing := @find?_isMissing_eq_none_iff table name
  rw [expand_eq]
  cases hfind : (depthFirst table [] [name]).find? (isMissing table) with
  | some c =>
    rw [hfind] at hmissing
    refine ⟨⟨fun ⟨_, h⟩ => ?_, fun h => ?_⟩, fun _ h => ?_, fun e h => ?_⟩
    · cases h
    · cases hmissing.mpr h
    · cases h
    · cases h
      exact ⟨c, hfind, rfl⟩
  | none =>
    rw [hfind] at hmissing
    refine ⟨⟨fun _ => hmissing.mp rfl, fun _ => ⟨_, rfl⟩⟩, fun members h x => ?_, fun _ h => ?_⟩
    · cases h
      rw [NameSet.mem_ofList, mem_flatMap_names]
    · cases h

/-- A category that stands for something is in the table. -/
theorem mem_keys_of_expand (h : expand table name = .ok members) : name ∈ table.keys :=
  (answers_expand table name).ok_iff.mp ⟨members, h⟩ name .refl

/-- Categories that reach each other stand for the same names. -/
theorem expand_eq_of_reaches (hab : Reaches table a b) (hba : Reaches table b a) {s t : NameSet}
    (hs : expand table a = .ok s) (ht : expand table b = .ok t) : s = t := by
  refine NameSet.ext_mem fun x => ?_
  rw [(answers_expand table a).mem_iff s hs x, (answers_expand table b).mem_iff t ht x]
  constructor
  · rintro ⟨c, listed, hc, hlisted⟩
    exact ⟨c, listed, hba.trans hc, hlisted⟩
  · rintro ⟨c, listed, hc, hlisted⟩
    exact ⟨c, listed, hab.trans hc, hlisted⟩

/-- All that the categories of a table reach is in the table just when no reference dangles. -/
theorem reaches_mem_keys_iff :
    (∀ a ∈ table.keys, ∀ b, Reaches table a b → b ∈ table.keys) ↔
      ∀ a b, Refers table a b → b ∈ table.keys := by
  constructor
  · intro h a b hab
    have ⟨listed, hlisted, _⟩ := hab
    exact h a (Dictionary.mem_keys_of_get? hlisted) b (.single hab)
  · intro h a ha b hab
    cases hab with
    | refl => exact ha
    | tail _ hstep => exact h _ _ hstep

/-! ## Resolvers -/

namespace Resolver

/-- Whether a resolver knows nothing but what categories stand for. -/
def Sound (r : Resolver) : Prop :=
  ∀ name members, r.known.get? name = some members → expand r.table name = .ok members

/-- The resolver of a table after requests, whatever the answers were. -/
def after (table : Table) (earlier : List String) : Resolver :=
  earlier.foldl (fun r name => (r.resolve name).2) (new table)

theorem sound_new (table : Table) : (new table).Sound := by
  intro name members h
  cases h

/-- A request is answered by what the category stands for, and the resolver goes on knowing that
and what it knew. -/
theorem resolve_spec (h : r.Sound) (name : String) :
    (r.resolve name).1 = expand r.table name ∧ (r.resolve name).2.table = r.table ∧
      (r.resolve name).2.Sound ∧
      ((∃ members, expand r.table name = .ok members) →
        ∀ x, x ∈ (r.resolve name).2.known.keys ↔ x = name ∨ x ∈ r.known.keys) := by
  rw [resolve]
  cases hknown : r.known.get? name with
  | some members =>
    refine ⟨(h name members hknown).symm, rfl, h, fun _ x => ?_⟩
    have hname := Dictionary.mem_keys_of_get? hknown
    exact ⟨.inr, fun hx => hx.elim (fun heq => heq ▸ hname) id⟩
  | none =>
    cases hexpand : expand r.table name with
    | error e =>
      refine ⟨rfl, rfl, h, ?_⟩
      rintro ⟨members, hmembers⟩
      cases hmembers
    | ok members =>
      -- what is known now is what was known, with the new answer
      refine ⟨rfl, rfl, fun x ms hx => ?_, fun _ x => Dictionary.mem_keys_insertInto⟩
      dsimp only at hx ⊢
      rw [Dictionary.get?_insert] at hx
      split at hx
      · rename_i heq
        rw [heq, hexpand, Option.some.inj hx]
      · exact h x ms hx

theorem foldl_resolve_spec (h : r.Sound) (earlier : List String) :
    (earlier.foldl (fun r name => (r.resolve name).2) r).Sound ∧
      (earlier.foldl (fun r name => (r.resolve name).2) r).table = r.table := by
  induction earlier generalizing r with
  | nil => exact ⟨h, rfl⟩
  | cons name earlier ih =>
    obtain ⟨-, htable, hsound, -⟩ := resolve_spec h name
    rw [List.foldl_cons, ← htable]
    exact ih hsound

theorem after_spec (table : Table) (earlier : List String) :
    (after table earlier).Sound ∧ (after table earlier).table = table :=
  foldl_resolve_spec (sound_new table) earlier

theorem resolveNames_cons (name : String) (sought : List String) :
    r.resolveNames (name :: sought) =
      match (r.resolve name).1 with
      | .ok _ => (r.resolve name).2.resolveNames sought
      | .error e => .error e := by
  rw [resolveNames]
  split <;> rename_i heq <;> rw [heq]

/-- Resolving names one after the other adds them to what is known. -/
theorem resolveNames_ok (h : r.Sound) (hr : r.resolveNames sought = .ok r') :
    r'.Sound ∧ r'.table = r.table ∧
      ∀ x, x ∈ r'.known.keys ↔ x ∈ sought ∨ x ∈ r.known.keys := by
  induction sought generalizing r with
  | nil =>
    cases hr
    exact ⟨h, rfl, fun x => by simp⟩
  | cons name sought ih =>
    obtain ⟨hanswer, htable, hsound, hkeys⟩ := resolve_spec h name
    rw [resolveNames_cons, hanswer] at hr
    cases hexpand : expand r.table name with
    | error e =>
      rw [hexpand] at hr
      cases hr
    | ok members =>
      rw [hexpand] at hr
      obtain ⟨hsound', htable', hkeys'⟩ := ih hsound hr
      refine ⟨hsound', htable'.trans htable, fun x => ?_⟩
      rw [hkeys' x, hkeys ⟨members, hexpand⟩ x, List.mem_cons]
      tauto

theorem exists_resolveNames (h : r.Sound)
    (hsought : ∀ name ∈ sought, ∃ members, expand r.table name = .ok members) :
    ∃ r', r.resolveNames sought = .ok r' := by
  induction sought generalizing r with
  | nil => exact ⟨r, rfl⟩
  | cons name sought ih =>
    obtain ⟨hanswer, htable, hsound, -⟩ := resolve_spec h name
    obtain ⟨members, hmembers⟩ := hsought name List.mem_cons_self
    rw [resolveNames_cons, hanswer, hmembers]
    exact ih hsound fun x hx => htable ▸ hsought x (List.mem_cons_of_mem _ hx)

theorem resolveAll_eq_ok_iff {sets : Sets} :
    r.resolveAll = .ok sets ↔ ∃ r', r.resolveNames r.table.keys = .ok r' ∧ r'.known = sets := by
  rw [resolveAll]
  cases r.resolveNames r.table.keys with
  | error e => exact ⟨nofun, fun ⟨_, h, _⟩ => nomatch h⟩
  | ok r' =>
    constructor
    · intro h
      exact ⟨r', rfl, Except.ok.inj h⟩
    · rintro ⟨r'', h, rfl⟩
      cases h
      rfl

/-- The sets of a whole table are those of its categories, and they are there just when each of its
categories can be expanded. -/
theorem resolveAll_ok (h : r.Sound) {sets : Sets} (hr : r.resolveAll = .ok sets) :
    sets.keys = r.table.keys ∧
      ∀ name members, sets.get? name = some members → expand r.table name = .ok members := by
  obtain ⟨r', hr', rfl⟩ := resolveAll_eq_ok_iff.mp hr
  obtain ⟨hsound, htable, hkeys⟩ := resolveNames_ok h hr'
  refine ⟨Dictionary.keys_eq fun name => ?_, fun name members hname => ?_⟩
  · rw [hkeys name]
    refine ⟨fun hname => hname.elim id fun hknown => ?_, .inl⟩
    -- what was known before was in the table as well
    obtain ⟨members, hmembers⟩ := Dictionary.mem_keys_iff.mp hknown
    exact mem_keys_of_expand (h name members hmembers)
  · exact htable ▸ hsound name members hname

theorem exists_resolveAll_iff (h : r.Sound) : (∃ sets, r.resolveAll = .ok sets) ↔
    ∀ name ∈ r.table.keys, ∃ members, expand r.table name = .ok members := by
  constructor
  · rintro ⟨sets, hr⟩ name hname
    obtain ⟨hkeys, hget⟩ := resolveAll_ok h hr
    obtain ⟨members, hmembers⟩ := Dictionary.mem_keys_iff.mp (hkeys ▸ hname)
    exact ⟨members, hget name members hmembers⟩
  · intro hall
    obtain ⟨r', hr'⟩ := exists_resolveNames h hall
    exact ⟨_, resolveAll_eq_ok_iff.mpr ⟨r', hr', rfl⟩⟩

/-- Resolving names one after the other fails with what is missing for one of them. -/
theorem resolveNames_error (h : r.Sound) {e : ModelError} (hr : r.resolveNames sought = .error e) :
    ∃ name ∈ sought, expand r.table name = .error e := by
  induction sought generalizing r with
  | nil => cases hr
  | cons name sought ih =>
    obtain ⟨hanswer, htable, hsound, -⟩ := resolve_spec h name
    rw [resolveNames_cons, hanswer] at hr
    cases hexpand : expand r.table name with
    | error e' =>
      rw [hexpand] at hr
      obtain rfl := Except.error.inj hr
      exact ⟨name, List.mem_cons_self, hexpand⟩
    | ok members =>
      rw [hexpand] at hr
      obtain ⟨other, hother, he⟩ := ih hsound hr
      exact ⟨other, List.mem_cons_of_mem _ hother, htable ▸ he⟩

end Resolver

/-! ## Whole tables -/

/-- In a table that is resolved no reference dangles, and categories stand for the names that they
reach. -/
theorem resolveTable_ok {sets : Sets} (h : resolveTable table = .ok sets) :
    sets.keys = table.keys ∧ (∀ a b, Refers table a b → b ∈ table.keys) ∧
      ∀ name members, sets.get? name = some members → Answers table name (.ok members) := by
  have hsound := Resolver.sound_new table
  obtain ⟨hkeys, hget⟩ := Resolver.resolveAll_ok hsound h
  refine ⟨hkeys, reaches_mem_keys_iff.mp fun name hname => ?_, fun name members hname => ?_⟩
  · exact (answers_expand table name).ok_iff.mp
      ((Resolver.exists_resolveAll_iff hsound).mp ⟨sets, h⟩ name hname)
  · exact hget name members hname ▸ answers_expand table name

/-- A table is not resolved because of a reference that dangles. -/
theorem resolveTable_error {e : ModelError} (h : resolveTable table = .error e) :
    ∃ a b, Refers table a b ∧ b ∉ table.keys ∧ e = .unknownCategory b := by
  obtain ⟨name, hname, he⟩ : ∃ name ∈ table.keys, expand table name = .error e := by
    rw [resolveTable, Resolver.resolveAll] at h
    cases hnames : (Resolver.new table).resolveNames (Resolver.new table).table.keys with
    | error e' =>
      rw [hnames] at h
      obtain rfl := Except.error.inj h
      exact Resolver.resolveNames_error (Resolver.sound_new table) hnames
    | ok r =>
      rw [hnames] at h
      cases h
  obtain ⟨b, hb, rfl⟩ := (answers_expand table name).missing e he
  have hmissing : b ∉ table.keys := fun hkey => by
    have hb := List.find?_some hb
    rw [isMissing_eq_false_iff.mpr hkey] at hb
    cases hb
  have hreaches := mem_depthFirst_singleton.mp (List.mem_of_find?_eq_some hb)
  -- the category itself is in the table
  rcases hreaches.cases_tail with rfl | ⟨a, -, hab⟩
  · exact absurd hname hmissing
  · exact ⟨a, b, hab, hmissing, rfl⟩

/-! ## After any requests -/

/-- A resolver that was asked for any categories, in vain or not, answers each request as if it was
the first one: with the names in all that is reached, or with the first category, depth first and
from left to right, that is missing. It resolves its whole table just when no reference in it
dangles; the result has the categories of the table with these names, the same for categories that
reach each other. -/
theorem resolver_answers (table : Table) (earlier : List String) :
    (∀ name, Answers table name ((Resolver.after table earlier).resolve name).1 ∧
      ((Resolver.after table earlier).resolve name).1 = ((Resolver.new table).resolve name).1) ∧
    ((∃ sets, (Resolver.after table earlier).resolveAll = .ok sets) ↔
      ∀ a b, Refers table a b → b ∈ table.keys) ∧
    ∀ sets, (Resolver.after table earlier).resolveAll = .ok sets →
      sets.keys = table.keys ∧
      (∀ name members, sets.get? name = some members → Answers table name (.ok members)) ∧
      ∀ a b, Reaches table a b → Reaches table b a → sets.get? a = sets.get? b := by
  obtain ⟨hsound, htable⟩ := Resolver.after_spec table earlier
  refine ⟨fun name => ?_, ?_, fun sets hsets => ?_⟩
  · rw [(Resolver.resolve_spec hsound name).1, htable,
      (Resolver.resolve_spec (Resolver.sound_new table) name).1]
    exact ⟨answers_expand table name, rfl⟩
  · rw [Resolver.exists_resolveAll_iff hsound, htable, ← reaches_mem_keys_iff]
    exact forall₂_congr fun name _ => (answers_expand table name).ok_iff
  · obtain ⟨hkeys, hget⟩ := Resolver.resolveAll_ok hsound hsets
    rw [htable] at hkeys hget
    refine ⟨hkeys, fun name members h => hget name members h ▸ answers_expand table name, ?_⟩
    intro a b hab hba
    cases ha : sets.get? a with
    | some s =>
      -- on a way back from `b` to `a` the category `b` is in the table, too
      have hb : b ∈ sets.keys :=
        hkeys ▸ (answers_expand table a).ok_iff.mp ⟨s, hget a s ha⟩ b hab
      obtain ⟨t, ht⟩ := Dictionary.mem_keys_iff.mp hb
      rw [ht, expand_eq_of_reaches hab hba (hget a s ha) (hget b t ht)]
    | none =>
      cases hb : sets.get? b with
      | none => rfl
      | some t =>
        have ha' : a ∈ sets.keys :=
          hkeys ▸ (answers_expand table b).ok_iff.mp ⟨t, hget b t hb⟩ a hba
        obtain ⟨s, hs⟩ := Dictionary.mem_keys_iff.mp ha'
        rw [ha] at hs
        cases hs

end Category

end ContentGrammar
