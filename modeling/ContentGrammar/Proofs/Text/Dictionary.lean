import Mathlib.Data.List.Induction
import Mathlib.Data.List.Nodup
import Mathlib.Data.List.Perm.Basic
import Mathlib.Data.List.Sort
import ContentGrammar.Text.Dictionary

/-!
# The entries of a dictionary

What is in the dictionary of a list of entries is in the list (`mem_ofList`). Where no name occurs twice,
the dictionary has all entries of the list (`mem_entries_ofList_iff`), so that their order does not
matter (`ofList_perm`). A dictionary is known by its entries, whatever their order (`ext_mem`).
-/

namespace ContentGrammar.Dictionary

variable {α β : Type}

theorem mem_insertInto {name : String} {value : α} {es : List (String × α)} {e : String × α}
    (h : e ∈ insertInto name value es) : e = (name, value) ∨ e ∈ es := by
  induction es with
  | nil => exact .inl (List.mem_singleton.mp h)
  | cons e' es ih =>
    unfold insertInto at h
    split at h
    · exact List.mem_cons.mp h
    · split at h
      · rcases List.mem_cons.mp h with rfl | h
        · exact .inl rfl
        · exact .inr (List.mem_cons_of_mem _ h)
      · rcases List.mem_cons.mp h with rfl | h
        · exact .inr List.mem_cons_self
        · exact (ih h).imp_right (List.mem_cons_of_mem _)

/-- What is in a dictionary after insertions was inserted or was there. -/
theorem mem_foldl_insert {d : Dictionary α} {es : List (String × α)} {e : String × α}
    (h : e ∈ (es.foldl (fun d e => d.insert e.1 e.2) d).entries) : e ∈ es ∨ e ∈ d.entries := by
  induction es generalizing d with
  | nil => exact .inr h
  | cons e' es ih =>
    rcases ih h with h | h
    · exact .inl (List.mem_cons_of_mem _ h)
    · rcases mem_insertInto h with rfl | h
      · exact .inl List.mem_cons_self
      · exact .inr h

/-- What is in the dictionary of a list of entries is in the list. -/
theorem mem_ofList {es : List (String × α)} {e : String × α} (h : e ∈ (ofList es).entries) :
    e ∈ es :=
  (mem_foldl_insert h).resolve_right List.not_mem_nil

/-! ## Dictionaries with the same entries -/

/-- No name has two entries, as the names are increasing. -/
theorem nodup_keys (d : Dictionary α) : (d.entries.map (·.1)).Nodup := by
  refine List.Pairwise.imp ?_ d.sorted
  intro x y hlt heq
  rw [heq] at hlt
  exact String.lt_irrefl _ hlt

theorem nodup_entries (d : Dictionary α) : d.entries.Nodup :=
  List.Nodup.of_map _ d.nodup_keys

/-- Dictionaries with the same entries are the same. -/
theorem ext_mem {d e : Dictionary α} (h : ∀ entry, entry ∈ d.entries ↔ entry ∈ e.entries) : d = e := by
  have hperm : d.entries.Perm e.entries :=
    (List.perm_ext_iff_of_nodup d.nodup_entries e.nodup_entries).mpr h
  have heq : d.entries = e.entries := by
    refine hperm.eq_of_pairwise (fun a b _ _ hab hba => ?_) (List.pairwise_map.mp d.sorted)
      (List.pairwise_map.mp e.sorted)
    exact absurd (String.lt_trans hab hba) (String.lt_irrefl _)
  obtain ⟨entries, sorted⟩ := d
  obtain ⟨entries', sorted'⟩ := e
  dsimp only at heq
  subst heq
  rfl

/-- Other names keep their entries. -/
theorem mem_insertInto_of_ne {name : String} {value : α} {es : List (String × α)} {e : String × α}
    (hne : e.1 ≠ name) (h : e ∈ es) : e ∈ insertInto name value es := by
  induction es with
  | nil => cases h
  | cons e' es ih =>
    unfold insertInto
    by_cases hlt : name < e'.1
    · rw [if_pos hlt]
      exact List.mem_cons_of_mem _ h
    · rw [if_neg hlt]
      by_cases heq : name = e'.1
      · rw [if_pos heq]
        rcases List.mem_cons.mp h with rfl | h
        · exact absurd heq.symm hne
        · exact List.mem_cons_of_mem _ h
      · rw [if_neg heq]
        rcases List.mem_cons.mp h with rfl | h
        · exact List.mem_cons_self
        · exact List.mem_cons_of_mem _ (ih h)

theorem mem_insertInto_self (name : String) (value : α) (es : List (String × α)) :
    (name, value) ∈ insertInto name value es :=
  mem_of_find (by rw [find_insertInto, if_pos rfl])

/-- Where no name occurs twice, all that is put into a dictionary stays there. -/
theorem mem_foldl_insert_of_nodup {d : Dictionary α} {es : List (String × α)} {e : String × α}
    (hnodup : (es.map (·.1)).Nodup) (hd : ∀ name ∈ es.map (·.1), name ∉ d.keys)
    (h : e ∈ es ∨ e ∈ d.entries) :
    e ∈ (es.foldl (fun d e => d.insert e.1 e.2) d).entries := by
  induction es generalizing d with
  | nil => exact h.resolve_left List.not_mem_nil
  | cons e' es ih =>
    obtain ⟨hnew, hnodup⟩ := List.nodup_cons.mp hnodup
    refine ih hnodup (fun name hname => ?_) ?_
    · intro hkey
      rcases mem_keys_insertInto.mp hkey with rfl | hkey
      · exact hnew hname
      · exact hd name (List.mem_cons_of_mem _ hname) hkey
    · rcases h with h | h
      · rcases List.mem_cons.mp h with rfl | h
        · exact .inr (mem_insertInto_self _ _ _)
        · exact .inl h
      · refine .inr (mem_insertInto_of_ne (fun heq => ?_) h)
        exact hd e'.1 List.mem_cons_self (heq ▸ List.mem_map.mpr ⟨e, h, rfl⟩)

/-- Where no name occurs twice, nothing is lost. -/
theorem mem_entries_ofList_iff {es : List (String × α)} (hnodup : (es.map (·.1)).Nodup)
    {e : String × α} : e ∈ (ofList es).entries ↔ e ∈ es :=
  ⟨mem_ofList, fun h => mem_foldl_insert_of_nodup hnodup (fun _ _ => List.not_mem_nil) (.inl h)⟩

/-- Where no name occurs twice, the dictionary of a list has the entries of the list. -/
theorem perm_entries_ofList {es : List (String × α)} (hnodup : (es.map (·.1)).Nodup) :
    (ofList es).entries.Perm es := by
  have hes : es.Nodup := List.Nodup.of_map _ hnodup
  exact (List.perm_ext_iff_of_nodup (nodup_entries _) hes).mpr fun e => mem_entries_ofList_iff hnodup

/-- The order of entries with different names does not matter. -/
theorem ofList_perm {es es' : List (String × α)} (h : es.Perm es') (hnodup : (es.map (·.1)).Nodup) :
    ofList es = ofList es' := by
  have hnodup' : (es'.map (·.1)).Nodup := (h.map _).nodup_iff.mp hnodup
  refine ext_mem fun e => ?_
  rw [mem_entries_ofList_iff hnodup, mem_entries_ofList_iff hnodup']
  exact h.mem_iff

/-! ## Names -/

theorem exists_find {name : String} {es : List (String × α)} (h : name ∈ es.map (·.1)) :
    ∃ value, find name es = some value := by
  induction es with
  | nil => cases h
  | cons e es ih =>
    rw [find]
    by_cases heq : name = e.1
    · exact ⟨e.2, if_pos heq⟩
    · rw [if_neg heq]
      exact ih ((List.mem_cons.mp h).resolve_left heq)

/-- The names of a dictionary are those under which something is found. -/
theorem mem_keys_iff {d : Dictionary α} {name : String} :
    name ∈ d.keys ↔ ∃ value, d.get? name = some value :=
  ⟨exists_find, fun ⟨_, h⟩ => mem_keys_of_get? h⟩

/-- Dictionaries with the same names list them in the same order. -/
theorem keys_eq {d : Dictionary α} {e : Dictionary β} (h : ∀ name, name ∈ d.keys ↔ name ∈ e.keys) :
    d.keys = e.keys := by
  have : Std.Irrefl (fun x y : String => x < y) := ⟨String.lt_irrefl⟩
  exact d.sorted.eq_of_mem_iff e.sorted fun {name} => h name

/-- An entry of a dictionary is found by its name. -/
theorem mem_entries_iff {d : Dictionary α} {name : String} {value : α} :
    (name, value) ∈ d.entries ↔ d.get? name = some value := by
  refine ⟨fun h => ?_, mem_of_find⟩
  obtain ⟨value', hfind⟩ := exists_find (List.mem_map.mpr ⟨_, h, rfl⟩)
  -- no name occurs twice
  have heq := List.inj_on_of_nodup_map d.nodup_keys h (mem_of_find hfind) rfl
  rw [get?, hfind, (Prod.mk.inj heq).2]

/-- A name is looked for in the first list, and then in the second one. -/
theorem find_append {name : String} {es es' : List (String × α)} :
    find name (es ++ es') = (find name es).or (find name es') := by
  induction es with
  | nil => rfl
  | cons e es ih =>
    rw [List.cons_append, find, find, ih]
    split <;> rfl

theorem find_eq_none_iff {name : String} {es : List (String × α)} :
    find name es = none ↔ ∀ e ∈ es, e.1 ≠ name := by
  induction es with
  | nil => simp [find]
  | cons e es ih =>
    rw [find, List.forall_mem_cons, ← ih]
    by_cases h : name = e.1
    · simp [h]
    · simp [h, Ne.symm h]

/-- What is found under a name is what was put there last. -/
theorem get?_foldl_insert {d : Dictionary α} {name : String} {es : List (String × α)} :
    (es.foldl (fun d e => d.insert e.1 e.2) d).get? name =
      (find name es.reverse).or (d.get? name) := by
  induction es generalizing d with
  | nil => rfl
  | cons e es ih =>
    rw [List.foldl_cons, ih, get?_insert, List.reverse_cons, find_append, Option.or_assoc]
    congr 1
    simp only [find]
    split <;> rfl

/-- In a list of entries the last one of a name is looked for. -/
theorem get?_ofList {name : String} {es : List (String × α)} :
    (ofList es).get? name = find name es.reverse := by
  rw [ofList, get?_foldl_insert, get?_empty, Option.or_none]

/-- In the dictionary of a list of entries, the last entry of a name wins. -/
theorem get?_ofList_eq_some_iff {name : String} {value : α} {es : List (String × α)} :
    (ofList es).get? name = some value ↔
      ∃ before after, es = before ++ (name, value) :: after ∧ ∀ e ∈ after, e.1 ≠ name := by
  rw [get?_ofList]
  constructor
  · intro h
    induction es using List.reverseRecOn with
    | nil => cases h
    | append_singleton es e ih =>
      rw [List.reverse_append, List.reverse_singleton, List.singleton_append, find] at h
      by_cases heq : name = e.1
      · rw [if_pos heq] at h
        obtain rfl := Option.some.inj h
        exact ⟨es, [], by rw [heq], List.forall_mem_nil _⟩
      · rw [if_neg heq] at h
        obtain ⟨before, after, rfl, hafter⟩ := ih h
        refine ⟨before, after ++ [e], by simp, ?_⟩
        exact List.forall_mem_append.mpr ⟨hafter, List.forall_mem_singleton.mpr (Ne.symm heq)⟩
  · rintro ⟨before, after, rfl, hafter⟩
    have hnone : find name after.reverse = none :=
      find_eq_none_iff.mpr fun e he => hafter e (List.mem_reverse.mp he)
    rw [List.reverse_append, List.reverse_cons, List.append_assoc, find_append, hnone]
    simp [find]

theorem mem_keys_ofList {name : String} {es : List (String × α)} :
    name ∈ (ofList es).keys ↔ name ∈ es.map (·.1) := by
  rw [mem_keys_iff]
  constructor
  · rintro ⟨value, h⟩
    exact List.mem_map.mpr ⟨_, mem_ofList (mem_entries_iff.mpr h), rfl⟩
  · intro h
    rw [get?_ofList]
    exact exists_find (by rwa [List.map_reverse, List.mem_reverse])

/-- Where names become the same one, the last of them in code point order wins. -/
theorem get?_ofList_map_eq_some_iff {f : String → String} {d : Dictionary α} {name : String}
    {value : α} :
    (ofList (d.entries.map fun e => (f e.1, e.2))).get? name = some value ↔
      ∃ x, d.get? x = some value ∧ f x = name ∧ ∀ y ∈ d.keys, f y = name → y ≤ x := by
  rw [get?_ofList_eq_some_iff]
  constructor
  · rintro ⟨before, after, heq, hafter⟩
    obtain ⟨smaller, rest, hentries, -, hrest⟩ := List.map_eq_append_iff.mp heq
    obtain ⟨e, greater, rfl, he, rfl⟩ := List.map_eq_cons_iff.mp hrest
    obtain ⟨rfl, rfl⟩ := Prod.mk.inj he
    refine ⟨e.1, mem_entries_iff.mp (hentries ▸ by simp), rfl, fun y hy hsame => ?_⟩
    obtain ⟨e', he', rfl⟩ := List.mem_map.mp hy
    -- a name before is smaller, and one behind becomes another one
    rcases List.mem_append.mp (hentries ▸ he') with hsmaller | hrest
    · have hsorted := d.sorted
      rw [hentries, List.map_append, List.map_cons] at hsorted
      have hlt := (List.pairwise_append.mp hsorted).2.2 _ (List.mem_map_of_mem hsmaller) _
        List.mem_cons_self
      exact String.not_lt.mp fun hgt => String.lt_irrefl _ (String.lt_trans hlt hgt)
    · rcases List.mem_cons.mp hrest with rfl | hgreater
      · exact String.le_refl _
      · exact absurd hsame (hafter _ (List.mem_map_of_mem hgreater))
  · rintro ⟨x, hx, rfl, hgreatest⟩
    obtain ⟨smaller, greater, hentries⟩ := List.append_of_mem (mem_entries_iff.mpr hx)
    refine ⟨_, _, by rw [hentries, List.map_append, List.map_cons], ?_⟩
    rintro e' he' hsame
    obtain ⟨e, he, rfl⟩ := List.mem_map.mp he'
    have hsorted := d.sorted
    rw [hentries, List.map_append, List.map_cons] at hsorted
    have hlt := (List.pairwise_cons.mp (List.pairwise_append.mp hsorted).2.1).1 _
      (List.mem_map_of_mem he)
    have hkey : e.1 ∈ d.keys :=
      List.mem_map_of_mem (hentries ▸ List.mem_append_right _ (List.mem_cons_of_mem _ he))
    exact String.not_lt.mpr (hgreatest e.1 hkey hsame) hlt

/-! ## Other values -/

/-- The dictionary with the same names and with other values. -/
def map (f : α → β) (d : Dictionary α) : Dictionary β :=
  ⟨d.entries.map fun e => (e.1, f e.2), by
    rw [List.map_map]
    exact d.sorted⟩

theorem keys_map (f : α → β) (d : Dictionary α) : (d.map f).keys = d.keys := by
  rw [keys, map, List.map_map]
  rfl

/-- Changing all values changes those that are found. -/
theorem get?_map (f : α → β) (d : Dictionary α) (name : String) :
    (d.map f).get? name = (d.get? name).map f := by
  show find name (d.entries.map fun e => (e.1, f e.2)) = (find name d.entries).map f
  induction d.entries with
  | nil => rfl
  | cons e es ih =>
    rw [List.map_cons, find, find, ih]
    split <;> rfl

end ContentGrammar.Dictionary
