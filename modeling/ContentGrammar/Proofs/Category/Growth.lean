import ContentGrammar.Proofs.Category.Resolution

/-!
# Growing tables

A table grows if categories are added to it and members to its categories. What a category of the
smaller table reaches, it reaches in the larger one as well, so it stands for more names there
(`resolveTable_mono`).
-/

namespace ContentGrammar.Category

/-- Whether each category of a table is in another one, with all its members. -/
def Table.GrowsTo (table table' : Table) : Prop :=
  ∀ name listed, table.get? name = some listed →
    ∃ listed', table'.get? name = some listed' ∧ listed ⊆ listed'

/-- Whether each category that is known stands for as many names or more among other sets. -/
def Sets.GrowsTo (sets sets' : Sets) : Prop :=
  ∀ name members, sets.get? name = some members →
    ∃ members', sets'.get? name = some members' ∧ ∀ x ∈ members, x ∈ members'

variable {table table' : Table} {sets sets' : Sets} {a b name : String}

theorem refers_mono (h : table.GrowsTo table') (hab : Refers table a b) : Refers table' a b := by
  obtain ⟨listed, hlisted, hb, hcategory⟩ := hab
  obtain ⟨listed', hlisted', hsub⟩ := h a listed hlisted
  exact ⟨listed', hlisted', hsub hb, hcategory⟩

theorem reaches_mono (h : table.GrowsTo table') (hab : Reaches table a b) : Reaches table' a b :=
  Relation.ReflTransGen.mono (fun _ _ => refers_mono h) _ _ hab

theorem expand_mono (h : table.GrowsTo table') {members members' : NameSet}
    (hm : expand table name = .ok members) (hm' : expand table' name = .ok members') :
    ∀ x ∈ members, x ∈ members' := by
  intro x hx
  obtain ⟨c, listed, hreaches, hlisted, m, hmem, hname, rfl⟩ :=
    ((answers_expand table name).mem_iff members hm x).mp hx
  obtain ⟨listed', hlisted', hsub⟩ := h c listed hlisted
  exact ((answers_expand table' name).mem_iff members' hm' _).mpr
    ⟨c, listed', reaches_mono h hreaches, hlisted', m, hsub hmem, hname, rfl⟩

theorem mem_keys_mono (h : table.GrowsTo table') (hname : name ∈ table.keys) :
    name ∈ table'.keys := by
  obtain ⟨listed, hlisted⟩ := Dictionary.mem_keys_iff.mp hname
  obtain ⟨listed', hlisted', -⟩ := h name listed hlisted
  exact Dictionary.mem_keys_of_get? hlisted'

/-- The sets of a table that has grown have grown. -/
theorem resolveTable_mono (h : table.GrowsTo table') (hs : resolveTable table = .ok sets)
    (hs' : resolveTable table' = .ok sets') : sets.GrowsTo sets' := by
  obtain ⟨hkeys, hexpand⟩ := Resolver.resolveAll_ok (Resolver.sound_new table) hs
  obtain ⟨hkeys', hexpand'⟩ := Resolver.resolveAll_ok (Resolver.sound_new table') hs'
  intro name members hname
  have hkey : name ∈ table.keys := hkeys ▸ Dictionary.mem_keys_of_get? hname
  have hkey' : name ∈ sets'.keys := hkeys' ▸ mem_keys_mono h hkey
  obtain ⟨members', hname'⟩ := Dictionary.mem_keys_iff.mp hkey'
  exact ⟨members', hname', expand_mono h (hexpand name members hname) (hexpand' name members' hname')⟩

end ContentGrammar.Category
