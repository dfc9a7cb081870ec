import ContentGrammar.Document.Basic
import ContentGrammar.Proofs.Text.Ascii

/-!
# Which attribute a name stands for

Of several attributes whose names differ in the case of letters alone, a name stands for the first
(`Head.attribute?_eq_some_iff`). It makes no difference whether the names are looked at as they are
written or as they are stored (`firstNamed_loweredEntry`).
-/

namespace ContentGrammar

/-- Whether a value stands under the first of the names that are `name` but for the case of letters. -/
def FirstNamed (entries : List (String × String)) (name value : String) : Prop :=
  ∃ before written after, entries = before ++ (written, value) :: after ∧
    Ascii.lower written = Ascii.lower name ∧ ∀ e ∈ before, Ascii.lower e.1 ≠ Ascii.lower name

variable {name value : String}

theorem Head.attribute?_eq_some_iff {h : Head} :
    h.attribute? name = some value ↔ FirstNamed h.attributes name value := by
  simp only [attribute?, Option.map_eq_some_iff, List.find?_eq_some_iff_append, Ascii.same_iff,
    Bool.not_eq_true', ← Bool.not_eq_true, FirstNamed]
  constructor
  · rintro ⟨⟨written, _⟩, ⟨hname, before, after, heq, hbefore⟩, rfl⟩
    exact ⟨before, written, after, heq, hname, hbefore⟩
  · rintro ⟨before, written, after, heq, hname, hbefore⟩
    exact ⟨(written, value), ⟨hname, before, after, heq, hbefore⟩, rfl⟩

theorem firstNamed_loweredEntry {entries : List (String × String)} :
    FirstNamed (entries.map loweredEntry) name value ↔ FirstNamed entries name value := by
  have hlower : ∀ e : String × String, Ascii.lower (loweredEntry e).1 = Ascii.lower e.1 :=
    fun e => Ascii.lower_lower e.1
  constructor
  · rintro ⟨before, written, after, heq, hname, hbefore⟩
    obtain ⟨before, rest, rfl, rfl, hrest⟩ := List.map_eq_append_iff.mp heq
    obtain ⟨⟨written, _⟩, after, rfl, hentry, rfl⟩ := List.map_eq_cons_iff.mp hrest
    obtain ⟨rfl, rfl⟩ := Prod.mk.inj hentry
    refine ⟨before, written, after, rfl, by rwa [Ascii.lower_lower] at hname, fun e he => ?_⟩
    rw [← hlower e]
    exact hbefore _ (List.mem_map_of_mem he)
  · rintro ⟨before, written, after, rfl, hname, hbefore⟩
    refine ⟨before.map loweredEntry, Ascii.lower written, after.map loweredEntry, ?_, ?_, ?_⟩
    · rw [List.map_append, List.map_cons]
      rfl
    · rw [Ascii.lower_lower, hname]
    · intro e he
      obtain ⟨e', he', rfl⟩ := List.mem_map.mp he
      rw [hlower e']
      exact hbefore e' he'

end ContentGrammar
