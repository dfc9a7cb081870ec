import ContentGrammar.Proofs.Files.Canonical
import ContentGrammar.Proofs.Results
import ContentGrammar.Proofs.Text.Bytes
import ContentGrammar.Scan.Discovery

/-!
# What is made of the paths that are met

Of the paths that are met under a directory those count that lead to a file with the name of a
document and are not excluded (`Accepts`). What becomes of such a path is told by the place to which
it resolves (`Judged`). These are the conditions on which `Selection.judge` decides
(`judge_eq_some_iff`).
-/

namespace ContentGrammar.Scan

variable {t : FileTree} {s : Selection} {q : Path} {root : Location} {v : Visit}

/-! ## Names of documents -/

/-- How the names of documents end. -/
def endings : List String := [".dom.json", ".dom.yaml", ".dom.yml"]

/-- Whether a path has a file name that is a text and ends like that of a document, whatever the case
of its letters, with something before that end. -/
def NamesDocument (q : Path) : Prop :=
  ∃ name, q.fileName? = some (utf8 name) ∧ ∃ ending ∈ endings, ∃ front, front ≠ "" ∧
    Ascii.lower name = front ++ ending

theorem longer_and_endsWith_iff {name ending : String} :
    (ending.utf8ByteSize < name.utf8ByteSize && name.endsWith ending) = true ↔
      ∃ front, front ≠ "" ∧ name = front ++ ending := by
  rw [Bool.and_eq_true, decide_eq_true_eq, ← String.endsWith_toSlice,
    String.Slice.endsWith_string_iff, String.copy_toSlice]
  constructor
  · rintro ⟨hlonger, front, hfront⟩
    have hname : name = String.ofList front ++ ending := by
      rw [← String.toList_inj, String.toList_append, String.toList_ofList, hfront]
    refine ⟨String.ofList front, ?_, hname⟩
    rintro hnil
    rw [hname, hnil, String.empty_append] at hlonger
    exact Nat.lt_irrefl _ hlonger
  · rintro ⟨front, hne, rfl⟩
    refine ⟨?_, front.toList, (String.toList_append ..).symm⟩
    have : front.utf8ByteSize ≠ 0 := fun h => hne (String.utf8ByteSize_eq_zero_iff.mp h)
    rw [String.utf8ByteSize_append]
    omega

/-- A path has a format just if its file name is that of a document. -/
theorem isSome_documentFormat?_iff : (documentFormat? q).isSome = true ↔ NamesDocument q := by
  have hfind : ∀ name, (documentEndings.find? fun e =>
      e.1.utf8ByteSize < (Ascii.lower name).utf8ByteSize &&
        (Ascii.lower name).endsWith e.1).isSome = true ↔
      ∃ ending ∈ endings, ∃ front, front ≠ "" ∧ Ascii.lower name = front ++ ending := by
    intro name
    rw [List.find?_isSome]
    simp only [longer_and_endsWith_iff, documentEndings, endings, List.mem_cons, List.not_mem_nil,
      or_false, exists_eq_or_imp, exists_eq_left]
  rw [documentFormat?, NamesDocument]
  cases q.fileName? with
  | none => simp
  | some bytes =>
    simp only [Option.some.injEq, ← Bytes.text?_eq_some_iff, ← hfind, Option.bind_eq_bind,
      Option.bind_some, Option.pure_def]
    -- a name that is not a text has no format, and is none of a document
    cases bytes.text? with
    | none => simp
    | some name =>
      simp only [Option.some.injEq, exists_eq_left', Option.bind_some]
      cases documentEndings.find? _ <;> rfl

namespace Selection

/-- The patterns that can be read. -/
def globs (s : Selection) : List Glob := valuesIn s.patterns

/-- Whether a pattern that can be read accepts a path, or the file name at its end. -/
def Excludes (s : Selection) (q : Path) : Prop :=
  ∃ source ∈ s.exclude, ∃ g, Glob.parse source = .ok g ∧
    (g.accepts q.shown = true ∨ ∃ name, q.fileName? = some name ∧ g.accepts name.shown = true)

theorem mem_globs {g : Glob} : g ∈ s.globs ↔ ∃ source ∈ s.exclude, Glob.parse source = .ok g := by
  rw [globs, patterns, valuesIn, List.filterMap_map, List.mem_filterMap]
  refine exists_congr fun source => and_congr_right fun _ => ?_
  cases h : Glob.parse source with
  | ok g' => simp [h, Except.toOption]
  | error e => simp [h, Except.toOption]

/-- The patterns leave out a path just if one that can be read accepts it. -/
theorem isExcluded_iff : isExcluded s.globs q = true ↔ s.Excludes q := by
  rw [isExcluded, List.any_eq_true]
  constructor
  · rintro ⟨g, hg, haccepts⟩
    obtain ⟨source, hsource, hparse⟩ := mem_globs.mp hg
    refine ⟨source, hsource, g, hparse, ?_⟩
    simpa [Option.any_eq_true] using haccepts
  · rintro ⟨source, hsource, g, hparse, haccepts⟩
    refine ⟨g, mem_globs.mpr ⟨source, hsource, hparse⟩, ?_⟩
    simpa [Option.any_eq_true] using haccepts

/-- Without patterns nothing is left out. -/
theorem not_excludes (hexclude : s.exclude = []) (q : Path) : ¬ s.Excludes q := by
  rintro ⟨source, hsource, -⟩
  rw [hexclude] at hsource
  exact List.not_mem_nil hsource

/-- Whether a path leads to a file and is not left out because of its name or of a pattern. -/
structure Accepts (s : Selection) (t : FileTree) (q : Path) : Prop where
  file : ∃ content, t.entry? q = some (.file content)
  named : NamesDocument q
  kept : ¬ s.Excludes q

/-- What becomes of an accepted path below a directory at `root`: it is found if it resolves to a
place inside, and is an error if not. -/
inductive Judged (t : FileTree) (root : Location) (q : Path) : Visit → Prop
  | inside {place : Location} : t.canonicalize q = .ok place → root <+: place →
      Judged t root q (.ok q)
  | outside {place : Location} : t.canonicalize q = .ok place → ¬ root <+: place →
      Judged t root q (.error ⟨q, .outside (FileTree.absolute place)⟩)
  | lost {cause : FileError} : t.canonicalize q = .error cause →
      Judged t root q (.error ⟨q, .file .resolve cause⟩)

theorem isFile_iff {entry : Option Entry} :
    entry.any Entry.isFile = true ↔ ∃ content, entry = some (.file content) := by
  cases entry with
  | none => exact iff_of_false nofun nofun
  | some entry =>
    cases entry with
    | file content => exact iff_of_true rfl ⟨content, rfl⟩
    | link target | directory => exact iff_of_false nofun nofun

/-- The tests that are made of a path, taken together. -/
theorem accepts_iff : (!(t.entry? q).any Entry.isFile || (documentFormat? q).isNone ||
    isExcluded s.globs q) = false ↔ s.Accepts t q := by
  rw [Bool.or_eq_false_iff, Bool.or_eq_false_iff, Bool.not_eq_false', isFile_iff,
    Option.isNone_eq_false_iff, isSome_documentFormat?_iff, ← Bool.not_eq_true, isExcluded_iff]
  exact ⟨fun ⟨⟨hfile, hnamed⟩, hkept⟩ => ⟨hfile, hnamed, hkept⟩,
    fun ⟨hfile, hnamed, hkept⟩ => ⟨⟨hfile, hnamed⟩, hkept⟩⟩

theorem judge_of_not_accepts (h : ¬ s.Accepts t q) : judge t s.globs root q = none := by
  rw [judge, if_pos]
  exact Bool.not_eq_false _ ▸ mt accepts_iff.mp h

/-- What is accepted is judged. -/
theorem Accepts.judged (h : s.Accepts t q) (root : Location) :
    ∃ v, judge t s.globs root q = some v ∧ Judged t root q v := by
  rw [judge, if_neg (Bool.eq_false_iff.mp (accepts_iff.mpr h))]
  cases hplace : t.canonicalize q with
  | error cause => exact ⟨_, rfl, .lost hplace⟩
  | ok place =>
    by_cases hinside : root <+: place
    · exact ⟨_, if_pos (List.isPrefixOf_iff_prefix.mpr hinside), .inside hplace hinside⟩
    · exact ⟨_, if_neg (mt List.isPrefixOf_iff_prefix.mp hinside), .outside hplace hinside⟩

/-- There is one thing that becomes of a path. -/
theorem Judged.unique {w : Visit} (hv : Judged t root q v) (hw : Judged t root q w) : v = w := by
  cases hv <;> cases hw <;> simp_all

/-- What is met comes to nothing unless it is accepted. If it is, it has to be inside. -/
theorem judge_eq_some_iff :
    judge t s.globs root q = some v ↔ s.Accepts t q ∧ Judged t root q v := by
  by_cases h : s.Accepts t q
  · obtain ⟨w, hw, hjudged⟩ := h.judged root
    rw [hw, Option.some.injEq, and_iff_right h]
    exact ⟨fun heq => heq ▸ hjudged, hjudged.unique⟩
  · rw [judge_of_not_accepts h]
    exact iff_of_false nofun fun hv => h hv.1

theorem sift_ok {visits : List Visit} : sift t s.globs root (.ok q :: visits) =
    (judge t s.globs root q).toList ++ sift t s.globs root visits := by
  rw [sift, List.filterMap_cons]
  dsimp only
  cases judge t s.globs root q <;> rfl

/-- Judging leaves the errors that are met as they are. -/
theorem mem_sift_iff {visits : List Visit} : v ∈ sift t s.globs root visits ↔
    (∃ e, v = .error e ∧ .error e ∈ visits) ∨
      ∃ q, .ok q ∈ visits ∧ s.Accepts t q ∧ Judged t root q v := by
  rw [sift, List.mem_filterMap]
  constructor
  · rintro ⟨w, hw, hv⟩
    cases w with
    | error e => exact .inl ⟨e, (Option.some.inj hv).symm, hw⟩
    | ok q => exact .inr ⟨q, hw, judge_eq_some_iff.mp hv⟩
  · rintro (⟨e, rfl, he⟩ | ⟨q, hq, h⟩)
    · exact ⟨_, he, rfl⟩
    · exact ⟨_, hq, judge_eq_some_iff.mpr h⟩

end Selection

end ContentGrammar.Scan
