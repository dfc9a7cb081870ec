import ContentGrammar.Proofs.Scan.Judgement
import ContentGrammar.Proofs.Scan.Walk

/-!
# Which files are found

What is found under configured paths can be said without going through directories: configured
files, and below configured directories what is not too deep, leads to a file with the name of a
document and resolves to a place inside the directory. What resolves to a place outside or to none
is an error instead, and so is a configured path that resolves to none (`Selection.Yields`).
`Selection.find` lists exactly the former, in order and each once, and among its errors it has each
of the latter once for each configured path (`find_exact`).

A document is left out without an error if its name is not a text or its path is too long, and with
one if the path of its place is too long (`not_every_document_found`).
-/

namespace ContentGrammar.Scan

open ContentGrammar.Path (IsName)

variable {t : FileTree} {s : Selection} {p q : Path} {l root : Location} {name : Bytes} {v : Visit}
  {e : Error}

namespace Selection

/-! ## Under one path -/

/-- Whether a path is one of those below a directory with the path `p` at `root` that make a document,
or would make one if they resolved to a place inside. -/
structure Candidate (s : Selection) (t : FileTree) (p : Path) (root : Location) (q : Path) : Prop
    extends Accepts s t q where
  below : ∃ names, Below t root names ∧ names.length ≤ s.maxDepth ∧ q = p.joined names

/-- What a configured path comes to, if it is one that a walk can begin with: an error if it does not
resolve to a place, the path itself if it is that of a file, and what becomes of the candidates below
it if it is that of a directory. -/
inductive Yields (s : Selection) (t : FileTree) (p : Path) : Visit → Prop
  | unresolved {cause : FileError} : t.canonicalize p = .error cause →
      Yields s t p (.error ⟨p, .file .resolveRoot cause⟩)
  | file {place : Location} {content : ByteArray} : t.canonicalize p = .ok place →
      t.entry? p = some (.file content) → ¬ s.Excludes p → Yields s t p (.ok p)
  | document {root : Location} {q : Path} {v : Visit} : t.canonicalize p = .ok root →
      t.get? root = some .directory → s.Candidate t p root q → Judged t root q v → Yields s t p v

/-- Whether an error is one about something that does not resolve to a place, or to none inside. -/
def isMisplaced (e : Error) : Bool := e.kind == "OutsideRepository" || e.kind == "IoError"

/-- Whether what is met is a path or a misplaced one. -/
def Counts (v : Visit) : Prop := ∀ e, v = .error e → isMisplaced e = true

theorem counts_ok : Counts (.ok q) := nofun

theorem Judged.counts (h : Judged t root q v) : Counts v := by
  intro e he
  cases h with
  | inside _ _ => cases he
  | outside _ _ | lost _ =>
    obtain rfl := Except.error.inj he
    rfl

/-- Nothing comes of a configured path but paths and misplaced ones. -/
theorem Yields.counts (h : s.Yields t p v) : Counts v := by
  cases h with
  | unresolved _ =>
    intro e he
    obtain rfl := Except.error.inj he
    rfl
  | file _ _ _ => exact counts_ok
  | document _ _ _ hjudged => exact hjudged.counts

/-- An error on a walk is none about a place. -/
theorem not_counts (hkind : e.kind = "WalkError") : ¬ Counts (.error e) := by
  intro h
  have hmisplaced := h e rfl
  rw [isMisplaced, hkind] at hmisplaced
  exact absurd hmisplaced (by decide)

theorem bytes_ne_nil_of_canonicalize (h : t.canonicalize p = .ok l) : p.bytes ≠ [] := by
  rintro hnil
  rw [FileTree.canonicalize, FileTree.refusal?, hnil] at h
  cases h

/-- What is below a directory is reached by way of the directory. -/
theorem Candidate.resolves (h : s.Candidate t p root q) (ht : t.Proper)
    (hroot : t.canonicalize p = .ok root) : t.Resolves p root := by
  obtain ⟨names, hbelow, -, rfl⟩ := h.below
  obtain ⟨content, hfile⟩ := h.file
  obtain ⟨place, hplace, -⟩ := FileTree.entry?_eq_some_iff.mp hfile
  obtain ⟨l, hl⟩ := find_of_joined (bytes_ne_nil_of_canonicalize hroot) (hbelow.isName ht) hplace
  rcases FileTree.find_of_canonicalize hroot with hp | hp
  · exact ⟨hp, hroot⟩
  · cases hl.symm.trans (hp true)

/-- The candidates are what is accepted of what a walk meets. -/
theorem candidate_iff {above : List Ancestor} (ht : t.Proper) (hp : t.find true p = .ok l)
    (hl : t.get? l = some .directory) : s.Candidate t p l q ↔
      .ok q ∈ under t false s.maxDepth above p ∧ s.Accepts t q := by
  constructor
  · intro h
    obtain ⟨names, hbelow, hlength, rfl⟩ := h.below
    obtain ⟨content, hfile⟩ := h.file
    obtain ⟨place, hplace, hentry⟩ := FileTree.entry?_eq_some_iff.mp hfile
    refine ⟨mem_under ht hp hl hbelow hlength hplace ?_, h.toAccepts⟩
    rw [hentry]
    nofun
  · rintro ⟨hq, haccepts⟩
    exact ⟨haccepts, below_of_mem_under ht hp hl hq⟩

/-- Whether a path is gone into if it is that of a directory. -/
def Entered (t : FileTree) (p : Path) : Prop :=
  ∀ l, t.find true p = .ok l → t.get? l = some .directory → isSkipped p = false

/-- Nothing comes of a path that is not that of a file. -/
theorem sift_cons_of_not_file {visits : List Visit}
    (hfile : ∀ content, t.entry? p ≠ some (.file content)) :
    sift t s.globs root (.ok p :: visits) = sift t s.globs root visits := by
  have hnone : judge t s.globs root p = none := by
    refine Option.eq_none_iff_forall_ne_some.mpr fun v hv => ?_
    obtain ⟨content, hcontent⟩ := (judge_eq_some_iff.mp hv).1.file
    exact hfile content hcontent
  rw [sift_ok, hnone]
  rfl

theorem not_file_of_directory (hp : t.find true p = .ok l) (hl : t.get? l = some .directory)
    (content : ByteArray) : t.entry? p ≠ some (.file content) := by
  intro hfile
  obtain ⟨place, hplace, hentry⟩ := FileTree.entry?_eq_some_iff.mp hfile
  rw [Except.ok.inj (hplace.symm.trans hp), hl] at hentry
  cases hentry

/-- From a path on that is not that of a file there is a walk. -/
theorem visitsFrom_of_not_file (hp : t.canonicalize p = .ok l)
    (hfile : ∀ content, t.entry? p ≠ some (.file content)) :
    s.visitsFrom t s.globs p = sift t s.globs l (walkAll t s.followLinks s.maxDepth p) := by
  simp only [visitsFrom, hp, if_neg (mt isFile_iff.mp (not_exists.mpr hfile))]

/-- All that is met in a directory that is gone into is judged. -/
theorem visitsFrom_of_opens (hp : t.Resolves p l) (hl : t.get? l = some .directory)
    (hopens : Opens t s.followLinks p) : s.visitsFrom t s.globs p =
      sift t s.globs l (under t s.followLinks s.maxDepth [] p) := by
  have hfile := not_file_of_directory hp.leads hl
  rw [visitsFrom_of_not_file hp.canonical hfile, walkAll_of_opens hp.leads hl hopens,
    sift_cons_of_not_file hfile]

/-- The ways in which a configured path is gone about: it does not resolve to a place, it is that of a
file, it is that of a directory, or nothing is met from it on. -/
theorem visitsFrom_cases (hlinks : s.followLinks = false) (hskip : Entered t p) :
    (∃ cause, t.canonicalize p = .error cause ∧
      s.visitsFrom t s.globs p = [.error ⟨p, .file .resolveRoot cause⟩]) ∨
    (∃ l content, t.canonicalize p = .ok l ∧ t.entry? p = some (.file content) ∧
      s.visitsFrom t s.globs p = if isExcluded s.globs p then [] else [.ok p]) ∨
    (∃ l, t.Resolves p l ∧ t.get? l = some .directory ∧
      s.visitsFrom t s.globs p = sift t s.globs l (under t false s.maxDepth [] p)) ∨
    (∃ l, t.canonicalize p = .ok l ∧ (∀ content, t.entry? p ≠ some (.file content)) ∧
      (t.Resolves p l → t.get? l ≠ some .directory) ∧
      (s.visitsFrom t s.globs p = [] ∨
        ∃ cause, s.visitsFrom t s.globs p = [.error ⟨p, .notWalked cause⟩])) := by
  cases hp : t.canonicalize p with
  | error cause => exact .inl ⟨cause, rfl, by simp only [visitsFrom, hp]⟩
  | ok l =>
    refine .inr ?_
    by_cases hfile : ∃ content, t.entry? p = some (.file content)
    · obtain ⟨content, hcontent⟩ := hfile
      refine .inl ⟨l, content, rfl, hcontent, ?_⟩
      simp only [visitsFrom, hp, hcontent]
      rfl
    refine .inr ?_
    have hnot := not_exists.mp hfile
    have hvisits := visitsFrom_of_not_file (s := s) hp hnot
    rw [hlinks] at hvisits
    -- a path that resolves can be followed as well, unless it is too long
    rcases FileTree.find_of_canonicalize hp with hfind | hlong
    · by_cases hl : t.get? l = some .directory
      · have hvisits := visitsFrom_of_opens (s := s) ⟨hfind, hp⟩ hl (.named (hskip l hfind hl))
        rw [hlinks] at hvisits
        exact .inl ⟨l, ⟨hfind, hp⟩, hl, hvisits⟩
      · rw [walkAll_of_not_directory hfind hl, sift_cons_of_not_file hnot] at hvisits
        exact .inr ⟨l, rfl, hnot, fun _ => hl, .inl hvisits⟩
    · rw [walkAll_of_error (hlong false)] at hvisits
      refine .inr ⟨l, rfl, hnot, fun h => ?_, .inr ⟨.tooLong, hvisits⟩⟩
      cases h.leads.symm.trans (hlong true)

/-- What comes of a configured path, apart from what goes wrong on the walk. -/
theorem yields_iff (ht : t.Proper) (hlinks : s.followLinks = false) (hskip : Entered t p) :
    s.Yields t p v ↔ v ∈ s.visitsFrom t s.globs p ∧ Counts v := by
  rcases visitsFrom_cases hlinks hskip with ⟨cause, hp, hvisits⟩ | ⟨l, content, hp, hfile, hvisits⟩ |
    ⟨l, hp, hl, hvisits⟩ | ⟨l, hp, hfile, hl, hvisits⟩
  · rw [hvisits, List.mem_singleton]
    constructor
    · intro h
      refine ⟨?_, h.counts⟩
      cases h with
      | unresolved h => rw [Except.error.inj (hp.symm.trans h)]
      | file h _ _ | document h _ _ _ => cases hp.symm.trans h
    · rintro ⟨rfl, -⟩
      exact .unresolved hp
  · rw [hvisits]
    constructor
    · intro h
      refine ⟨?_, h.counts⟩
      cases h with
      | unresolved h => cases hp.symm.trans h
      | file _ _ hkept =>
        rw [if_neg (mt isExcluded_iff.mp hkept)]
        exact List.mem_singleton.mpr rfl
      | @document root q v h hdirectory hcandidate hjudged =>
        -- the path would have to be that of a directory
        exact absurd hfile (not_file_of_directory (hcandidate.resolves ht h).leads hdirectory content)
    · rintro ⟨hv, -⟩
      split at hv
      case isTrue => cases hv
      case isFalse hkept =>
        obtain rfl := List.mem_singleton.mp hv
        exact .file hp hfile (mt isExcluded_iff.mpr hkept)
  · rw [hvisits, mem_sift_iff]
    constructor
    · intro h
      refine ⟨?_, h.counts⟩
      cases h with
      | unresolved h => cases hp.canonical.symm.trans h
      | file _ hfile _ => exact absurd hfile (not_file_of_directory hp.leads hl _)
      | @document root q v h _ hcandidate hjudged =>
        obtain rfl := Except.ok.inj (hp.canonical.symm.trans h)
        obtain ⟨hq, haccepts⟩ := (candidate_iff ht hp.leads hl).mp hcandidate
        exact .inr ⟨q, hq, haccepts, hjudged⟩
    · rintro ⟨⟨e, rfl, he⟩ | ⟨q, hq, haccepts, hjudged⟩, hcounts⟩
      · exact absurd hcounts (not_counts (kind_of_mem_under ht he))
      · exact .document hp.canonical hl ((candidate_iff ht hp.leads hl).mpr ⟨hq, haccepts⟩) hjudged
  · constructor
    · intro h
      cases h with
      | unresolved h => cases hp.symm.trans h
      | file _ h _ => exact absurd h (hfile _)
      | document h hdirectory hcandidate _ =>
        have hresolves := hcandidate.resolves ht h
        obtain rfl := Except.ok.inj (hp.symm.trans h)
        exact absurd hdirectory (hl hresolves)
    · rintro ⟨hv, hcounts⟩
      rcases hvisits with hnone | ⟨cause, hvisits⟩
      · rw [hnone] at hv
        cases hv
      · rw [hvisits] at hv
        obtain rfl := List.mem_singleton.mp hv
        exact absurd hcounts (not_counts rfl)

/-- The errors about what is misplaced. -/
def misplaced (errors : List Error) : List Error := errors.filter isMisplaced

theorem mem_misplaced {errors : List Error} :
    e ∈ misplaced errors ↔ e ∈ errors ∧ isMisplaced e = true := List.mem_filter

/-- The misplaced files are among what is met, in the same order. -/
theorem sublist_misplaced_sift (s : Selection) (t : FileTree) (root : Location) {visits : List Visit}
    (hbroken : ∀ e, .error e ∈ visits → e.kind = "WalkError") :
    ((misplaced (errorsIn (sift t s.globs root visits))).map (·.file)).Sublist (valuesIn visits) := by
  induction visits with
  | nil => exact .slnil
  | cons v visits ih =>
    have hrest := ih fun e he => hbroken e (List.mem_cons_of_mem _ he)
    cases v with
    | error e =>
      have hkind := hbroken e List.mem_cons_self
      show ((misplaced (e :: errorsIn (sift t s.globs root visits))).map (·.file)).Sublist
        (valuesIn visits)
      rw [misplaced, List.filter_cons_of_neg (by rw [isMisplaced, hkind]; decide)]
      exact hrest
    | ok q =>
      show List.Sublist _ (q :: valuesIn visits)
      rw [sift_ok]
      cases hjudge : judge t s.globs root q with
      | none => exact hrest.cons q
      | some w =>
        cases (judge_eq_some_iff.mp hjudge).2 with
        | inside _ _ => exact hrest.cons q
        | outside _ _ | lost _ => exact hrest.cons_cons q

/-- No two errors about what is misplaced under a configured path are about the same file. -/
theorem pairwise_misplaced (ht : t.Proper) (hlinks : s.followLinks = false) (hskip : Entered t p) :
    (misplaced (errorsIn (s.visitsFrom t s.globs p))).Pairwise fun e e' =>
      e.file.same e'.file = false := by
  rcases visitsFrom_cases hlinks hskip with ⟨cause, hp, hvisits⟩ | ⟨l, content, hp, hfile, hvisits⟩ |
    ⟨l, hp, hl, hvisits⟩ | ⟨l, hp, hfile, hl, hvisits | ⟨cause, hvisits⟩⟩
  · rw [hvisits]
    exact List.pairwise_singleton _ _
  · rw [hvisits]
    split <;> exact .nil
  · rw [hvisits]
    have hsublist := s.sublist_misplaced_sift t l
      fun e (he : .error e ∈ under t false s.maxDepth [] p) => kind_of_mem_under ht he
    have hnodup := (nodup_under ht hp.leads hl).sublist (hsublist.map Path.steps)
    rw [List.map_map] at hnodup
    refine (List.pairwise_map.mp hnodup).imp fun hne => ?_
    exact Bool.eq_false_iff.mpr fun hsame => hne (Path.same_iff.mp hsame)
  · rw [hvisits]
    exact .nil
  · rw [hvisits]
    exact .nil

/-! ## Under all paths -/

theorem find_eq (s : Selection) (t : FileTree) :
    s.find t = ⟨Path.inOrder (valuesIn (s.paths.flatMap (s.visitsFrom t s.globs))),
      errorsIn s.patterns ++ errorsIn (s.paths.flatMap (s.visitsFrom t s.globs))⟩ := rfl

/-- What is wrong with patterns is not about files. -/
theorem misplaced_patterns : misplaced (errorsIn s.patterns) = [] := by
  refine List.eq_nil_iff_forall_not_mem.mpr fun e he => ?_
  obtain ⟨he, hkind⟩ := mem_misplaced.mp he
  obtain ⟨source, -, heq⟩ := List.mem_map.mp (mem_errorsIn.mp he)
  split at heq
  · cases heq
  · obtain rfl := Except.error.inj heq
    exact absurd hkind (show ¬ (("InvalidExcludePattern" == "OutsideRepository" ||
      "InvalidExcludePattern" == "IoError") = true) by decide)

/-- The errors about what is misplaced are those under each path. -/
theorem misplaced_find : misplaced (s.find t).errors =
    s.paths.flatMap fun p => misplaced (errorsIn (s.visitsFrom t s.globs p)) := by
  have happend : misplaced (s.find t).errors = misplaced (errorsIn s.patterns) ++
      misplaced (errorsIn (s.paths.flatMap (s.visitsFrom t s.globs))) := List.filter_append ..
  rw [happend, misplaced_patterns, List.nil_append, errorsIn_flatMap, misplaced, List.filter_flatMap]
  rfl

/-- The files that are found under configured paths are listed strictly increasing, and all of them
are: what is listed is found, and what is found is listed, or a path that is the same. Each configured
path that does not resolve to a place, and each file that would be found below one if it resolved to a
place inside of the directory, makes one error for that path, and there are no other errors about
places. -/
theorem find_exact (ht : t.Proper) (hlinks : s.followLinks = false)
    (hnames : ∀ p ∈ s.paths, ∀ root, t.find true p = .ok root → t.get? root = some .directory →
      ∀ name ∈ skippedNames, p.fileName? ≠ some name) :
    (s.find t).files.Pairwise Path.Before ∧
    (∀ f ∈ (s.find t).files, ∃ p ∈ s.paths, s.Yields t p (.ok f)) ∧
    (∀ p ∈ s.paths, ∀ q, s.Yields t p (.ok q) → ∃ f ∈ (s.find t).files, f.same q = true) ∧
    ∃ strays : Path → List Error, misplaced (s.find t).errors = s.paths.flatMap strays ∧
      ∀ p ∈ s.paths, (∀ e, e ∈ strays p ↔ s.Yields t p (.error e)) ∧
        (strays p).Pairwise fun e e' => e.file.same e'.file = false := by
  -- no configured directory has a name at which a walk stops
  have hskip : ∀ p ∈ s.paths, Entered t p := by
    intro p hp l hl hdirectory
    refine Bool.eq_false_iff.mpr fun hskipped => ?_
    obtain ⟨name, hname, heq⟩ := isSkipped_iff.mp hskipped
    exact hnames p hp l hl hdirectory name hname heq
  have hfound : ∀ q, q ∈ valuesIn (s.paths.flatMap (s.visitsFrom t s.globs)) ↔
      ∃ p ∈ s.paths, s.Yields t p (.ok q) := by
    intro q
    rw [mem_valuesIn, List.mem_flatMap]
    refine exists_congr fun p => and_congr_right fun hp => ?_
    rw [yields_iff ht hlinks (hskip p hp), and_iff_left counts_ok]
  have hstrays : ∀ p ∈ s.paths, ∀ e, e ∈ misplaced (errorsIn (s.visitsFrom t s.globs p)) ↔
      s.Yields t p (.error e) := by
    intro p hp e
    rw [yields_iff ht hlinks (hskip p hp), mem_misplaced, mem_errorsIn]
    refine and_congr_right fun _ => ⟨fun h e' he => ?_, fun h => h e rfl⟩
    rwa [← Except.error.inj he]
  obtain ⟨hpairwise, hsub, hcover⟩ :=
    Path.inOrder_spec (valuesIn (s.paths.flatMap (s.visitsFrom t s.globs)))
  exact ⟨hpairwise, fun f hf => (hfound f).mp (hsub f hf),
    fun p hp q hq => hcover q ((hfound q).mpr ⟨p, hp, hq⟩),
    fun p => misplaced (errorsIn (s.visitsFrom t s.globs p)), misplaced_find,
    fun p hp => ⟨hstrays p hp, pairwise_misplaced ht hlinks (hskip p hp)⟩⟩

/-- A directory with a file, and with a link that leads out of it. -/
theorem find_exact_link :
    let t : FileTree := ⟨[([utf8 "a"], .directory), ([utf8 "a", utf8 "x.dom.json"], .file .empty),
      ([utf8 "a", utf8 "y.DOM.yml"], .link (.ofText "/out")), ([utf8 "out"], .file .empty)], []⟩
    let s : Selection := { paths := [.ofText "a"] }
    (s.find t).files.Pairwise Path.Before ∧
      (∃ f ∈ (s.find t).files, f.same (.ofText "a/x.dom.json") = true) ∧
      ∃ strays : Path → List Error, misplaced (s.find t).errors = s.paths.flatMap strays ∧
        ⟨.ofText "a/y.DOM.yml", .outside (.ofText "/out")⟩ ∈ strays (.ofText "a") := by
  intro t s
  have ht : t.Proper := ⟨by decide, by decide⟩
  have hp : t.canonicalize (.ofText "a") = .ok [utf8 "a"] := by
    unfold t
    cbv
  have hl : t.get? [utf8 "a"] = some .directory := rfl
  have hinside : s.Candidate t (.ofText "a") [utf8 "a"] (.ofText "a/x.dom.json") := by
    refine ⟨⟨⟨.empty, ?_⟩, isSome_documentFormat?_iff.mp (by cbv), not_excludes rfl _⟩,
      [utf8 "x.dom.json"], .here (Option.some_ne_none _), by decide, by cbv⟩
    unfold t
    cbv
  have houtside : s.Candidate t (.ofText "a") [utf8 "a"] (.ofText "a/y.DOM.yml") := by
    refine ⟨⟨⟨.empty, ?_⟩, isSome_documentFormat?_iff.mp (by cbv), not_excludes rfl _⟩,
      [utf8 "y.DOM.yml"], .here (Option.some_ne_none _), by decide, by cbv⟩
    unfold t
    cbv
  have hfound : s.Yields t (.ofText "a") (.ok (.ofText "a/x.dom.json")) := by
    have hplace : t.canonicalize (.ofText "a/x.dom.json") = .ok [utf8 "a", utf8 "x.dom.json"] := by
      unfold t
      cbv
    exact .document hp hl hinside (.inside hplace (List.prefix_append _ _))
  have hstray : s.Yields t (.ofText "a")
      (.error ⟨.ofText "a/y.DOM.yml", .outside (.ofText "/out")⟩) := by
    have hplace : t.canonicalize (.ofText "a/y.DOM.yml") = .ok [utf8 "out"] := by
      unfold t
      cbv
    have hshown : FileTree.absolute [utf8 "out"] = .ofText "/out" := by cbv
    rw [← hshown]
    exact .document hp hl houtside (.outside hplace (by decide))
  have hmem : .ofText "a" ∈ s.paths := List.mem_singleton.mpr rfl
  have hnames : ∀ p ∈ s.paths, ∀ root, t.find true p = .ok root → t.get? root = some .directory →
      ∀ name ∈ skippedNames, p.fileName? ≠ some name := by
    intro p hp _ _ _
    obtain rfl := List.mem_singleton.mp hp
    have hname : Path.fileName? (.ofText "a") = some (utf8 "a") := by cbv
    rw [hname]
    decide
  obtain ⟨hpairwise, -, hcover, strays, herrors, hspec⟩ := find_exact ht rfl hnames
  exact ⟨hpairwise, hcover _ hmem _ hfound, strays, herrors, ((hspec _ hmem).1 _).mpr hstray⟩

/-! ## Documents that are left out -/

/-- Whether a path is that of a directory that is gone into, and there is one file in it and nothing
else. -/
structure Alone (t : FileTree) (p : Path) (l : Location) (name : Bytes) : Prop where
  proper : t.Proper
  resolves : t.Resolves p l
  directory : t.get? l = some .directory
  entered : isSkipped p = false
  names : t.names l = [name]
  file : ∃ content, t.get? (l ++ [name]) = some (.file content)

theorem Alone.isName (h : Alone t p l name) : IsName name := by
  have hmem : name ∈ t.names l := by
    rw [h.names]
    exact List.mem_singleton.mpr rfl
  exact h.proper.isName hmem

/-- In the tree of a single file there is nothing else in its directory. -/
theorem alone_single {content : ByteArray} (hl : ∀ name ∈ l, IsName name) (hname : IsName name)
    (hp : (FileTree.single l name content).Resolves p l) (hskip : isSkipped p = false) :
    Alone (.single l name content) p l name :=
  ⟨FileTree.proper_single hl hname, hp, FileTree.get?_current_single, hskip, FileTree.names_single,
    content, FileTree.get?_single⟩

/-- A scan of the directory finds just what comes of the file. -/
theorem find_alone (h : Alone t p l name) : Selection.find { paths := [p] } t =
    ⟨valuesIn (judge t [] l (p.join name)).toList, errorsIn (judge t [] l (p.join name)).toList⟩ := by
  obtain ⟨content, hfile⟩ := h.file
  have hunder : under t false 64 [] p = [.ok (p.join name)] := by
    rw [under_of_find h.resolves.leads, h.names, List.flatMap_singleton, hfile]
    exact walk_of_not_directory nofun
  have hvisits : visitsFrom { paths := [p] } t [] p = (judge t [] l (p.join name)).toList := by
    refine (visitsFrom_of_opens h.resolves h.directory (.named h.entered)).trans ?_
    show sift t [] l (under t false 64 [] p) = _
    rw [hunder]
    exact (sift_ok (s := { paths := [p] })).trans (List.append_nil _)
  rw [find_eq, List.flatMap_singleton]
  show (⟨Path.inOrder (valuesIn (visitsFrom { paths := [p] } t [] p)),
    errorsIn (visitsFrom { paths := [p] } t [] p)⟩ : Found) = _
  rw [hvisits, Found.mk.injEq, and_iff_left rfl]
  cases judge t [] l (p.join name) with
  | none => exact Path.inOrder_nil
  | some v =>
    cases v with
    | error e => exact Path.inOrder_nil
    | ok q => exact Path.inOrder_singleton q

/-- Nothing comes of a file that is not accepted. -/
theorem find_alone_of_not_accepts (h : Alone t p l name)
    (hnot : ¬ Accepts { paths := [p] } t (p.join name)) :
    Selection.find { paths := [p] } t = ⟨[], []⟩ := by
  have hnone : judge t [] l (p.join name) = none := judge_of_not_accepts hnot
  rw [find_alone h, hnone]
  rfl

/-- Nothing comes of a file if its name is not a text. -/
theorem find_alone_of_not_text (h : Alone t p l name) (htext : name.text? = none) :
    Selection.find { paths := [p] } t = ⟨[], []⟩ := by
  refine find_alone_of_not_accepts h fun haccepts => ?_
  obtain ⟨text, hname, -⟩ := haccepts.named
  rw [Path.fileName?_join h.isName, Option.some.injEq, ← Bytes.text?_eq_some_iff, htext] at hname
  cases hname

/-- Nothing comes of a file if its path is too long. -/
theorem find_alone_of_long (h : Alone t p l name)
    (hlong : FileTree.pathLimit < (p.join name).bytes.length) :
    Selection.find { paths := [p] } t = ⟨[], []⟩ := by
  refine find_alone_of_not_accepts h fun haccepts => ?_
  obtain ⟨content, hfile⟩ := haccepts.file
  obtain ⟨place, hplace, -⟩ := FileTree.entry?_eq_some_iff.mp hfile
  exact Nat.not_lt.mpr (FileTree.usable_of_find hplace).short hlong

/-- A file is not found if the path of its place is too long. -/
theorem find_alone_of_deep (h : Alone t p l name) (hcurrent : FileTree.withinLimit t.current = true)
    (hdeep : FileTree.withinLimit (l ++ [name]) = false) :
    (Selection.find { paths := [p] } t).files = [] := by
  obtain ⟨content, hentry⟩ := h.file
  rw [find_alone h]
  refine List.eq_nil_iff_forall_not_mem.mpr fun q hq => ?_
  have hjudge := Option.mem_toList.mp (mem_valuesIn.mp hq)
  obtain ⟨haccepts, hjudged⟩ := (judge_eq_some_iff (s := { paths := [p] })).mp hjudge
  cases hjudged with
  | @inside place hplace hinside =>
    -- the file would resolve to where it is
    have hchild : t.canonicalize (p.join name) = .ok (l ++ [name]) := by
      obtain ⟨_, hfile⟩ := haccepts.file
      obtain ⟨place', hfound, -⟩ := FileTree.entry?_eq_some_iff.mp hfile
      rcases FileTree.find_child h.resolves.leads h.directory h.isName hentry with
        ⟨e, he⟩ | ⟨-, hchild⟩
      · cases hfound.symm.trans (he true)
      · rcases FileTree.canonicalize_of_find (hchild nofun) with hsome | herror
        · exact hsome
        · cases hplace.symm.trans herror
    have hwithin := FileTree.withinLimit_of_canonicalize hcurrent hplace
    rw [Except.ok.inj (hplace.symm.trans hchild), hdeep] at hwithin
    cases hwithin

/-- Whether the only file in a directory is not listed, though its name ends like that of a document.
-/
structure Overlooks (t : FileTree) (p : Path) (l : Location) (name : Bytes) : Prop
    extends Alone t p l name where
  named : ∃ ending ∈ endings, ∃ front, front ≠ [] ∧ name = front ++ utf8 ending
  missing : (Selection.find { paths := [p] } t).files = []

/-- The byte in front of the ending is in no text. -/
theorem overlooks_not_text :
    Overlooks (.single [] (0xFF :: utf8 ".dom.json") .empty) ⟨Path.here⟩ []
      (0xFF :: utf8 ".dom.json") := by
  have halone : Alone (.single [] (0xFF :: utf8 ".dom.json") .empty) ⟨Path.here⟩ []
      (0xFF :: utf8 ".dom.json") :=
    alone_single (List.forall_mem_nil _) (by decide) (FileTree.resolves_here rfl) (by decide)
  have htext : Bytes.text? (0xFF :: utf8 ".dom.json") = none := by cbv
  refine ⟨halone, ⟨".dom.json", by decide, [0xFF], by decide, rfl⟩, ?_⟩
  rw [find_alone_of_not_text halone htext]

/-- So many separators can be used as a path, but not with the name of a document behind them. -/
theorem overlooks_long_path {n : Nat} (hshort : n ≤ 4095) (hlong : 4086 ≤ n) :
    Overlooks (.single [] (utf8 "x.dom.json") .empty) ⟨List.replicate n Path.separator⟩ []
      (utf8 "x.dom.json") := by
  obtain ⟨n, rfl⟩ : ∃ m, n = m + 1 := ⟨n - 1, by omega⟩
  have hskip : isSkipped ⟨List.replicate (n + 1) Path.separator⟩ = false := by
    refine Bool.eq_false_iff.mpr fun hskipped => ?_
    obtain ⟨name, -, hname⟩ := isSkipped_iff.mp hskipped
    rw [Path.fileName?, Path.steps_separators] at hname
    cases hname
  have hname : IsName (utf8 "x.dom.json") := by decide
  have halone := alone_single (List.forall_mem_nil _) hname
    (FileTree.resolves_separators (t := .single [] _ .empty) (Nat.succ_pos n) hshort) hskip
  refine ⟨halone, ⟨".dom.json", by decide, utf8 "x", by decide, by decide⟩, ?_⟩
  rw [find_alone_of_long halone]
  have hlength : (utf8 "x.dom.json").length = 10 := by decide
  -- the path ends with a separator, so the name is put right behind it
  have hend : (List.replicate (n + 1) Path.separator).getLast? = some Path.separator := by
    rw [List.getLast?_replicate, if_neg (Nat.succ_ne_zero n)]
  rw [Path.join, if_pos (by rw [hend]; simp), List.length_append, List.length_replicate, hlength,
    FileTree.pathLimit]
  omega

/-- A name that is as long as names can be. -/
def longName : Bytes := List.replicate 255 97

/-- A place below which no name can be that long. -/
def deepPlace : Location := List.replicate 15 longName

/-- The name of a document that is as long as names can be. -/
def longDocument : Bytes := List.replicate 246 97 ++ utf8 ".dom.json"

/-- The path of the directory is short enough to be resolved, and that of the file in it is not. -/
theorem overlooks_deep_place :
    Overlooks (.single deepPlace longDocument .empty) ⟨Path.here⟩ deepPlace longDocument := by
  have hnames : ∀ name ∈ deepPlace, IsName name := by
    intro name hname
    rw [List.eq_of_mem_replicate hname]
    decide
  have hname : IsName longDocument := by decide
  have halone := alone_single hnames hname
    (FileTree.resolves_here (t := .single _ _ .empty) FileTree.get?_current_single) (by decide)
  -- fifteen names with a separator before each
  have hplace : (deepPlace.map (·.length + 1)).sum = 3840 := by
    rw [deepPlace, List.map_replicate, longName, List.length_replicate]
    rfl
  refine ⟨halone, ⟨".dom.json", by decide, List.replicate 246 97, by simp, rfl⟩, ?_⟩
  refine find_alone_of_deep halone (FileTree.withinLimit_iff.mpr ?_) ?_
  · show (deepPlace.map (·.length + 1)).sum ≤ FileTree.pathLimit
    rw [hplace]
    decide
  · have hlength : longDocument.length = 255 := by
      rw [longDocument, List.length_append, List.length_replicate]
      rfl
    rw [← Bool.not_eq_true, FileTree.withinLimit_iff, List.map_append, List.sum_append, hplace,
      List.map_singleton, hlength]
    decide

/-- Not every document is found: one whose name is not a text, one whose path is too long and one the
path of whose place is too long are left out, though their names end like those of documents and each
of them is directly in a configured directory. -/
theorem not_every_document_found :
    Overlooks (.single [] (0xFF :: utf8 ".dom.json") .empty) ⟨Path.here⟩ []
      (0xFF :: utf8 ".dom.json") ∧
    Overlooks (.single [] (utf8 "x.dom.json") .empty) ⟨List.replicate 4090 Path.separator⟩ []
      (utf8 "x.dom.json") ∧
    Overlooks (.single deepPlace longDocument .empty) ⟨Path.here⟩ deepPlace longDocument :=
  ⟨overlooks_not_text, overlooks_long_path (by decide) (by decide), overlooks_deep_place⟩

end Selection

end ContentGrammar.Scan