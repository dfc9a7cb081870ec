import ContentGrammar.Proofs.Scan.Accounting
import ContentGrammar.Proofs.Scan.Discovery

/-!
# Directories that are configured

A walk looks at the name of a directory before it goes into it, and does so at its start as well. So
a configured directory with a name that is skipped comes to nothing, neither to files nor to errors
(`visitsFrom_of_not_opens`), unless it is a link that is followed only because it is configured
(`Opens`). Of any other configured directory, the documents directly in it are found or named by an
error, unless the directory itself does not resolve to a place, which is an error as well
(`visitsFrom_of_opened`). A run that ends well has found nothing wrong with what it found
(`report_of_mem_visitsFrom`).
-/

namespace ContentGrammar.Scan

variable {t : FileTree} {s : Selection} {follow : Bool} {depth : Nat} {above : List Ancestor}
  {p q : Path} {l root : Location} {name : Bytes} {content : ByteArray} {visits : List Visit}

/-! ## Files directly in a directory -/

/-- Whether there is a file of a name in a directory, or a link to one, that is reached by its path.
-/
structure Holds (t : FileTree) (p : Path) (root : Location) (name : Bytes) (content : ByteArray) :
    Prop where
  listed : t.get? (root ++ [name]) ≠ none
  leads : t.entry? (p.join name) = some (.file content)

/-- A file directly in a directory is met. -/
theorem walk_of_holds (ht : t.Proper) (hp : t.find true p = .ok root)
    (hroot : t.get? root = some .directory) (h : Holds t p root name content) :
    walk t follow depth above false (p.join name) (t.get? (root ++ [name])) =
      [.ok (p.join name)] := by
  have hname := ht.isName (FileTree.mem_names.mpr h.listed)
  obtain ⟨place, hplace, hfile⟩ := FileTree.entry?_eq_some_iff.mp h.leads
  cases hentry : t.get? (root ++ [name]) with
  | none => exact absurd hentry h.listed
  | some entry =>
    cases entry with
    | file _ => rw [walk_eq]
    | link target =>
      simp only [walk_eq, hplace, hfile]
      cases follow <;> rfl
    | directory =>
      -- the path would lead to the directory
      rcases FileTree.find_child hp hroot hname hentry with ⟨e, he⟩ | ⟨-, hfound⟩
      · cases hplace.symm.trans (he true)
      · rw [Except.ok.inj (hplace.symm.trans (hfound nofun)), hentry] at hfile
        cases hfile

namespace Selection

/-! ## What comes of a configured directory -/

/-- A configured directory that is not gone into leaves nothing behind. -/
theorem visitsFrom_of_not_opens (hp : t.Resolves p root) (hroot : t.get? root = some .directory)
    (hopens : ¬ Opens t s.followLinks p) : s.visitsFrom t s.globs p = [] := by
  rw [visitsFrom_of_not_file hp.canonical (not_file_of_directory hp.leads hroot),
    walkAll_of_not_opens hp.leads hroot hopens]
  rfl

/-- A document directly in a directory that is gone into is found, or an error names it. -/
theorem visitsFrom_of_holds (ht : t.Proper) (hp : t.Resolves p root)
    (hroot : t.get? root = some .directory) (hopens : Opens t s.followLinks p)
    (hdepth : 1 ≤ s.maxDepth) (hholds : Holds t p root name content)
    (hnamed : NamesDocument (p.join name)) (hkept : ¬ s.Excludes (p.join name)) :
    .ok (p.join name) ∈ s.visitsFrom t s.globs p ∨
      ∃ problem, .error ⟨p.join name, problem⟩ ∈ s.visitsFrom t s.globs p := by
  obtain ⟨depth, hsucc⟩ := Nat.exists_eq_add_of_le' hdepth
  -- the walk goes one step into the directory, where the file is listed
  have hmet : .ok (p.join name) ∈ under t s.followLinks s.maxDepth [] p := by
    rw [hsucc, under_of_find hp.leads]
    refine List.mem_flatMap.mpr ⟨name, FileTree.mem_names.mpr hholds.listed, ?_⟩
    rw [walk_of_holds ht hp.leads hroot hholds]
    exact List.mem_singleton.mpr rfl
  have haccepts : s.Accepts t (p.join name) := ⟨⟨content, hholds.leads⟩, hnamed, hkept⟩
  obtain ⟨v, -, hjudged⟩ := haccepts.judged root
  have hv : v ∈ s.visitsFrom t s.globs p := by
    rw [visitsFrom_of_opens hp hroot hopens]
    exact mem_sift_iff.mpr (.inr ⟨_, hmet, haccepts, hjudged⟩)
  cases hjudged with
  | inside _ _ => exact .inl hv
  | outside _ _ | lost _ => exact .inr ⟨_, hv⟩

/-- What is met from a configured path on is listed, or a path that is the same. -/
theorem exists_file_of_mem_visitsFrom (hmem : p ∈ s.paths) (hq : .ok q ∈ s.visitsFrom t s.globs p) :
    ∃ f ∈ (s.find t).files, f.same q = true := by
  have hq : q ∈ valuesIn (s.paths.flatMap (s.visitsFrom t s.globs)) :=
    mem_valuesIn.mpr (List.mem_flatMap.mpr ⟨p, hmem, hq⟩)
  rw [find_eq]
  exact (Path.inOrder_spec _).2.2 q hq

/-- Errors that are met from a configured path on are listed. -/
theorem mem_errors_of_mem_visitsFrom {e : Error} (hmem : p ∈ s.paths)
    (he : .error e ∈ s.visitsFrom t s.globs p) : e ∈ (s.find t).errors := by
  have he : e ∈ errorsIn (s.paths.flatMap (s.visitsFrom t s.globs)) :=
    mem_errorsIn.mpr (List.mem_flatMap.mpr ⟨p, hmem, he⟩)
  rw [find_eq]
  exact List.mem_append_right _ he

end Selection

/-! ## Runs that end well -/

section Runs

variable {read : Path → Except FileError ByteArray} {limits : Limits} {spec : Spec}
  {settings : Settings} {summary : Summary} {handled : List Path}
  {entries : List (Except Error FileReport)} {f : Path} {r : FileReport}

/-- A run that has an outcome has the rules in order, and its outcome is that of the files found. -/
theorem run_eq_ok (h : run t s limits spec settings = .ok summary) :
    spec.checkRules settings.rules = .ok () ∧ summary = scanFiles t.read (·.check spec settings)
      limits (.start (s.find t).errors) (s.find t).files := by
  rw [run] at h
  split at h
  case isTrue => cases h
  case isFalse =>
  split at h
  case h_1 => cases h
  case h_2 =>
  cases hrules : spec.checkRules settings.rules with
  | error e =>
    rw [hrules] at h
    cases h
  | ok u =>
    rw [hrules] at h
    exact ⟨rfl, (Except.ok.inj h).symm⟩

/-- A report among entries is what one of the files came to. -/
theorem settles_of_mem_valuesIn
    (h : List.Forall₂ (Settles read limits spec settings) handled entries)
    (hr : r ∈ valuesIn entries) : Settles read limits spec settings r.file (.ok r) := by
  induction h with
  | nil => cases hr
  | cons hsettles _ ih =>
    cases hsettles with
    | unread _ | unparsed _ _ => exact ih hr
    | validated htext hd hreport =>
      rcases List.mem_cons.mp hr with rfl | hr
      · exact .validated htext hd hreport
      · exact ih hr

/-- If a run ends well, there was no error, and nothing is wrong with any file that was found. -/
theorem report_of_ok (hrun : run t s limits spec settings = .ok summary) (hok : summary.ok = true) :
    (s.find t).errors = [] ∧ ∀ f ∈ (s.find t).files, ∃ report, ⟨f, report⟩ ∈ summary.reports ∧
      report.violations = [] ∧ Settles t.read limits spec settings f (.ok ⟨f, report⟩) := by
  obtain ⟨hrules, rfl⟩ := run_eq_ok hrun
  obtain ⟨handled, rest, entries, last, hfiles, haccount, hstops⟩ := scanFiles_accounting hrules
    (.start t.read limits spec settings (s.find t).errors) (s.find t).files
  have haccounted := haccount.accounted hstops
  rw [List.nil_append, ← hfiles] at haccounted
  obtain ⟨herrors, hreports, hclean⟩ := haccounted.ok_iff.mp hok
  refine ⟨herrors, fun f hf => ?_⟩
  rw [← hreports] at hf
  obtain ⟨r, hr, rfl⟩ := List.mem_map.mp hf
  have hmem := Array.mem_toList_iff.mp hr
  rw [haccounted.reports_eq] at hr
  exact ⟨r.report, hmem, hclean r hmem, settles_of_mem_valuesIn haccounted.settled hr⟩

/-- Paths that are the same are read in the same format. -/
theorem documentOf_of_same (hsame : p.same q = true) (text : String) :
    documentOf p text = documentOf q text := by
  have hsteps := Path.same_iff.mp hsame
  rw [documentOf, documentOf, formatOf, formatOf, documentFormat?, documentFormat?, Path.fileName?,
    Path.fileName?, hsteps]

end Runs

namespace Selection

/-- A document directly in a directory that is gone into is found or named by an error, unless the
directory does not resolve to a place, which is an error about the directory. -/
theorem visitsFrom_of_opened (ht : t.Proper) (hp : t.find true p = .ok root)
    (hroot : t.get? root = some .directory) (hopens : Opens t s.followLinks p)
    (hdepth : 1 ≤ s.maxDepth) (hholds : Holds t p root name content)
    (hnamed : NamesDocument (p.join name)) (hkept : ¬ s.Excludes (p.join name)) :
    .ok (p.join name) ∈ s.visitsFrom t s.globs p ∨
      (∃ problem, .error ⟨p.join name, problem⟩ ∈ s.visitsFrom t s.globs p) ∨
      (∀ place, t.canonicalize p ≠ .ok place) ∧
        ∃ problem, .error ⟨p, problem⟩ ∈ s.visitsFrom t s.globs p := by
  rcases FileTree.canonicalize_of_find hp with hplace | hlost
  · rw [← or_assoc]
    exact .inl (visitsFrom_of_holds ht ⟨hp, hplace⟩ hroot hopens hdepth hholds hnamed hkept)
  · refine .inr (.inr ⟨fun place hplace => ?_, .file .resolveRoot .tooLong, ?_⟩)
    · cases hlost.symm.trans hplace
    · rw [visitsFrom, hlost]
      exact List.mem_singleton.mpr rfl

/-- If a run ends well, a file that is met from a configured path on has been checked, perhaps by way
of a path that is the same, and nothing is wrong with it. -/
theorem report_of_mem_visitsFrom {limits : Limits} {spec : Spec} {settings : Settings}
    {summary : Summary} (hrun : run t s limits spec settings = .ok summary)
    (hok : summary.ok = true) (hmem : p ∈ s.paths) (hq : .ok q ∈ s.visitsFrom t s.globs p)
    (hfile : t.entry? q = some (.file content)) :
    ∃ text d report f, textOf limits (.ok content) = .ok text ∧ documentOf q text = .ok d ∧
      d.validate spec settings = .ok report ∧ report.violations = [] ∧
      ⟨f, report⟩ ∈ summary.reports ∧ f.same q = true := by
  obtain ⟨f, hf, hsame⟩ := exists_file_of_mem_visitsFrom hmem hq
  obtain ⟨report, hreport, hviolations, hsettles⟩ := (report_of_ok hrun hok).2 f hf
  cases hsettles with
  | @validated text d _ htext hd hvalidate =>
    have hread := content_of_textOf htext
    -- paths that are the same are those of one file, which is read in one format
    obtain rfl := Entry.file.inj
      (FileTree.entry?_unique hsame (FileTree.read_eq_ok_iff.mp hread) hfile)
    rw [hread] at htext
    rw [documentOf_of_same hsame] at hd
    exact ⟨text, d, report, f, htext, hd, hvalidate, hviolations, hreport, hsame⟩

/-- Whatever a configured directory that is gone into is called, each document directly in it that is
reached by its path is found or named by an error, unless the directory does not resolve to a place
and is named by an error itself. A run ends well only if nothing is wrong with that document. -/
theorem opened_directory_scanned (ht : t.Proper) (hmem : p ∈ s.paths)
    (hp : t.find true p = .ok root) (hroot : t.get? root = some .directory)
    (hopens : Opens t s.followLinks p) (hdepth : 1 ≤ s.maxDepth)
    (hholds : Holds t p root name content) (hnamed : NamesDocument (p.join name))
    (hkept : ¬ s.Excludes (p.join name)) :
    ((∃ f ∈ (s.find t).files, f.same (p.join name) = true) ∨
      (∃ e ∈ (s.find t).errors, e.file = p.join name) ∨
      (∀ place, t.canonicalize p ≠ .ok place) ∧ ∃ e ∈ (s.find t).errors, e.file = p) ∧
    ∀ limits spec settings summary, run t s limits spec settings = .ok summary →
      summary.ok = true → ∃ text d report f, textOf limits (.ok content) = .ok text ∧
        documentOf (p.join name) text = .ok d ∧ d.validate spec settings = .ok report ∧
        report.violations = [] ∧ ⟨f, report⟩ ∈ summary.reports ∧ f.same (p.join name) = true := by
  have hvisits := visitsFrom_of_opened ht hp hroot hopens hdepth hholds hnamed hkept
  have herrors : ∀ file problem, .error ⟨file, problem⟩ ∈ s.visitsFrom t s.globs p →
      ∃ e ∈ (s.find t).errors, e.file = file := fun file problem he =>
    ⟨_, mem_errors_of_mem_visitsFrom hmem he, rfl⟩
  constructor
  · rcases hvisits with hfound | ⟨problem, herror⟩ | ⟨hlost, problem, herror⟩
    · exact .inl (exists_file_of_mem_visitsFrom hmem hfound)
    · exact .inr (.inl (herrors _ _ herror))
    · exact .inr (.inr ⟨hlost, herrors _ _ herror⟩)
  · intro limits spec settings summary hrun hok
    -- a run that ends well has met no errors, so the document itself has been met
    have hclean : ∀ file problem, .error ⟨file, problem⟩ ∉ s.visitsFrom t s.globs p := by
      intro file problem he
      obtain ⟨e, he, -⟩ := herrors file problem he
      rw [(report_of_ok hrun hok).1] at he
      cases he
    rcases hvisits with hfound | ⟨problem, herror⟩ | ⟨-, problem, herror⟩
    · exact report_of_mem_visitsFrom hrun hok hmem hfound hholds.leads
    · exact absurd herror (hclean _ _)
    · exact absurd herror (hclean _ _)

/-- A directory with one document in it, and a run that ends well. -/
theorem opened_directory_scanned_alone :
    let content := "\x7b\"name\":\"p\"\x7d".toUTF8
    let t : FileTree := .single [] (utf8 "x.dom.json") content
    let s : Selection := { paths := [.ofText "."] }
    let f := Path.ofText "./x.dom.json"
    ((∃ g ∈ (s.find t).files, g.same f = true) ∨ (∃ e ∈ (s.find t).errors, e.file = f) ∨
      (∀ place, t.canonicalize (.ofText ".") ≠ .ok place) ∧
        ∃ e ∈ (s.find t).errors, e.file = .ofText ".") ∧
    ∃ summary, run t s {} .empty {} = .ok summary ∧ summary.ok = true ∧
      ∃ text d report g, textOf {} (.ok content) = .ok text ∧ documentOf f text = .ok d ∧
        d.validate .empty {} = .ok report ∧ report.violations = [] ∧
        ⟨g, report⟩ ∈ summary.reports ∧ g.same f = true := by
  intro content t s f
  have halone : Alone t (.ofText ".") [] (utf8 "x.dom.json") :=
    alone_single (List.forall_mem_nil _) (by decide) (FileTree.resolves_here rfl) (by decide)
  have hjoin : (Path.ofText ".").join (utf8 "x.dom.json") = f := by cbv
  have hfile : t.entry? f = some (.file content) := by
    unfold t f
    cbv
  have hnamed : NamesDocument f := isSome_documentFormat?_iff.mp (by cbv)
  have hfound : s.find t = ⟨[f], []⟩ := by
    have hjudge : judge t [] [] f = some (.ok f) := by
      unfold t f
      cbv
    rw [find_alone halone, hjoin, hjudge]
    rfl
  have hleads : t.leads (.ofText ".") = true := by
    unfold t
    cbv
  have hrun := @run_eq {} .empty {} t s (List.cons_ne_nil _ _)
    (List.forall_mem_singleton.mpr hleads) rfl
  rw [hfound] at hrun
  have hok : (scanFiles t.read (·.check .empty {}) {} (.start []) [f]).ok = true := by
    unfold t content f
    cbv
  have hholds : Holds t (.ofText ".") [] (utf8 "x.dom.json") content :=
    ⟨Option.some_ne_none _, by rw [hjoin, hfile]⟩
  rw [← hjoin] at hnamed ⊢
  have hdepth : 1 ≤ s.maxDepth := by decide
  have hkept := not_excludes (s := s) rfl ((Path.ofText ".").join (utf8 "x.dom.json"))
  obtain ⟨hfirst, hsecond⟩ := opened_directory_scanned halone.proper (List.mem_singleton.mpr rfl)
    halone.resolves.leads halone.directory (.named halone.entered) hdepth hholds hnamed hkept
  exact ⟨hfirst, _, hrun, hok, hsecond _ _ _ _ hrun hok⟩

/-- Not every configured directory is scanned: of one that is called `target` the document directly in
it is neither found nor named by an error, and the run ends well though the document is invalid. -/
theorem not_every_directory_scanned :
    let text := "\x7b\"name\":\"p\",\"children\":[\x7b\"name\":\"b\"\x7d]\x7d"
    let t : FileTree := ⟨[([utf8 "target"], .directory),
      ([utf8 "target", utf8 "a.dom.json"], .file text.toUTF8)], []⟩
    let s : Selection := { paths := [.ofText "target"] }
    let spec : Spec := ⟨.ofList [("p", ⟨.sequence [], []⟩)], .empty⟩
    let f := (Path.ofText "target").join (utf8 "a.dom.json")
    (t.Proper ∧ t.Resolves (.ofText "target") [utf8 "target"] ∧
      t.get? [utf8 "target"] = some .directory ∧
      Holds t (.ofText "target") [utf8 "target"] (utf8 "a.dom.json") text.toUTF8 ∧
      NamesDocument f ∧ ¬ s.Excludes f) ∧
    (textOf {} (.ok text.toUTF8) = .ok text ∧ ∃ d report, documentOf f text = .ok d ∧
      d.validate spec {} = .ok report ∧ report.violations ≠ []) ∧
    (s.find t).files = [] ∧ (s.find t).errors = [] ∧
    ∃ summary, run t s {} spec {} = .ok summary ∧ summary.ok = true := by
  intro text t s spec f
  have hp : t.Resolves (.ofText "target") [utf8 "target"] := by
    unfold t text
    constructor <;> cbv
  have hroot : t.get? [utf8 "target"] = some .directory := rfl
  have hfile : t.entry? f = some (.file text.toUTF8) := by
    unfold t text f
    cbv
  have hdocument : ∃ d, documentOf f text = .ok d ∧ (d.check spec {}).violations ≠ [] := by
    -- an error or a document without violations would make this false
    have hany : (documentOf f text).toOption.any
        (fun d => !(d.check spec {}).violations.isEmpty) = true := by
      unfold text spec f
      cbv
    cases hd : documentOf f text with
    | error problem =>
      rw [hd] at hany
      cases hany
    | ok d =>
      rw [hd] at hany
      refine ⟨d, rfl, fun hnone => ?_⟩
      simp [Except.toOption, hnone] at hany
  -- the directory is no link, and is asked for its name
  have hopens : ¬ Opens t s.followLinks (.ofText "target") := by
    have hreal : t.find false (.ofText "target") = .ok [utf8 "target"] := by
      unfold t text
      cbv
    rw [opens_iff hreal hroot, Bool.not_eq_false]
    cbv
  have hfound : s.find t = ⟨[], []⟩ := by
    rw [find_eq, List.flatMap_singleton, visitsFrom_of_not_opens hp hroot hopens]
    exact congrArg (Found.mk · []) Path.inOrder_nil
  have hleads : t.leads (.ofText "target") = true := by
    unfold t text
    cbv
  have hrun := @run_eq {} spec {} t s (List.cons_ne_nil _ _)
    (List.forall_mem_singleton.mpr hleads) rfl
  simp only [hfound, scanFiles] at hrun
  obtain ⟨d, hd, hviolations⟩ := hdocument
  refine ⟨⟨⟨by decide, by decide⟩, hp, hroot, ⟨Option.some_ne_none _, hfile⟩,
    isSome_documentFormat?_iff.mp (by cbv), not_excludes rfl _⟩, ⟨?_, ?_⟩, ?_, ?_, _, hrun, by cbv⟩
  · unfold text
    cbv
  · exact ⟨d, _, hd, Document.validate_ok_iff.mpr ⟨rfl, rfl⟩, hviolations⟩
  · rw [hfound]
  · rw [hfound]

end Selection

end ContentGrammar.Scan
