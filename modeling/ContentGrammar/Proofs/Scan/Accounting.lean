import Mathlib
import ContentGrammar.Proofs.Results
import ContentGrammar.Proofs.Validation.Outcomes
import ContentGrammar.Scan.Run

/-!
# What becomes of the files of a scan

A scan handles files in order until a limit keeps one out (`Stops`). Each file that is handled comes
to one entry, a report or an error that names it (`Settles`), and `Accounting` says how the outcome
so far is made up of these entries. One file more keeps the account (`Accounting.push`), and so does
the error at which the scan stops (`Accounting.stop`), so any scan that begins with rules in order
ends with an account of all files: `scan_accounts`.
-/

namespace ContentGrammar.Scan

section Account

variable (read : Path → Except FileError ByteArray) (limits : Limits) (spec : Spec)
  (settings : Settings)

/-- What a file comes to if no limit keeps it out: the report on the document in it, or an error
that names it if there is no text or no document in it. -/
inductive Settles (p : Path) : Except Error FileReport → Prop
  | unread {problem : Problem} : textOf limits (read p) = .error problem →
      Settles p (.error ⟨p, problem⟩)
  | unparsed {text : String} {problem : Problem} : textOf limits (read p) = .ok text →
      documentOf p text = .error problem → Settles p (.error ⟨p, problem⟩)
  | validated {text : String} {d : Document} {report : Report} :
      textOf limits (read p) = .ok text → documentOf p text = .ok d →
      d.validate spec settings = .ok report → Settles p (.ok ⟨p, report⟩)

/-- The size of a file that is handed on to be parsed. One that cannot be used as a text counts
nothing. -/
def parsedSize (p : Path) : Nat :=
  match read p, textOf limits (read p) with
  | .ok content, .ok _ => content.size
  | _, _ => 0

/-- How many bytes of files are handed on to be parsed. -/
def bytesOf (ps : List Path) : Nat := (ps.map (parsedSize read limits)).sum

/-- Whether a file is within the limits when `failed` errors came before the first file and the
files `before` it have been handled. -/
structure Admits (failed : Nat) (before : List Path) (p : Path) : Prop where
  files : failed + before.length < limits.files
  bytes : bytesOf read limits before + parsedSize read limits p ≤ limits.totalBytes

/-- How a scan ends when it has handled some files and these are left: with no error if none is
left, and otherwise with one for the first of them, which is past a limit. -/
inductive Stops (failed : Nat) (handled : List Path) : List Path → Option Error → Prop
  | never : Stops failed handled [] none
  | files {p : Path} {ps : List Path} : limits.files ≤ failed + handled.length →
      Stops failed handled (p :: ps) (some ⟨p, .tooManyFiles limits.files⟩)
  | bytes {p : Path} {ps : List Path} : failed + handled.length < limits.files →
      limits.totalBytes < bytesOf read limits handled + parsedSize read limits p →
      Stops failed handled (p :: ps) (some ⟨p, .tooManyBytes limits.totalBytes⟩)

/-- How an outcome is made up of the errors before the first file, of one entry for each file that
was handled and of the error at which the scan stopped. -/
structure Accounting (errors : List Error) (handled : List Path)
    (entries : List (Except Error FileReport)) (last : Option Error) (s : Summary) : Prop where
  settled : List.Forall₂ (Settles read limits spec settings) handled entries
  admitted : ∀ before p after, handled = before ++ p :: after →
    Admits read limits errors.length before p
  reports_eq : s.reports.toList = valuesIn entries
  errors_eq : s.errors.toList = errors ++ errorsIn entries ++ last.toList
  failed_eq : s.failed = s.errors.size
  scanned_le : s.scanned ≤ limits.files
  bytes_eq : s.bytes = bytesOf read limits handled
  bytes_le : bytesOf read limits handled ≤ limits.totalBytes

/-- What a whole scan of files leaves behind. -/
structure Accounted (errors : List Error) (files handled rest : List Path)
    (entries : List (Except Error FileReport)) (last : Option Error) (s : Summary) : Prop extends
    Accounting read limits spec settings errors handled entries last s where
  files_eq : files = handled ++ rest
  stops : Stops read limits errors.length handled rest last
  /-- The error at which the scan stops is the last one and names the first file not handled. -/
  limit : ∀ e ∈ last, s.errors.toList.getLast? = some e ∧ rest.head? = some e.file ∧
    e.kind = "LimitExceeded" ∧
    (e.message = "Scan aborted: max_files limit (" ++ toString limits.files
        ++ ") reached; remaining files not scanned" ∨
      e.message = "Scan aborted: max_total_bytes limit (" ++ toString limits.totalBytes
        ++ ") reached; remaining files not scanned")
  /-- All is well if there are no errors, every file has a report, and no report has a violation. -/
  ok_iff : s.ok = true ↔ errors = [] ∧ s.reports.toList.map (·.file) = files ∧
    ∀ r ∈ s.reports, r.report.violations = []

end Account

variable {read : Path → Except FileError ByteArray} {limits : Limits} {spec : Spec}
  {settings : Settings} {errors : List Error} {files handled rest : List Path}
  {entries : List (Except Error FileReport)} {e : Except Error FileReport} {last : Option Error}
  {s : Summary} {p : Path} {failed : Nat}

/-! ## Entries -/

/-- Without errors, the reports are on the files one by one. -/
theorem map_file_valuesIn (h : List.Forall₂ (Settles read limits spec settings) handled entries)
    (hnone : errorsIn entries = []) : (valuesIn entries).map (·.file) = handled := by
  induction h with
  | nil => rfl
  | cons hsettles _ ih =>
    cases hsettles with
    | unread _ | unparsed _ _ => cases hnone
    | validated _ _ _ => exact congrArg _ (ih hnone)

/-- The text of a file has the bytes of the file. -/
theorem content_of_textOf {content : Except FileError ByteArray} {text : String}
    (h : textOf limits content = .ok text) : content = .ok text.toByteArray := by
  cases content with
  | error e => cases e <;> cases h
  | ok bytes =>
    rw [textOf] at h
    split at h
    · cases h
    · split at h
      · rename_i found hfound
        cases h
        rw [String.fromUTF8?] at hfound
        split at hfound
        · cases hfound
          rfl
        · cases hfound
      · cases h

/-- A file that cannot be read adds nothing to the size of what is parsed. -/
theorem parsedSize_of_error {problem : Problem} (h : textOf limits (read p) = .error problem) :
    parsedSize read limits p = 0 := by
  rw [parsedSize, h]
  cases read p <;> rfl

/-- A file adds the bytes of its text. -/
theorem parsedSize_of_ok {text : String} (h : textOf limits (read p) = .ok text) :
    parsedSize read limits p = text.utf8ByteSize := by
  rw [parsedSize, h, content_of_textOf h]
  rfl

theorem bytesOf_concat (ps : List Path) (p : Path) :
    bytesOf read limits (ps ++ [p]) = bytesOf read limits ps + parsedSize read limits p := by
  rw [bytesOf, List.map_append, List.sum_append, List.map_singleton, List.sum_singleton, bytesOf]

namespace Summary

/-- The outcome with the entry of one more file, of which some bytes were handed on. -/
def record (s : Summary) (size : Nat) : Except Error FileReport → Summary
  | .error e => (s.take size).fail e.file e.problem
  | .ok r => (s.take size).succeed r

theorem reports_record (s : Summary) (size : Nat) (e : Except Error FileReport) :
    (s.record size e).reports.toList = s.reports.toList ++ valuesIn [e] := by
  cases e with
  | error e => exact (List.append_nil _).symm
  | ok r => exact Array.toList_push

theorem errors_record (s : Summary) (size : Nat) (e : Except Error FileReport) :
    (s.record size e).errors.toList = s.errors.toList ++ errorsIn [e] := by
  cases e with
  | error e => exact Array.toList_push
  | ok r => exact (List.append_nil _).symm

theorem scanned_record (s : Summary) (size : Nat) (e : Except Error FileReport) :
    (s.record size e).scanned = s.scanned + (valuesIn [e]).length := by
  cases e with
  | error e => rfl
  | ok r => exact Array.size_push r

theorem failed_record (s : Summary) (size : Nat) (e : Except Error FileReport) :
    (s.record size e).failed = s.failed + (errorsIn [e]).length := by
  cases e <;> rfl

theorem bytes_record (s : Summary) (size : Nat) (e : Except Error FileReport) :
    (s.record size e).bytes = s.bytes + size := by
  cases e <;> rfl

end Summary

/-! ## The account of one file more -/

namespace Accounting

/-- At the start the account is that of no files, with the errors that were there. -/
theorem start (read : Path → Except FileError ByteArray) (limits : Limits) (spec : Spec)
    (settings : Settings) (errors : List Error) :
    Accounting read limits spec settings errors [] [] none (.start errors) where
  settled := .nil
  admitted before p after h := by simp at h
  reports_eq := rfl
  errors_eq := by simp [Summary.start, errorsIn]
  failed_eq := rfl
  scanned_le := Nat.zero_le _
  bytes_eq := rfl
  bytes_le := Nat.zero_le _

/-- The number that is held against the limit counts files and earlier errors alike. -/
theorem attempted (h : Accounting read limits spec settings errors handled entries none s) :
    s.attempted = errors.length + handled.length := by
  have hreports := congrArg List.length h.reports_eq
  have herrors := congrArg List.length h.errors_eq
  have hentries := length_valuesIn_add_errorsIn entries
  rw [← h.settled.length_eq] at hentries
  simp only [Array.length_toList, List.length_append, Option.toList_none, List.length_nil]
    at hreports herrors
  rw [Summary.attempted, Summary.scanned, h.failed_eq]
  omega

/-- A file that is within the limits adds its entry. -/
theorem push (h : Accounting read limits spec settings errors handled entries none s)
    (hadmits : Admits read limits errors.length handled p)
    (hsettles : Settles read limits spec settings p e) :
    Accounting read limits spec settings errors (handled ++ [p]) (entries ++ [e]) none
      (s.record (parsedSize read limits p) e) := by
  constructor
  case settled => exact List.rel_append h.settled (.cons hsettles .nil)
  case admitted =>
    -- the file is either the last one or among those before
    intro before q after heq
    rcases List.eq_nil_or_concat after with rfl | ⟨after, r, rfl⟩
    · obtain ⟨hbefore, hlast⟩ := List.append_inj' heq rfl
      obtain rfl := List.singleton_inj.mp hlast
      exact hbefore ▸ hadmits
    · rw [List.concat_eq_append, ← List.cons_append, ← List.append_assoc] at heq
      exact h.admitted before q after (List.append_inj' heq rfl).1
  case reports_eq => rw [Summary.reports_record, h.reports_eq, valuesIn_append]
  case errors_eq =>
    rw [Summary.errors_record, h.errors_eq, errorsIn_append, Option.toList_none, List.append_nil,
      List.append_nil, List.append_assoc]
  case failed_eq =>
    rw [Summary.failed_record, h.failed_eq, ← Array.length_toList, ← Array.length_toList,
      Summary.errors_record, List.length_append]
  case scanned_le =>
    have hattempted := h.attempted
    have hfiles := hadmits.files
    have hone := length_valuesIn_add_errorsIn [e]
    rw [Summary.attempted] at hattempted
    rw [List.length_singleton] at hone
    rw [Summary.scanned_record]
    omega
  case bytes_eq => rw [Summary.bytes_record, h.bytes_eq, bytesOf_concat]
  case bytes_le =>
    rw [bytesOf_concat]
    exact hadmits.bytes

/-- The error at which the scan stops comes behind all others. -/
theorem stop (h : Accounting read limits spec settings errors handled entries none s) (e : Error) :
    Accounting read limits spec settings errors handled entries (some e)
      (s.fail e.file e.problem) where
  settled := h.settled
  admitted := h.admitted
  reports_eq := h.reports_eq
  errors_eq := by
    have herrors := h.errors_eq
    rw [Option.toList_none, List.append_nil] at herrors
    rw [← herrors]
    exact Array.toList_push
  failed_eq := by
    rw [Summary.fail, Array.size_push, h.failed_eq]
  scanned_le := h.scanned_le
  bytes_eq := h.bytes_eq
  bytes_le := h.bytes_le

end Accounting

/-! ## Steps of a scan -/

/-- With rules in order, a scan goes on with the entry of the next file if that is within the
limits, and stops at it if not. -/
theorem scanFiles_cons (hrules : spec.checkRules settings.rules = .ok ())
    (h : Accounting read limits spec settings errors handled entries none s) (p : Path)
    (ps : List Path) :
    (∃ e, Admits read limits errors.length handled p ∧ Settles read limits spec settings p e ∧
      scanFiles read (·.check spec settings) limits s (p :: ps) =
        scanFiles read (·.check spec settings) limits (s.record (parsedSize read limits p) e) ps) ∨
    ∃ e, Stops read limits errors.length handled (p :: ps) (some e) ∧
      scanFiles read (·.check spec settings) limits s (p :: ps) = s.fail e.file e.problem := by
  rw [scanFiles, h.attempted]
  -- the number of files is looked at first, and the bytes once the file has been read
  by_cases hfiles : limits.files ≤ errors.length + handled.length
  · rw [if_pos hfiles]
    exact .inr ⟨_, .files hfiles, rfl⟩
  rw [if_neg hfiles]
  cases htext : textOf limits (read p) with
  | error problem =>
    have hsize := parsedSize_of_error htext
    refine .inl ⟨.error ⟨p, problem⟩, ⟨Nat.not_le.mp hfiles, ?_⟩, .unread htext, ?_⟩
    · rw [hsize]
      exact h.bytes_le
    · rw [hsize]
      rfl
  | ok text =>
    have hsize := parsedSize_of_ok htext
    dsimp only
    rw [h.bytes_eq, ← hsize]
    by_cases hbytes : limits.totalBytes < bytesOf read limits handled + parsedSize read limits p
    · rw [if_pos hbytes]
      exact .inr ⟨_, .bytes (Nat.not_le.mp hfiles) hbytes, rfl⟩
    rw [if_neg hbytes]
    have hadmits : Admits read limits errors.length handled p :=
      ⟨Nat.not_le.mp hfiles, Nat.not_lt.mp hbytes⟩
    cases hd : documentOf p text with
    | error problem => exact .inl ⟨.error ⟨p, problem⟩, hadmits, .unparsed htext hd, rfl⟩
    | ok d =>
      have hreport := Document.validate_ok_iff.mpr ⟨hrules, Eq.refl (d.check spec settings)⟩
      exact .inl ⟨.ok ⟨p, _⟩, hadmits, .validated htext hd hreport, rfl⟩

/-- A scan that has handled some files goes on until it has handled all or is stopped. -/
theorem scanFiles_accounting (hrules : spec.checkRules settings.rules = .ok ())
    (h : Accounting read limits spec settings errors handled entries none s) (files : List Path) :
    ∃ more rest entries last, files = more ++ rest ∧
      Accounting read limits spec settings errors (handled ++ more) entries last
        (scanFiles read (·.check spec settings) limits s files) ∧
      Stops read limits errors.length (handled ++ more) rest last := by
  induction files generalizing handled entries s with
  | nil =>
    refine ⟨[], [], entries, none, rfl, ?_, .never⟩
    rw [List.append_nil]
    exact h
  | cons p ps ih =>
    rcases scanFiles_cons hrules h p ps with ⟨e, hadmits, hsettles, hscan⟩ | ⟨e, hstops, hscan⟩
    · obtain ⟨more, rest, entries, last, rfl, haccount, hstops⟩ := ih (h.push hadmits hsettles)
      rw [List.append_assoc] at haccount hstops
      refine ⟨p :: more, rest, entries, last, rfl, ?_, hstops⟩
      rw [hscan]
      exact haccount
    · refine ⟨[], p :: ps, entries, some e, rfl, ?_, ?_⟩
      · rw [hscan, List.append_nil]
        exact h.stop e
      · rw [List.append_nil]
        exact hstops

/-! ## The account of all files -/

/-- A scan stops with an error that names the file which was left out and the limit. -/
theorem Stops.limitExceeded {e : Error} (h : Stops read limits failed handled rest (some e)) :
    rest.head? = some e.file ∧ e.kind = "LimitExceeded" ∧
    (e.message = "Scan aborted: max_files limit (" ++ toString limits.files
        ++ ") reached; remaining files not scanned" ∨
      e.message = "Scan aborted: max_total_bytes limit (" ++ toString limits.totalBytes
        ++ ") reached; remaining files not scanned") := by
  cases h with
  | files _ => exact ⟨rfl, rfl, .inl rfl⟩
  | bytes _ _ => exact ⟨rfl, rfl, .inr rfl⟩

/-- Files are left out only if there is an error that says so. -/
theorem Stops.rest_eq_nil_iff (h : Stops read limits failed handled rest last) :
    rest = [] ↔ last = none := by
  cases h <;> simp

/-- Nothing is wrong just when no file was left without a report on it. -/
theorem Accounting.errors_eq_nil_iff
    (h : Accounting read limits spec settings errors handled entries last s)
    (hstops : Stops read limits errors.length handled rest last) :
    s.errors.toList = [] ↔
      errors = [] ∧ s.reports.toList.map (·.file) = handled ++ rest := by
  rw [h.errors_eq, h.reports_eq]
  constructor
  · intro hnil
    obtain ⟨hothers, hlast⟩ := List.append_eq_nil_iff.mp hnil
    obtain ⟨herrors, hnone⟩ := List.append_eq_nil_iff.mp hothers
    have hrest := hstops.rest_eq_nil_iff.mpr (Option.toList_eq_nil_iff.mp hlast)
    exact ⟨herrors, by rw [map_file_valuesIn h.settled hnone, hrest, List.append_nil]⟩
  · rintro ⟨rfl, hfiles⟩
    -- as many reports as files leave no room for errors
    have hlength := congrArg List.length hfiles
    have hentries := length_valuesIn_add_errorsIn entries
    rw [← h.settled.length_eq] at hentries
    rw [List.length_map, List.length_append] at hlength
    have hnone : errorsIn entries = [] := List.eq_nil_of_length_eq_zero (by omega)
    have hrest : rest = [] := List.eq_nil_of_length_eq_zero (by omega)
    rw [hnone, hstops.rest_eq_nil_iff.mp hrest]
    rfl

/-- The account at the end of a scan, or where it is stopped, is one of all files. -/
theorem Accounting.accounted
    (h : Accounting read limits spec settings errors handled entries last s)
    (hstops : Stops read limits errors.length handled rest last) :
    Accounted read limits spec settings errors (handled ++ rest) handled rest entries last s := by
  refine ⟨h, rfl, hstops, fun e he => ?_, ?_⟩
  · obtain rfl : last = some e := he
    refine ⟨?_, hstops.limitExceeded⟩
    rw [h.errors_eq, Option.toList_some, List.getLast?_concat]
  · rw [Summary.ok, Bool.and_eq_true, Array.isEmpty_iff, ← Array.toList_eq_nil_iff,
      h.errors_eq_nil_iff hstops, Array.all_eq_true', and_assoc]
    simp only [Report.ok, List.isEmpty_iff]

/-- A run for paths that all lead to something scans the files found. -/
theorem run_eq {t : FileTree} {selection : Selection} (hpaths : selection.paths ≠ [])
    (hleads : ∀ p ∈ selection.paths, t.leads p = true)
    (hrules : spec.checkRules settings.rules = .ok ()) :
    run t selection limits spec settings = .ok (scanFiles t.read (·.check spec settings) limits
      (.start (selection.find t).errors) (selection.find t).files) := by
  have hempty : selection.paths.isEmpty = false := by
    rw [List.isEmpty_eq_false_iff]
    exact hpaths
  have hfind : selection.paths.find? (fun p => !t.leads p) = none := by
    rw [List.find?_eq_none]
    intro p hp
    rw [hleads p hp]
    exact Bool.false_ne_true
  rw [run, hempty, hfind, hrules]
  rfl

/-- With rules in order, whatever files there are to scan, whatever reading them gives, whatever was
wrong before and whatever the limits are, the scan leaves an account of all files; and a run for
paths that all lead to something gives an outcome, which is an account of the files found. -/
theorem scan_accounts (limits : Limits) (spec : Spec) (settings : Settings)
    (hrules : spec.checkRules settings.rules = .ok ()) :
    (∀ read errors files, ∃ handled rest entries last,
      Accounted read limits spec settings errors files handled rest entries last
        (scanFiles read (·.check spec settings) limits (.start errors) files)) ∧
    ∀ (t : FileTree) (selection : Selection), selection.paths ≠ [] →
      (∀ p ∈ selection.paths, t.leads p = true) →
      ∃ s handled rest entries last, run t selection limits spec settings = .ok s ∧
        Accounted t.read limits spec settings (selection.find t).errors (selection.find t).files
          handled rest entries last s := by
  -- the account of no files goes on to one of all
  have hscan : ∀ read errors files, ∃ handled rest entries last,
      Accounted read limits spec settings errors files handled rest entries last
        (scanFiles read (·.check spec settings) limits (.start errors) files) := by
    intro read errors files
    obtain ⟨handled, rest, entries, last, rfl, haccount, hstops⟩ :=
      scanFiles_accounting hrules (.start read limits spec settings errors) files
    exact ⟨handled, rest, entries, last, haccount.accounted hstops⟩
  refine ⟨hscan, fun t selection hpaths hleads => ?_⟩
  obtain ⟨handled, rest, entries, last, haccounted⟩ :=
    hscan t.read (selection.find t).errors (selection.find t).files
  exact ⟨_, handled, rest, entries, last, run_eq hpaths hleads hrules, haccounted⟩

/-- Two files that are not there, of which only one may be looked at, and a run for an empty tree.
-/
theorem scan_accounts_missing :
    Spec.empty.checkRules [] = .ok () ∧
    (∃ handled rest entries last,
      Accounted (fun _ => .error .notFound) { files := 1 } .empty {} [] [.ofText "a", .ofText "b"]
        handled rest entries last
        (scanFiles (fun _ => .error .notFound) (·.check .empty {}) { files := 1 } (.start [])
          [.ofText "a", .ofText "b"])) ∧
    (∀ p ∈ [Path.ofText "/"], FileTree.leads ⟨[], []⟩ p = true) ∧
    ∃ s handled rest entries last,
      run ⟨[], []⟩ { paths := [.ofText "/"] } { files := 1 } .empty {} = .ok s ∧
        Accounted (FileTree.read ⟨[], []⟩) { files := 1 } .empty {}
          (Selection.find { paths := [.ofText "/"] } ⟨[], []⟩).errors
          (Selection.find { paths := [.ofText "/"] } ⟨[], []⟩).files handled rest entries last s := by
  have hleads : ∀ p ∈ [Path.ofText "/"], FileTree.leads ⟨[], []⟩ p = true := by
    intro p hp
    obtain rfl := List.mem_singleton.mp hp
    cbv
  obtain ⟨hscan, hrun⟩ := scan_accounts { files := 1 } .empty {} rfl
  exact ⟨rfl, hscan _ _ _, hleads,
    hrun ⟨[], []⟩ { paths := [.ofText "/"] } (List.cons_ne_nil _ _) hleads⟩

end ContentGrammar.Scan
