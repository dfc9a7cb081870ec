import ContentGrammar.Document.Reader
import ContentGrammar.Failure
import ContentGrammar.Scan.Discovery
import ContentGrammar.Validation

/-!
# Scanning files

The files that were found are validated one after the other. A file that cannot be read, is too
large, is no text or no document is an error of its own, and the scan goes on with the next file.
The scan stops at the first file past a limit on the number of files or of bytes, with an error for
that file. `Scan.run` finds and validates.
-/

namespace ContentGrammar

namespace Scan

/-- How much is read at most. -/
structure Limits where
  /-- Bytes in a file. -/
  fileSize : Nat := 10485760
  /-- Files, validated or not. -/
  files : Nat := 100000
  /-- Bytes in all files together. -/
  totalBytes : Nat := 536870912

/-- The report on a file. -/
structure FileReport where
  file : Path
  report : Report

/-- The outcome of a scan so far, or of a whole one. -/
structure Summary where
  reports : Array FileReport
  errors : Array Error
  /-- How many files were not validated. -/
  failed : Nat
  /-- How many bytes of text were taken from files. -/
  bytes : Nat

namespace Summary

/-- The outcome before the first file, given what went wrong until then. -/
def start (errors : List Error) : Summary := ⟨#[], errors.toArray, errors.length, 0⟩

/-- The outcome with one more error. -/
def fail (s : Summary) (file : Path) (problem : Problem) : Summary :=
  { s with errors := s.errors.push ⟨file, problem⟩, failed := s.failed + 1 }

/-- The outcome with more text taken. -/
def take (s : Summary) (size : Nat) : Summary := { s with bytes := s.bytes + size }

/-- The outcome with one more file validated. -/
def succeed (s : Summary) (r : FileReport) : Summary := { s with reports := s.reports.push r }

/-- How many files were validated. -/
def scanned (s : Summary) : Nat := s.reports.size

/-- How many files were validated or failed. -/
def attempted (s : Summary) : Nat := s.scanned + s.failed

/-- Whether every file was validated and nothing is wrong in any. -/
def ok (s : Summary) : Bool := s.errors.isEmpty && s.reports.all (·.report.ok)

/-- The number of violations in all files. -/
def violations (s : Summary) : Nat :=
  s.reports.foldl (fun n r => n + r.report.violations.length) 0

/-- The number of warnings in all files. -/
def warnings (s : Summary) : Nat :=
  s.reports.foldl (fun n r => n + r.report.warnings.length) 0

end Summary

/-- The text of a file with the given content. -/
def textOf (limits : Limits) : Except FileError ByteArray → Except Problem String
  | .error .isDirectory => .error (.file .readFile .isDirectory)
  | .error e => .error (.file .openFile e)
  | .ok content =>
    if limits.fileSize < content.size then .error (.tooLarge limits.fileSize)
    else match String.fromUTF8? content with
      | some text => .ok text
      | none => .error .notText

/-- The format in which a file is read. -/
def formatOf (p : Path) : Format := (documentFormat? p).getD .json

/-- The document in a text. It must not have more nodes than there are numbers for. -/
def documentOf (p : Path) (text : String) : Except Problem Document :=
  match Markup.read (formatOf p) text with
  | .error e => .error (.unreadable (formatOf p) e)
  | .ok forest =>
    match Arena.ofMarkup forest with
    | .error e => .error (.tooManyNodes e)
    | .ok _ => .ok (.ofMarkup forest)

/-- Validates files, going on from `s`, until there are no more or a limit is reached. `read` gives
the content of a file and `check` the report on a document. -/
def scanFiles (read : Path → Except FileError ByteArray) (check : Document → Report)
    (limits : Limits) (s : Summary) : List Path → Summary
  | [] => s
  | p :: ps =>
    if limits.files ≤ s.attempted then s.fail p (.tooManyFiles limits.files)
    else match textOf limits (read p) with
      | .error problem => scanFiles read check limits (s.fail p problem) ps
      | .ok text =>
        let size := text.utf8ByteSize
        if limits.totalBytes < s.bytes + size then s.fail p (.tooManyBytes limits.totalBytes)
        else match documentOf p text with
          | .error problem => scanFiles read check limits ((s.take size).fail p problem) ps
          | .ok d => scanFiles read check limits ((s.take size).succeed ⟨p, check d⟩) ps

/-- Finds and validates documents. Fails if there are no paths, if one leads to nothing or if a rule
names an unknown category. -/
def run (t : FileTree) (selection : Selection) (limits : Limits) (spec : Spec)
    (settings : Settings) : Except Failure Summary := do
  if selection.paths.isEmpty then throw ⟨[], .noPaths⟩
  if let some p := selection.paths.find? fun p => !t.leads p then throw ⟨[], .missingPath p⟩
  Failure.ofModel [] (spec.checkRules settings.rules)
  let found := selection.find t
  return scanFiles t.read (·.check spec settings) limits (.start found.errors) found.files

end Scan

end ContentGrammar
