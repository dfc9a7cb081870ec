import ContentGrammar.Scan.Run

/-!
# The report on a scan

How the outcome of a scan is shown: `Summary.toDatum` as data, which only has texts for paths, and
`Summary.toText` as a text with the counts, the errors and the findings in sections between rules.
-/

namespace ContentGrammar

namespace Scan

/-- An error as data, if its path is a text. -/
def Error.toDatum (e : Error) : Option Datum := do
  let file ← e.file.bytes.text?
  return .ofFields [("file", .text file), ("kind", .text e.kind), ("message", .text e.message)]

/-- The report on a file as data, if the path of the file is a text. -/
def FileReport.toDatum (r : FileReport) : Option Datum := do
  let file ← r.file.bytes.text?
  return .ofFields (("file", .text file) :: r.report.fields)

/-- The findings in a file, a line each. -/
def FileReport.lines (r : FileReport) : List String :=
  r.report.lines.map fun l => r.file.shown ++ ":" ++ l

namespace Summary

/-- The outcome as data, if all paths in it are texts. -/
def toDatum (s : Summary) : Option Datum := do
  let files ← s.reports.toList.mapM FileReport.toDatum
  let errors ← s.errors.toList.mapM Error.toDatum
  return .ofFields
    [("scanned_files", .nat s.scanned), ("failed_files", .nat s.failed), ("ok", .bool s.ok),
      ("files", .list files), ("scan_errors", .list errors)]

/-- A line made of one character. -/
def rule (c : Char) : String := String.ofList (List.replicate 80 c)

/-- A line as the title between two rules. -/
def titled (c : Char) (title : String) : List String := [rule c, "  " ++ title, rule c]

/-- A section with a title and an empty line at its end, or nothing if it has no lines. -/
def titledSection (title : String) (lines : List String) : List String :=
  if lines.isEmpty then [] else titled '-' title ++ lines ++ [""]

/-- The lines that say whether all is well. -/
def verdict (s : Summary) : List String :=
  if s.ok then ["✓ All " ++ toString s.scanned ++ " files passed validation"]
  else
    (if s.errors.isEmpty then []
     else ["✗ " ++ toString s.failed
      ++ " file(s) could not be scanned; CI must treat this as a failure"])
    ++ (if s.violations = 0 then []
        else ["✗ " ++ toString s.violations ++ " invalid content finding(s)"])

/-- The outcome for a reader. -/
def toText (s : Summary) : String :=
  unlines <|
    [""] ++ titled '=' "PERMITTED CONTENTS VALIDATOR" ++
    ["", "  Files scanned:  " ++ toString s.scanned, "  Files failed:   " ++ toString s.failed,
      "  Violations:     " ++ toString s.violations, "  Warnings:       " ++ toString s.warnings,
      ""] ++
    titledSection "SCAN ERRORS (files that could not be validated)"
      (s.errors.toList.map Error.line) ++
    titledSection "INVALID CONTENT" (s.reports.toList.flatMap FileReport.lines) ++
    [rule '='] ++ s.verdict ++ [rule '=']

end Summary

end Scan

end ContentGrammar
