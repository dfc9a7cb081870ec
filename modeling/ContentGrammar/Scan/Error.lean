import ContentGrammar.Datum.Format
import ContentGrammar.Document.Arena
import ContentGrammar.Files.Glob
import ContentGrammar.Files.Tree

/-!
# Scan errors

What keeps a single file, or a part of a directory, from being validated. A scan goes on after such
an error, unless it is a limit. Each error has a kind, by which it is known in reports, and a
message.
-/

namespace ContentGrammar

namespace Scan

/-- What was tried with a file that cannot be used. -/
inductive Attempt
  | resolveRoot
  | resolve
  | openFile
  | readFile
  deriving DecidableEq

/-- The wording of an attempt. -/
def Attempt.message : Attempt → String
  | .resolveRoot => "Failed to canonicalize root path"
  | .resolve => "Failed to canonicalize path"
  | .openFile => "Failed to open file"
  | .readFile => "Failed to read file"

/-- Why something is not validated. -/
inductive Problem
  | file (attempt : Attempt) (error : FileError)
  | tooLarge (limit : Nat)
  | unreadable (format : Format) (error : ReadError)
  | tooManyNodes (error : TooManyNodes)
  /-- The content is not UTF-8. -/
  | notText
  /-- The file is outside of the directory that is scanned. -/
  | outside (resolved : Path)
  | tooManyFiles (limit : Nat)
  | tooManyBytes (limit : Nat)
  /-- A walk cannot begin or go on: a link leads to nothing, or a directory cannot be opened. -/
  | notWalked (error : FileError)
  /-- A link leads to a directory around it. -/
  | loop (ancestor : Path)
  | badExclude (error : Glob.ParseError)

/-- A problem and the path, or the pattern, which has it. -/
structure Error where
  file : Path
  problem : Problem

namespace Error

/-- The kind under which an error is reported. -/
def kind (e : Error) : String :=
  match e.problem with
  | .file .. => "IoError"
  | .tooLarge _ => "FileTooLarge"
  | .unreadable .json _ => "JsonParseError"
  | .unreadable .yaml _ => "YamlParseError"
  | .notText => "InvalidEncoding"
  | .outside _ => "OutsideRepository"
  | .tooManyNodes _ | .tooManyFiles _ | .tooManyBytes _ => "LimitExceeded"
  | .notWalked _ | .loop _ => "WalkError"
  | .badExclude _ => "InvalidExcludePattern"

/-- The wording of a limit at which a scan stops. -/
def limitMessage (what : String) (limit : Nat) : String :=
  "Scan aborted: " ++ what ++ " limit (" ++ toString limit
    ++ ") reached; remaining files not scanned"

/-- The wording of an error. -/
def message (e : Error) : String :=
  match e.problem with
  | .file attempt error => attempt.message ++ ": " ++ error.message
  | .tooLarge limit => "File exceeds maximum size of " ++ toString limit ++ " bytes"
  | .unreadable format error => format.refusal ++ ": " ++ error.message
  | .tooManyNodes error => error.message
  | .notText => "File is not valid UTF-8"
  | .outside resolved =>
    "Path resolves outside the scanned root: " ++ e.file.shown ++ " -> " ++ resolved.shown
  | .tooManyFiles limit => limitMessage "max_files" limit
  | .tooManyBytes limit => limitMessage "max_total_bytes" limit
  | .notWalked error =>
    "Directory traversal error: IO error for operation on " ++ e.file.shown ++ ": " ++ error.message
  | .loop ancestor =>
    "Directory traversal error: File system loop found: " ++ e.file.shown
      ++ " points to an ancestor " ++ ancestor.shown
  | .badExclude error =>
    "Invalid exclude glob pattern '" ++ e.file.shown ++ "': " ++ error.message

/-- An error as a line. -/
def line (e : Error) : String := e.file.shown ++ ": [scan error] " ++ e.message

end Error

end Scan

end ContentGrammar
