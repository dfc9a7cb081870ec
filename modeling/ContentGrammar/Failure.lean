import ContentGrammar.Datum.Format
import ContentGrammar.Files.Tree
import ContentGrammar.Model.Error

/-!
# Failures

What keeps a whole run from giving a report: a `Failure` is a cause together with what was being
done when it arose, outermost first. `Failure.message` words it.
-/

namespace ContentGrammar

/-- What is at the bottom of a failure. -/
inductive Cause
  | model (error : ModelError)
  | data (format : Format) (error : ReadError)
  | file (error : FileError)
  /-- There is nothing to scan. -/
  | noPaths
  | missingPath (p : Path)
  /-- A path that is to be written as data is not UTF-8. -/
  | notText

/-- The wording of a cause. -/
def Cause.message : Cause → String
  | .model error => error.message
  | .data _ error => error.message
  | .file error => error.message
  | .noPaths => "No paths provided for validation"
  | .missingPath p => "Path does not exist: " ++ p.shown
  | .notText => "path contains invalid UTF-8 characters"

/-- A cause and what was being done, outermost first. -/
structure Failure where
  contexts : List String
  cause : Cause

namespace Failure

/-- The wording of a failure. -/
def message (f : Failure) : String :=
  String.intercalate ": " (f.contexts ++ [f.cause.message])

/-- The failure seen from outside, where `context` was being done. -/
def within (context : String) (f : Failure) : Failure :=
  { f with contexts := context :: f.contexts }

/-- The result of a part of a run, a model error being a failure. -/
def ofModel {α : Type} (contexts : List String) : Except ModelError α → Except Failure α
  | .ok a => .ok a
  | .error e => .error ⟨contexts, .model e⟩

/-- The result of reading, an error being a failure. -/
def ofRead {α : Type} (contexts : List String) (f : Format) : Except ReadError α → Except Failure α
  | .ok a => .ok a
  | .error e => .error ⟨contexts, .data f e⟩

/-- The result of a use of files, an error being a failure. -/
def ofFile {α : Type} (contexts : List String) : Except FileError α → Except Failure α
  | .ok a => .ok a
  | .error e => .error ⟨contexts, .file e⟩

end Failure

end ContentGrammar
