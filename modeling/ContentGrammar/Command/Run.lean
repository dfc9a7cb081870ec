import ContentGrammar.Command.Arguments
import ContentGrammar.Scan.Report
import ContentGrammar.Spec.Loading

/-!
# Carrying out a command

What a command line asks for is carried out on a file tree: the spec and the rules are loaded, the
documents found and validated, and the report is printed.
-/

namespace ContentGrammar

namespace Command

/-- What a command prints, and whether all is well. -/
structure Outcome where
  ok : Bool
  output : String

/-- A failure in loading something from a file. -/
def loading {α : Type} (what : String) (p : Path) : Except Failure α → Except Failure α
  | .ok a => .ok a
  | .error f => .error (f.within ("Failed to load " ++ what ++ " " ++ p.shown))

/-- Where the documents are looked for. -/
def Arguments.selection (a : Arguments) : Scan.Selection :=
  { paths := a.paths, exclude := a.exclude, followLinks := a.followLinks }

/-- How much is read at most. -/
def Arguments.limits (a : Arguments) : Scan.Limits :=
  match a.maxFileSize with
  | some size => { fileSize := size }
  | none => {}

/-- Carries out a command. -/
def run (t : FileTree) (a : Arguments) : Except Failure Outcome := do
  let spec ← loading "spec" a.spec (Spec.load t a.spec)
  let rules ← match a.rules with
    | some p => loading "rules" p (Rule.load t p)
    | none => .ok []
  let summary ← Scan.run t a.selection a.limits spec ⟨rules, a.parallel⟩
  match a.style with
  | .human => return ⟨summary.ok, summary.toText⟩
  | .json =>
    match summary.toDatum with
    | some d => return ⟨summary.ok, d.toJsonText⟩
    | none => throw ⟨[], .notText⟩

end Command

end ContentGrammar
