import ContentGrammar.Failure
import ContentGrammar.Spec.Reader

/-!
# Loading specs and rules

A spec comes from data, from a JSON text or from a file, rules come from a file. A file whose
extension is `yaml` or `yml` is read as YAML and any other one as JSON. What is wrong is told with
the names of the files and the numbers of the rules.
-/

namespace ContentGrammar

/-- The format in which a spec or rules in a file are written. -/
def Path.format (p : Path) : Format :=
  if p.extension? == some (utf8 "yaml") || p.extension? == some (utf8 "yml") then .yaml else .json

/-- Reads a file. `read` takes what it asks for from the data in it, and is told whether the data
may be written positionally, as it may in JSON. -/
def FileTree.readData {α : Type} (t : FileTree) (p : Path) (read : Bool → Datum → Datum.Read α) :
    Except Failure α := do
  let source ← Failure.ofFile ["Failed to read " ++ p.shown] (t.readText p)
  Failure.ofRead [p.shown ++ ": " ++ p.format.refusal] p.format
    (p.format.read source >>= read (p.format == .json))

namespace Spec

/-- The spec that a datum writes. -/
def ofDatum (d : Datum) : Except Failure Spec := do
  let written ← Failure.ofRead ["Invalid spec repository"] .json (WrittenSpec.ofDatum true d)
  Failure.ofModel [] written.spec

/-- The spec that a JSON text writes. -/
def ofJson (source : String) : Except Failure Spec := do
  let written ← Failure.ofRead ["Invalid spec repository JSON"] .json
    (Format.json.read source >>= WrittenSpec.ofDatum true)
  Failure.ofModel [] written.spec

/-- The spec in a file. -/
def load (t : FileTree) (p : Path) : Except Failure Spec := do
  let written ← t.readData p WrittenSpec.ofDatum
  Failure.ofModel ["Invalid spec repository " ++ p.shown] written.spec

end Spec

/-- The rules in a file. -/
def Rule.load (t : FileTree) (p : Path) : Except Failure (List Rule) := do
  let written ← t.readData p WrittenRule.listOfDatum
  written.zipIdx.mapM fun (rule, i) =>
    Failure.ofModel ["Invalid rule #" ++ toString i ++ " in " ++ p.shown] rule.rule

end ContentGrammar
