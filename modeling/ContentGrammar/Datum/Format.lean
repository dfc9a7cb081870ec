import ContentGrammar.Datum.Json.Reader
import ContentGrammar.Datum.Yaml.Reader

/-!
# Formats of data

Data is written in JSON or in YAML. `Format.read` reads a text in either; what is nested too deep in
JSON is refused.
-/

namespace ContentGrammar

/-- How data is written. -/
inductive Format
  | json
  | yaml
  deriving DecidableEq

namespace Format

/-- The name of a format. -/
def name : Format → String
  | .json => "JSON"
  | .yaml => "YAML"

/-- What is said of a text that is not read. -/
def refusal (f : Format) : String := f.name ++ " parse error"

/-- The datum that a text in some format denotes. -/
def read : Format → String → Except ReadError Datum
  | .json => Json.read (some Json.depthLimit)
  | .yaml => Yaml.read

end Format

end ContentGrammar
