import ContentGrammar.Model.Error
import ContentGrammar.Document.Basic
import ContentGrammar.Datum.Json.Printer

/-!
# Findings

What is found about an element: that its children do not have the form a model asks for, that a
child is or contains what the model excludes, or that the model cannot be used there, which is a
warning and no fault of the document. A report lists the findings about a document in the order of
its elements. `Report.toDatum` gives a report as data, `Report.toText` as lines for a reader.
-/

namespace ContentGrammar

/-- The model that a finding is about. -/
inductive Source
  | spec
  | rule (index : Nat)
  deriving DecidableEq

/-- What is wrong with the children of an element. -/
inductive Fault
  /-- They do not have the form that is asked for. -/
  | form
  /-- A child is, or contains, a culprit that an exclusion forbids. -/
  | forbidden (child : Nat) (childName culpritName exclusion : String)
  deriving DecidableEq

/-- A fault of an element with respect to a model. -/
structure Violation where
  element : Nat
  tag : String
  position : Option Position
  source : Source
  fault : Fault
  deriving DecidableEq

/-- A model that cannot be used on an element. -/
structure Warning where
  element : Nat
  tag : String
  position : Option Position
  error : ModelError
  deriving DecidableEq

/-- What is found in a document. -/
structure Report where
  /-- The number of elements. -/
  elements : Nat
  violations : List Violation
  warnings : List Warning

/-- Whether nothing is wrong. -/
def Report.ok (r : Report) : Bool := r.violations.isEmpty

namespace Violation

/-- The key under which hosts may keep a wording of their own. -/
def key (v : Violation) : String :=
  match v.fault, v.source with
  | .form, .spec => "invalid-content-spec"
  | .form, .rule _ => "invalid-content-rule"
  | .forbidden .., _ => "forbidden-descendant"

/-- The wording of a violation. -/
def message (v : Violation) : String :=
  let origin := match v.source with
    | .spec => "on the HTML spec"
    | .rule _ => "on rule settings"
  let detail := match v.fault with
    | .form => ""
    | .forbidden _ childName culpritName _ =>
      ": \"" ++ culpritName ++ "\" is not allowed in \"" ++ childName ++ "\""
  "Invalid content in \"" ++ v.tag ++ "\" element " ++ origin ++ detail

end Violation

/-- The wording of a warning. -/
def Warning.message (w : Warning) : String :=
  "Cannot check \"" ++ w.tag ++ "\" element: " ++ w.error.message

/-! ### As data -/

/-- A position as a field, if there is one. -/
def Position.field : Option Position → List (String × Datum)
  | none => []
  | some p => [("position", .ofFields [("line", .nat p.line), ("col", .nat p.column)])]

/-- A source as data. -/
def Source.toDatum : Source → Datum
  | .spec => .ofFields [("kind", .text "spec")]
  | .rule index => .ofFields [("kind", .text "user-rule"), ("index", .nat index)]

/-- A violation as data. -/
def Violation.toDatum (v : Violation) : Datum :=
  let (reason, detail) := match v.fault with
    | .form => ("shape-mismatch", [])
    | .forbidden child childName _ exclusion =>
      ("forbidden-descendant",
        [("offending", Datum.nat child), ("offending_tag", .text childName),
          ("constraint", .text exclusion)])
  .ofFields <|
    [("element", .nat v.element), ("tag", .text v.tag), ("reason", .text reason),
      ("source", v.source.toDatum), ("message_key", .text v.key), ("message", .text v.message)]
    ++ detail ++ Position.field v.position

/-- A warning as data. -/
def Warning.toDatum (w : Warning) : Datum :=
  .ofFields <|
    [("element", .nat w.element), ("tag", .text w.tag), ("message", .text w.message)]
    ++ Position.field w.position

/-- The fields of a report. -/
def Report.fields (r : Report) : List (String × Datum) :=
  [("elements_checked", .nat r.elements), ("ok", .bool r.ok),
    ("violations", .list (r.violations.map Violation.toDatum)),
    ("warnings", .list (r.warnings.map Warning.toDatum))]

/-- A report as data. -/
def Report.toDatum (r : Report) : Datum := .ofFields r.fields

/-- Data as an indented JSON text with a final line break. -/
def Datum.toJsonText (d : Datum) : String := Json.pretty d ++ "\n"

/-! ### As lines -/

/-- Where an element is, by its position or else by its tag and number. -/
def location (element : Nat) (tag : String) : Option Position → String
  | some p => toString p.line ++ ":" ++ toString p.column
  | none => "<" ++ tag ++ "> #" ++ toString element

/-- A violation as a line. -/
def Violation.line (v : Violation) : String :=
  location v.element v.tag v.position ++ ": " ++ v.message

/-- A warning as a line. -/
def Warning.line (w : Warning) : String :=
  location w.element w.tag w.position ++ ": [warning] " ++ w.message

/-- The findings of a report, a line each. -/
def Report.lines (r : Report) : List String :=
  r.violations.map Violation.line ++ r.warnings.map Warning.line

/-- Lines as a text in which each line is ended. -/
def unlines (ls : List String) : String := String.join (ls.map fun l => l ++ "\n")

/-- A report for a reader. -/
def Report.toText (r : Report) : String :=
  unlines <| r.lines ++
    [if r.ok then "✓ " ++ toString r.elements ++ " elements checked, no invalid content"
     else "✗ " ++ toString r.violations.length ++ " invalid content finding(s) in "
      ++ toString r.elements ++ " elements"]

end ContentGrammar
