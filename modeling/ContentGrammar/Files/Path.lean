import ContentGrammar.Text.Bytes

/-!
# Paths

A path is a row of bytes, in which names are separated by `/`. What it is compared by are its steps:
repeated separators and the name `.` do not count, except at the start of a relative path. `Path.le`
is the order in which files are listed, step by step, so `b/x` comes before `b-c`.
-/

namespace ContentGrammar

/-- A path as it is written. -/
structure Path where
  bytes : Bytes
  deriving DecidableEq

namespace Path

/-- The path that a text is. -/
def ofText (s : String) : Path := ⟨utf8 s⟩

/-- The text that is shown for a path. -/
def shown (p : Path) : String := p.bytes.shown

/-- The byte between the names in a path. -/
def separator : UInt8 := 47

/-- The byte before the ending of a name. -/
def point : UInt8 := 46

/-- The name by which a directory names itself. -/
def here : Bytes := [point]

/-- The name by which a directory names the one around it. -/
def up : Bytes := [point, point]

/-- A step of a path. -/
inductive Step
  | root
  | here
  | up
  | name (n : Bytes)
  deriving DecidableEq

/-- The place of the kinds of step in their order. -/
def Step.rank : Step → Nat
  | .root => 0
  | .here => 1
  | .up => 2
  | .name _ => 3

/-- Whether a step comes strictly before another one: names by their bytes, after all else. -/
def Step.before : Step → Step → Bool
  | .name a, .name b => a < b
  | a, b => a.rank < b.rank

/-- Whether a path begins at the root. -/
def isAbsolute (p : Path) : Bool := p.bytes.head? == some separator

/-- What is between the separators of a path. -/
def pieces (p : Path) : List Bytes := p.bytes.splitOn separator

/-- The step of a piece, unless it makes one at the start only. -/
def stepOf? (piece : Bytes) : Option Step :=
  if piece == [] || piece == here then none
  else if piece == up then some .up
  else some (.name piece)

/-- The step that is made at the start only. An empty piece at the start makes one if another piece
follows. -/
def startOf? (pieces : List Bytes) : Option Step :=
  match pieces with
  | [] => none
  | first :: rest =>
    if first == here then some .here
    else if first == [] && !rest.isEmpty then some .root
    else none

/-- The steps of a path. -/
def steps (p : Path) : List Step := (startOf? p.pieces).toList ++ p.pieces.filterMap stepOf?

/-- Whether one row of steps comes before another one or is the same. -/
def stepsLe : List Step → List Step → Bool
  | [], _ => true
  | _ :: _, [] => false
  | a :: as, b :: bs => a.before b || (a == b && stepsLe as bs)

/-- Whether a path comes before another one or has the same steps. -/
def le (p q : Path) : Bool := stepsLe p.steps q.steps

/-- Whether two paths have the same steps. -/
def same (p q : Path) : Bool := p.steps == q.steps

/-- The name at the end of a path, if it ends with one. -/
def fileName? (p : Path) : Option Bytes :=
  match p.steps.getLast? with
  | some (.name n) => some n
  | _ => none

/-- What follows the last point of a file name, unless the point is its first byte. -/
def extension? (p : Path) : Option Bytes := do
  let name ← p.fileName?
  let pieces := name.splitOn point
  if pieces.length ≤ 1 || pieces.dropLast == [[]] then none else pieces.getLast?

/-- The path of something in a directory. -/
def join (p : Path) (name : Bytes) : Path :=
  if p.bytes == [] || p.bytes.getLast? == some separator then ⟨p.bytes ++ name⟩
  else ⟨p.bytes ++ separator :: name⟩

/-- A list of paths in order, each once, of several with the same steps the first. -/
def inOrder (ps : List Path) : List Path :=
  (ps.mergeSort le).foldr (fun p rest => p :: rest.dropWhile p.same) []

end Path

end ContentGrammar
