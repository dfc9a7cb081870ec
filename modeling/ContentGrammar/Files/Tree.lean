import ContentGrammar.Files.Path

/-!
# File trees

A file tree says what is under each place, a place being the names on the way from the root. There
are files, directories and symbolic links. `FileTree.find` follows a path from the current
directory to a place, going through at most `linkLimit` links, and says why if it leads nowhere.
`FileTree.canonicalize` follows it too, but has each place on the way written out from the root, and
these paths must not be too long. `FileTree.put` goes the same way to put something into a tree, and
adds the directories that are missing on it.
-/

namespace ContentGrammar

/-- The names on the way from the root of a file tree. -/
abbrev Location := List Bytes

/-- What is under a place of a file tree. -/
inductive Entry
  | file (content : ByteArray)
  | link (target : Path)
  | directory

/-- Whether an entry is a file. -/
def Entry.isFile : Entry → Bool
  | .file _ => true
  | _ => false

/-- Whether an entry is a directory. -/
def Entry.isDirectory : Entry → Bool
  | .directory => true
  | _ => false

/-- Why a path cannot be used. -/
inductive FileError
  | notFound
  | notDirectory
  | isDirectory
  | tooManyLinks
  /-- The path or one of its names is too long. -/
  | tooLong
  /-- The path has a NUL byte in it. -/
  | notPath
  /-- The content of the file is not UTF-8. -/
  | notText
  deriving DecidableEq

/-- The wording of an error. -/
def FileError.message : FileError → String
  | .notFound => "No such file or directory (os error 2)"
  | .notDirectory => "Not a directory (os error 20)"
  | .isDirectory => "Is a directory (os error 21)"
  | .tooManyLinks => "Too many levels of symbolic links (os error 40)"
  | .tooLong => "File name too long (os error 36)"
  | .notPath => "file name contained an unexpected NUL byte"
  | .notText => "stream did not contain valid UTF-8"

/-- What is under each place, the latest entry of a place first, and the current directory. The
root is a directory. -/
structure FileTree where
  entries : List (Location × Entry)
  current : Location

namespace FileTree

/-- What is under a place. -/
def get? (t : FileTree) (l : Location) : Option Entry :=
  if l.isEmpty then some .directory else (t.entries.find? (·.1 == l)).map (·.2)

/-- The names directly under a place, in order. -/
def names (t : FileTree) (l : Location) : List Bytes :=
  let found := t.entries.filterMap fun e => if e.1.dropLast == l then e.1.getLast? else none
  (found.mergeSort fun a b => a ≤ b).eraseDups

/-- How many links a path may lead through. -/
def linkLimit : Nat := 40

/-- How many bytes a name may have. -/
def nameLimit : Nat := 255

/-- How many bytes a path may have. -/
def pathLimit : Nat := 4095

/-- A place as an absolute path. -/
def absolute (l : Location) : Path := ⟨Path.separator :: [Path.separator].intercalate l⟩

/-- Every place is allowed. -/
def anywhere (_ : Location) : Bool := true

/-- A place is allowed if its path from the root is not too long. -/
def withinLimit (l : Location) : Bool := (absolute l).bytes.length ≤ pathLimit

/-- The place at which the way of a path begins, `l` being the one that it is relative to. -/
def origin (p : Path) (l : Location) : Location := if p.isAbsolute then [] else l

/-- Where the pieces of a path lead from a place on, if each place on the way is `allowed`. A link at
the end is followed only if `follow`. Empty pieces and `.` stay where they are, but only in a
directory. -/
def walkFrom (t : FileTree) (allowed : Location → Bool) (follow : Bool) (links : Nat) (l : Location)
    (pieces : List Bytes) : Except FileError Location :=
  match pieces with
  | [] => .ok l
  | piece :: rest =>
    match t.get? l with
    | some .directory =>
      if piece == [] || piece == Path.here then walkFrom t allowed follow links l rest
      else if piece == Path.up then walkFrom t allowed follow links l.dropLast rest
      else if nameLimit < piece.length || !allowed (l ++ [piece]) then .error .tooLong
      else
        match t.get? (l ++ [piece]) with
        | none => .error .notFound
        | some (.link target) =>
          if !follow && rest.isEmpty then .ok (l ++ [piece])
          else
            match links with
            | 0 => .error .tooManyLinks
            | links + 1 =>
              walkFrom t allowed follow links (origin target l) (target.pieces ++ rest)
        | some _ => walkFrom t allowed follow links (l ++ [piece]) rest
    | _ => .error .notDirectory
termination_by (links, pieces.length)

/-- Why bytes are no path. -/
def refusal? (p : Path) : Option FileError :=
  if p.bytes.contains 0 then some .notPath
  else if p.bytes.isEmpty then some .notFound
  else none

/-- Where a path leads. -/
def find (t : FileTree) (follow : Bool) (p : Path) : Except FileError Location :=
  match refusal? p with
  | some e => .error e
  | none =>
    if pathLimit < p.bytes.length then .error .tooLong
    else t.walkFrom anywhere follow linkLimit (origin p t.current) p.pieces

/-- Where a path leads, links followed, as the place that it has from the root. The path itself may be
as long as it is: it is resolved name by name, and what is asked about are the places on the way. -/
def canonicalize (t : FileTree) (p : Path) : Except FileError Location :=
  match refusal? p with
  | some e => .error e
  | none => t.walkFrom withinLimit true linkLimit (origin p t.current) p.pieces

/-- What a path leads to, links followed. -/
def entry? (t : FileTree) (p : Path) : Option Entry := do t.get? (← (t.find true p).toOption)

/-- Whether a path leads to something. -/
def leads (t : FileTree) (p : Path) : Bool := (t.entry? p).isSome

/-- The content of the file to which a path leads. -/
def read (t : FileTree) (p : Path) : Except FileError ByteArray := do
  match t.get? (← t.find true p) with
  | some (.file content) => return content
  | some .directory => throw .isDirectory
  | _ => throw .notFound

/-- The text in the file to which a path leads. -/
def readText (t : FileTree) (p : Path) : Except FileError String := do
  match String.fromUTF8? (← t.read p) with
  | some s => return s
  | none => throw .notText

/-! ### Building a tree -/

/-- The tree with a directory at a place, unless something is there. -/
def addDirectory (t : FileTree) (l : Location) : FileTree :=
  if (t.get? l).isSome then t else { t with entries := (l, .directory) :: t.entries }

/-- Where the pieces of a path lead from a place on, and the tree in which the directories on the
way are there. A link at the end is followed only if `follow`. -/
def clear (t : FileTree) (follow : Bool) (links : Nat) (l : Location) (pieces : List Bytes) :
    FileTree × Location :=
  match pieces with
  | [] => (t, l)
  | piece :: rest =>
    if piece == [] || piece == Path.here then clear t follow links l rest
    else if piece == Path.up then clear t follow links l.dropLast rest
    else
      let next := l ++ [piece]
      match t.get? next, follow || !rest.isEmpty with
      | some (.link target), true =>
        match links with
        | 0 => (t, next)
        | links + 1 => clear t follow links (origin target l) (target.pieces ++ rest)
      | _, _ => clear (if rest.isEmpty then t else t.addDirectory next) follow links next rest
termination_by (links, pieces.length)

/-- The tree with an entry under a path. A link is put at the path itself, all else at the place to
which the path leads. -/
def put (t : FileTree) (p : Path) (e : Entry) : FileTree :=
  let follow := match e with
    | .link _ => false
    | _ => true
  let (t, l) := t.clear follow linkLimit (origin p t.current) p.pieces
  { t with entries := (l, e) :: t.entries }

/-- The tree with a directory under a path. -/
def putDirectory (t : FileTree) (p : Path) : FileTree :=
  let (t, l) := t.clear true linkLimit (origin p t.current) p.pieces
  t.addDirectory l

/-- The tree of an empty current directory. -/
def empty (current : Location) : FileTree := putDirectory ⟨[], current⟩ (absolute current)

end FileTree

end ContentGrammar
