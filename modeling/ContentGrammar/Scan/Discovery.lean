import ContentGrammar.Results
import ContentGrammar.Scan.Error
import ContentGrammar.Text.Ascii

/-!
# Discovery of documents

Documents are looked for under given paths. A path of a file is taken as it is; under a path of a
directory all files are taken whose name is a text that ends like that of a document. Neither is taken
if an exclude pattern accepts the whole path or the file name, as they are shown. Directories of
certain names are skipped, links to directories are followed only on demand, and a file has to stay
inside of the directory that is scanned. `Selection.find` lists the files in order and each once,
together with what went wrong.
-/

namespace ContentGrammar

namespace Scan

/-- How the names of documents end, and in which format these are. -/
def documentEndings : List (String × Format) :=
  [(".dom.json", .json), (".dom.yaml", .yaml), (".dom.yml", .yaml)]

/-- The format of a document by the end of its name, whatever the case of its letters. There has to
be something before that end, and the name has to be a text. -/
def documentFormat? (p : Path) : Option Format := do
  let name := Ascii.lower (← (← p.fileName?).text?)
  let found ← documentEndings.find? fun e =>
    e.1.utf8ByteSize < name.utf8ByteSize && name.endsWith e.1
  return found.2

/-- The names of directories that are not gone into. -/
def skippedNames : List Bytes := ["target", "node_modules", ".git"].map utf8

/-- Whether a directory is not gone into. -/
def isSkipped (p : Path) : Bool := skippedNames.contains (p.fileName?.getD p.bytes)

/-- Whether a pattern accepts a path or the file name at its end. -/
def isExcluded (exclude : List Glob) (p : Path) : Bool :=
  exclude.any fun g => g.accepts p.shown || p.fileName?.any fun name => g.accepts name.shown

/-- What is met on a walk: a path, or an error. -/
abbrev Visit := Except Error Path

/-- A directory that the walk is in. -/
structure Ancestor where
  location : Location
  path : Path

/-- Walks over a path, at which there is what `entry` says, and all that is at most `depth`
directories below it, entering a directory before what is in it. What there is in a directory is told
by the directory itself, so only directories and links that are followed have to be reached by their
path. Links are followed if `follow`, but not back into one of the directories `above`; a link at the
start of a walk is followed in any case. -/
def walk (t : FileTree) (follow : Bool) (depth : Nat) (above : List Ancestor) (isStart : Bool)
    (p : Path) (entry : Option Entry) : List Visit :=
  let below : List Visit :=
    match depth with
    | 0 => []
    | depth + 1 =>
      match t.find true p with
      | .error e => [.error ⟨p, .notWalked e⟩]
      | .ok l => (t.names l).flatMap fun name =>
        walk t follow depth (⟨l, p⟩ :: above) false (p.join name) (t.get? (l ++ [name]))
  let enter : List Visit := if isSkipped p then [] else .ok p :: below
  match entry with
  | some .directory => enter
  | some (.link _) =>
    if follow || isStart then
      match t.find true p with
      | .error e => [.error ⟨p, .notWalked e⟩]
      | .ok l =>
        if (t.get? l).any Entry.isDirectory then
          if !follow then .ok p :: below
          else match above.find? (·.location == l) with
            | some ancestor => [.error ⟨p, .loop ancestor.path⟩]
            | none => enter
        else [.ok p]
    else [.ok p]
  | _ => [.ok p]
termination_by structural depth

/-- Walks over a path and all that is at most `depth` directories below it. -/
def walkAll (t : FileTree) (follow : Bool) (depth : Nat) (p : Path) : List Visit :=
  match t.find false p with
  | .error e => [.error ⟨p, .notWalked e⟩]
  | .ok l => walk t follow depth [] true p (t.get? l)

/-- Where documents are looked for. -/
structure Selection where
  paths : List Path
  exclude : List String := []
  followLinks : Bool := false
  /-- How many directories deep a document may be. -/
  maxDepth : Nat := 64

/-- The files found, and what went wrong. -/
structure Found where
  files : List Path
  errors : List Error

namespace Selection

/-- The exclude patterns, or what is wrong with them. -/
def patterns (s : Selection) : List (Except Error Glob) :=
  s.exclude.map fun source =>
    match Glob.parse source with
    | .ok g => .ok g
    | .error e => .error ⟨.ofText source, .badExclude e⟩

/-- What comes of a path met under a directory at `root`: nothing unless it is a document. -/
def judge (t : FileTree) (exclude : List Glob) (root : Location) (p : Path) : Option Visit :=
  if !(t.entry? p).any Entry.isFile || (documentFormat? p).isNone || isExcluded exclude p then none
  else match t.canonicalize p with
    | .error e => some (.error ⟨p, .file .resolve e⟩)
    | .ok l =>
      if root.isPrefixOf l then some (.ok p)
      else some (.error ⟨p, .outside (FileTree.absolute l)⟩)

/-- What is made of all that is met below a directory at `root`. -/
def sift (t : FileTree) (exclude : List Glob) (root : Location) (visits : List Visit) : List Visit :=
  visits.filterMap fun v => match v with
    | .error e => some (.error e)
    | .ok p => judge t exclude root p

/-- What comes of one of the given paths. -/
def visitsFrom (s : Selection) (t : FileTree) (exclude : List Glob) (p : Path) : List Visit :=
  match t.canonicalize p with
  | .error e => [.error ⟨p, .file .resolveRoot e⟩]
  | .ok l =>
    if (t.entry? p).any Entry.isFile then
      if isExcluded exclude p then [] else [.ok p]
    else sift t exclude l (walkAll t s.followLinks s.maxDepth p)

/-- The documents that are found, and what went wrong. -/
def find (s : Selection) (t : FileTree) : Found :=
  let visits := s.paths.flatMap (s.visitsFrom t (valuesIn s.patterns))
  ⟨Path.inOrder (valuesIn visits), errorsIn s.patterns ++ errorsIn visits⟩

end Selection

end Scan

end ContentGrammar
