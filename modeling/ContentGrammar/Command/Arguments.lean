import ContentGrammar.Datum.Basic
import ContentGrammar.Files.Path

/-!
# Command line arguments

A command line is read argument by argument. An option may have its value attached, as in
`--spec=FILE`, or in the next argument, which must not look like an option. What an option or a row
of paths amounts to is settled only when the next option or path comes, or at the end; so an
argument that is unknown is reported before a bad value in front of it. `Arguments.parse` gives the
arguments or the first error.
-/

namespace ContentGrammar

namespace Command

/-- How the report is printed. -/
inductive Style
  | human
  | json
  deriving DecidableEq

/-- The options that take a value. -/
inductive Valued
  | spec
  | rules
  | exclude
  | format
  | maxFileSize
  deriving DecidableEq

/-- The options that take no value. -/
inductive Flag
  | parallel
  | followLinks
  | verbose
  | help
  | version
  deriving DecidableEq

/-- Why a command line is not carried out. -/
inductive UsageError
  | unknown (argument : String)
  /-- An option is given more than once. -/
  | repeated (option : String)
  /-- An option has no value, or one that it does not know, or a path is empty. -/
  | badValue (option : String)
  | badNumber (option : String)
  /-- A value is attached to an option that takes none. -/
  | attached (option : String)
  /-- No spec is given, or no path. -/
  | missing
  /-- The usage is asked for. -/
  | help
  /-- The version is asked for. -/
  | version

/-- What a command line asks for. -/
structure Arguments where
  spec : Path
  rules : Option Path
  exclude : List String
  style : Style
  maxFileSize : Option Nat
  parallel : Bool
  followLinks : Bool
  verbose : Nat
  paths : List Path

/-- The name of an option. -/
def Valued.name : Valued → String
  | .spec => "--spec"
  | .rules => "--rules"
  | .exclude => "--exclude"
  | .format => "--format"
  | .maxFileSize => "--max-file-size"

/-- The name of an option. -/
def Flag.name : Flag → String
  | .parallel => "--parallel"
  | .followLinks => "--follow-links"
  | .verbose => "--verbose"
  | .help => "--help"
  | .version => "--version"

/-- The letter that stands for an option. -/
def Flag.ofLetter? : Char → Option Flag
  | 'v' => some .verbose
  | 'h' => some .help
  | 'V' => some .version
  | _ => none

/-- The option of a name. -/
def Valued.ofName? (name : String) : Option Valued :=
  [.spec, .rules, .exclude, .format, .maxFileSize].find? (·.name == name)

/-- The option of a name. -/
def Flag.ofName? (name : String) : Option Flag :=
  [.parallel, .followLinks, .verbose, .help, .version].find? (·.name == name)

/-- What has been given but not settled. -/
inductive Pending
  | nothing
  | option (o : Valued) (value : Option String)
  | paths (ps : List String)

/-- How far a command line has been read. -/
structure Progress where
  spec : Option Path := none
  rules : Option Path := none
  exclude : List String := []
  style : Option Style := none
  maxFileSize : Option Nat := none
  parallel : Bool := false
  followLinks : Bool := false
  verbose : Nat := 0
  paths : List Path := []
  pending : Pending := .nothing
  /-- Whether all that follows is a path. -/
  pathsOnly : Bool := false

/-- The number that a text writes, with or without a plus sign, if it fits 64 bits. -/
def numberOf? (s : String) : Option Nat :=
  Datum.countOfDigits <| match s.toList with
    | '+' :: rest => rest
    | cs => cs

/-- The path that a text is, which must not be empty. -/
def pathOf (option s : String) : Except UsageError Path :=
  if s == "" then .error (.badValue option) else .ok (.ofText s)

/-- How often an option may be counted. -/
def verboseLimit : Nat := 255

namespace Progress

/-- Puts the value of an option that may be given once. -/
def putOnce {α : Type} (o : Valued) (old : Option α) (new : Except UsageError α) :
    Except UsageError (Option α) :=
  if old.isSome then .error (.repeated o.name) else some <$> new

/-- The style of a name. -/
def styleOf (s : String) : Except UsageError Style :=
  if s == "human" then .ok .human
  else if s == "json" then .ok .json
  else .error (.badValue Valued.format.name)

/-- Settles an option with its value. -/
def put (p : Progress) (o : Valued) (value : String) : Except UsageError Progress := do
  match o with
  | .spec => return { p with spec := ← putOnce o p.spec (pathOf o.name value) }
  | .rules => return { p with rules := ← putOnce o p.rules (pathOf o.name value) }
  | .exclude => return { p with exclude := p.exclude ++ [value] }
  | .format => return { p with style := ← putOnce o p.style (styleOf value) }
  | .maxFileSize =>
    let size := match numberOf? value with
      | some n => .ok n
      | none => .error (.badNumber o.name)
    return { p with maxFileSize := ← putOnce o p.maxFileSize size }

/-- Settles what is pending. -/
def settle (p : Progress) : Except UsageError Progress := do
  match p.pending with
  | .nothing => return p
  | .option o none => throw (.badValue o.name)
  | .option o (some value) => ({ p with pending := .nothing } : Progress).put o value
  | .paths ps =>
    let paths ← ps.mapM (pathOf "PATH")
    return { p with paths := p.paths ++ paths, pending := .nothing }

/-- Settles an option without value, after what is pending. -/
def raise (p : Progress) (f : Flag) : Except UsageError Progress := do
  let p ← p.settle
  match f with
  | .parallel =>
    if p.parallel then throw (.repeated f.name) else return { p with parallel := true }
  | .followLinks =>
    if p.followLinks then throw (.repeated f.name) else return { p with followLinks := true }
  | .verbose => return { p with verbose := min verboseLimit (p.verbose + 1) }
  | .help => throw .help
  | .version => throw .version

/-- Reads an argument that starts with two hyphens. -/
def takeLong (p : Progress) (argument : String) : Except UsageError Progress :=
  let cs := argument.toList
  let name := String.ofList (cs.takeWhile (· != '='))
  match Valued.ofName? name, Flag.ofName? name, cs.dropWhile (· != '=') with
  | some o, _, [] => do return { ← p.settle with pending := .option o none }
  | some o, _, _ :: value => do (← p.settle).put o (String.ofList value)
  | none, some f, [] => p.raise f
  | none, some f, _ :: _ => .error (.attached f.name)
  | none, none, _ => .error (.unknown argument)

/-- Reads letters that each stand for an option. -/
def takeLetters (p : Progress) : List Char → Except UsageError Progress
  | [] => .ok p
  | c :: cs =>
    match Flag.ofLetter? c with
    | some f => do takeLetters (← p.raise f) cs
    | none => .error (.unknown (String.ofList ['-', c]))

/-- Reads an argument that is a path. -/
def takePath (p : Progress) (argument : String) : Except UsageError Progress := do
  match p.pending with
  | .paths ps => return { p with pending := .paths (ps ++ [argument]) }
  | _ => return { ← p.settle with pending := .paths [argument] }

/-- Reads an argument. -/
def take (p : Progress) (argument : String) : Except UsageError Progress :=
  if p.pathsOnly then p.takePath argument
  else match argument.toList with
    | ['-', '-'] => .ok { p with pathsOnly := true }
    | '-' :: '-' :: _ => p.takeLong argument
    | '-' :: c :: cs => p.takeLetters (c :: cs)
    | _ =>
      match p.pending with
      | .option o none => .ok { p with pending := .option o (some argument) }
      | _ => p.takePath argument

/-- The arguments when there are no more. -/
def finish (p : Progress) : Except UsageError Arguments := do
  let p ← p.settle
  match p.spec, p.paths with
  | some spec, _ :: _ =>
    return ⟨spec, p.rules, p.exclude, p.style.getD .human, p.maxFileSize, p.parallel,
      p.followLinks, p.verbose, p.paths⟩
  | _, _ => throw .missing

end Progress

/-- The arguments that a command line gives. -/
def Arguments.parse (arguments : List String) : Except UsageError Arguments := do
  (← arguments.foldlM Progress.take {}).finish

end Command

end ContentGrammar
