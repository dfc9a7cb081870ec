import ContentGrammar.Command.Run
import ContentGrammar.Files.Listing

/-!
# The program

Carries out a command line on files that are listed on standard input, a JSON record a line. The
report goes to standard output and what goes wrong to standard error; the exit code is 0 if all is
well, 1 if it is not, and 2 if there is no report.
-/

namespace ContentGrammar

namespace Command

/-- How the program is called. -/
def usage : String :=
  "Usage: permitted-contents [OPTIONS] --spec <FILE> <PATH>..."

/-- The lines of a stream. -/
partial def readLines (stream : IO.FS.Stream) (before : List String) : IO (List String) := do
  let line ← stream.getLine
  if line.isEmpty then return before.reverse else readLines stream (line :: before)

/-- The exit code of a command line, and what goes to standard output and to standard error. -/
def respond (listing : List String) (arguments : List String) : UInt32 × String × String :=
  match Arguments.parse arguments with
  | .error .help => (0, usage ++ "\n", "")
  | .error .version => (0, "permitted-contents\n", "")
  | .error _ => (2, "", usage ++ "\n")
  | .ok a =>
    let tree := listing.mapM (Json.read none) >>= (FileTree.empty []).putListing
    match tree with
    | .error e => (2, "", "Error: " ++ e.message ++ "\n")
    | .ok t =>
      match run t a with
      | .error f => (2, "", "Error: " ++ f.message ++ "\n")
      | .ok outcome => (if outcome.ok then 0 else 1, outcome.output, "")

end Command

end ContentGrammar

/-- The program. -/
def main (arguments : List String) : IO UInt32 := do
  let listing ← ContentGrammar.Command.readLines (← IO.getStdin) []
  let (code, output, complaint) := ContentGrammar.Command.respond listing arguments
  (← IO.getStdout).putStr output
  (← IO.getStderr).putStr complaint
  return code
