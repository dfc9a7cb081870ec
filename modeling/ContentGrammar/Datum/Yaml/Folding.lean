import ContentGrammar.Datum.Yaml.Cursor

/-!
# Scalars over several lines

A plain or quoted scalar may go over several lines. A `Folding` gathers its text: blanks at the two
ends of a line do not count, a line break is a space, and of several line breaks each after the
first one is kept. A line break that is escaped does not count at all.
-/

namespace ContentGrammar

namespace Yaml

/-- What is between two characters of a scalar that count. -/
inductive Separation
  /-- Blanks on one line, latest first. -/
  | blanks (cs : List Char)
  /-- A line break and some empty lines after it. -/
  | broken (empty : Nat)
  /-- An escaped line break and some empty lines after it. -/
  | joined (empty : Nat)

namespace Separation

/-- Whether there is a line break. -/
def isBreak : Separation → Bool
  | .blanks _ => false
  | .broken _ | .joined _ => true

/-- Whether there is nothing. -/
def isNothing : Separation → Bool
  | .blanks cs => cs.isEmpty
  | .broken _ | .joined _ => false

/-- The text that stands for it, latest character first. -/
def text : Separation → List Char
  | .blanks cs => cs
  | .broken 0 => [' ']
  | .broken empty | .joined empty => List.replicate empty '\n'

end Separation

/-- A scalar of which the end has not been seen. -/
structure Folding where
  /-- The text up to the last character that counts, latest character first. -/
  text : List Char
  /-- What has come since. -/
  separation : Separation

namespace Folding

/-- A scalar of which nothing has been seen. -/
def start : Folding := ⟨[], .blanks []⟩

/-- The scalar after a blank. -/
def blank (f : Folding) (c : Char) : Folding :=
  match f.separation with
  | .blanks cs => ⟨f.text, .blanks (c :: cs)⟩
  | _ => f

/-- The scalar after a line break. -/
def lineBreak (f : Folding) : Folding :=
  match f.separation with
  | .blanks _ => ⟨f.text, .broken 0⟩
  | .broken empty => ⟨f.text, .broken (empty + 1)⟩
  | .joined empty => ⟨f.text, .joined (empty + 1)⟩

/-- The text with what separates it from what follows. -/
def flushed (f : Folding) : List Char := f.separation.text ++ f.text

/-- The scalar after an escaped line break. -/
def join (f : Folding) : Folding := ⟨f.flushed, .joined 0⟩

/-- The scalar after a character that counts. -/
def push (f : Folding) (c : Char) : Folding := ⟨c :: f.flushed, .blanks []⟩

/-- The text of a plain scalar, which ends with its last character that counts. -/
def plain (f : Folding) : String := String.ofList f.text.reverse

/-- The text of a quoted scalar, which ends with its closing quote. -/
def quoted (f : Folding) : String := String.ofList f.flushed.reverse

end Folding

end Yaml

end ContentGrammar
