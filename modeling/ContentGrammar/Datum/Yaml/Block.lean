import ContentGrammar.Datum.Yaml.Cursor
import ContentGrammar.Text.Blank
import ContentGrammar.Text.Digits

/-!
# Block scalars

A block scalar is written as lines of their own under a header, all of them indented. `Block.read`
reads one at a cursor, from its header on. The indentation is given in the header or else is that of
the first line that is not blank. `Block.textOf` puts the lines together, with the line breaks kept
or folded.
-/

namespace ContentGrammar

namespace Yaml

/-- What becomes of the line breaks at the end of a block scalar. -/
inductive Chomping
  /-- The last line is ended. -/
  | clip
  /-- The last line is not ended. -/
  | strip
  /-- All are kept. -/
  | keep

/-- A block scalar that has been read. -/
structure Block where
  text : String
  /-- The start of the line that follows it. -/
  next : Cursor

namespace Block

/-! ### Text -/

/-- Lines put into one text, each line break kept. -/
def literal : List (List Char) → List Char
  | [] => []
  | [l] => l
  | l :: ls => l ++ '\n' :: literal ls

/-- Whether the line breaks around a line are kept when a block is folded. -/
def isRaised : List Char → Bool
  | c :: _ => isSpacing c
  | [] => false

/-- Lines put into one text, a line break between two lines that are not raised being a space. The
line before is raised if `raised`, and `breaks` line breaks separate it from the lines. -/
def foldedFrom (raised : Bool) (breaks : Nat) : List (List Char) → List Char
  | [] => []
  | [] :: ls => foldedFrom raised (breaks + 1) ls
  | l :: ls =>
    let separator :=
      if raised || isRaised l then List.replicate breaks '\n'
      else if breaks = 1 then [' ']
      else List.replicate (breaks - 1) '\n'
    separator ++ l ++ foldedFrom (isRaised l) 1 ls

/-- Lines put into one text, folded. Empty lines in front are kept. -/
def folded (ls : List (List Char)) : List Char :=
  let body := ls.dropWhile List.isEmpty
  List.replicate (ls.length - body.length) '\n' ++
    match body with
    | [] => []
    | l :: rest => l ++ foldedFrom (isRaised l) 1 rest

/-! ### Lines -/

/-- The lines that belong to a block scalar, and where they end. -/
structure Lines where
  /-- The lines without their indentation, blank ones being empty. -/
  lines : List (List Char)
  /-- Whether each of them has a line break. -/
  ended : Bool
  /-- What follows them. -/
  rest : List Char
  place : Place
  /-- The column of what follows them, or the one at which the text ends. -/
  column : Nat

/-- What is left after the line at which a text starts, if there is a line break. -/
def nextLine? (cs : List Char) : Option (List Char) := (cs.dropWhile (· != '\n')).tail?

theorem length_nextLine? {cs rest : List Char} (h : nextLine? cs = some rest) :
    rest.length < cs.length := by
  have := (List.dropWhile_suffix (l := cs) (· != '\n')).length_le
  unfold nextLine? at h
  cases hd : cs.dropWhile (· != '\n') with
  | nil => rw [hd] at h; simp at h
  | cons c r =>
    rw [hd] at h this
    simp only [List.tail?_cons, Option.some.injEq] at h
    subst h
    rw [List.length_cons] at this
    omega

/-- The largest of `least`, the indentation of the blank lines at the start of a text and that of
the line after them. -/
def deepest (least : Nat) (text : List Char) : Nat :=
  let line := text.takeWhile (· != '\n')
  let indentation := max least (line.takeWhile (· == ' ')).length
  if line.all (· == ' ') then
    match _h : nextLine? text with
    | some rest => deepest indentation rest
    | none => indentation
  else indentation
termination_by text.length
decreasing_by exact length_nextLine? _h

/-- The lines of a block scalar with the given indentation, after those in `done`, latest first. -/
def linesFrom (indentation : Nat) (done : List (List Char)) (place : Place) (text : List Char) :
    Lines :=
  let line := text.takeWhile (· != '\n')
  let spaces := (line.takeWhile (· == ' ')).length
  let stop : Nat → Lines := fun column => ⟨done.reverse, true, text, place, column⟩
  let goOn : List Char → Lines := fun content =>
    match _h : nextLine? text with
    | some rest =>
      linesFrom indentation (content :: done) (place.right line.length).down rest
    | none => ⟨(content :: done).reverse, false, [], place.right line.length, line.length⟩
  if line.length == spaces && spaces ≤ indentation then
    if (nextLine? text).isSome then goOn []
    else ⟨done.reverse, true, [], place.right spaces, spaces⟩
  else if spaces < indentation || indentation == 0 && isMark '.' line then
    stop (min spaces indentation)
  else goOn (line.drop indentation)
termination_by text.length
decreasing_by exact length_nextLine? _h

/-! ### Reading -/

/-- How a block scalar is to be read. -/
structure Header where
  chomping : Chomping
  /-- How far its lines are indented more than what is around it. -/
  indentation : Option Nat

/-- The sign for a way of chomping. -/
def chomping? : Char → Option Chomping
  | '-' => some .strip
  | '+' => some .keep
  | _ => none

/-- The header after its first character, and how many characters it has. -/
def header (text : List Char) : Except String (Header × Nat) :=
  let digit? : List Char → Except String (Option Nat) := fun cs =>
    match cs.head? with
    | some '0' => .error "indentation of zero"
    | some c => .ok (if c.isDigit then Digits.value? c else none)
    | none => .ok none
  match text.head?.bind chomping? with
  | some chomping => do
    match ← digit? (text.drop 1) with
    | some n => return (⟨chomping, some n⟩, 2)
    | none => return (⟨chomping, none⟩, 1)
  | none => do
    match ← digit? text with
    | some n =>
      match text[1]?.bind chomping? with
      | some chomping => return (⟨chomping, some n⟩, 2)
      | none => return (⟨.clip, some n⟩, 1)
    | none => return (⟨.clip, none⟩, 0)

/-- The text of a block scalar with some content. -/
def textOf (isFolded : Bool) (chomping : Chomping) (indentation : Nat) (ls : Lines) : List Char :=
  let body := (ls.lines.reverse.dropWhile List.isEmpty).reverse
  let lastBreak := if ls.ended then ['\n'] else []
  let atEnd := if ls.rest.isEmpty && max indentation 1 ≤ ls.column then ['\n'] else []
  (if isFolded then folded body else literal body) ++
    match chomping with
    | .strip => []
    | .clip => lastBreak ++ atEnd
    | .keep => lastBreak ++ atEnd ++ List.replicate (ls.lines.length - body.length) '\n'

/-- The text of a block scalar of which all lines are blank. -/
def blankText (chomping : Chomping) (ls : Lines) : List Char :=
  match chomping with
  | .strip => []
  | .clip => if ls.rest.isEmpty then ['\n'] else []
  | .keep => List.replicate (max ls.lines.length (if ls.rest.isEmpty then 1 else 0)) '\n'

/-- Reads a block scalar, of which the lines have to reach column `least`. -/
def read (isFolded : Bool) (least : Nat) (c : Cursor) : Except String Block := do
  let c := c.skip 1
  let (header, width) ← header c.rest
  let c ← (c.skip width).toLineEnd
  match c.rest with
  | [] => return ⟨"", c⟩
  | '\n' :: first =>
    if first.head? == some '\t' then throw "tab in the indentation"
    let indentation := match header.indentation with
      | some n => least - 1 + n
      | none => deepest least first
    let ls := linesFrom indentation [] c.place.down first
    let next : Cursor := ⟨ls.rest, ls.place, true⟩
    if ls.lines.all List.isEmpty then
      if !ls.rest.isEmpty && ls.column < indentation && least ≤ ls.column then
        throw "too far to the left"
      return ⟨String.ofList (blankText header.chomping ls), next⟩
    else
      let text := textOf isFolded header.chomping indentation ls
      if isFolded && indentation == 0 && !text.all isBlank then throw "folded without indentation"
      return ⟨String.ofList text, next⟩
  | _ => throw "bad start of a block scalar"

end Block

end Yaml

end ContentGrammar
