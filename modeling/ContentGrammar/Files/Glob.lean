/-!
# Glob patterns

A glob pattern is matched against the whole of a text. `?` stands for any character and `*` for any
characters, separators included; `**` has to be a whole component and stands for any number of
components; `[...]` and `[!...]` stand for a character of a class or outside of it. All else stands
for itself. `Glob.parse` reads a pattern or says where it is not one, and `Glob.accepts` matches:
the tokens are gone through with all the ends of the text that may still be left.
-/

namespace ContentGrammar

namespace Glob

/-- A member of a class: a range of characters. -/
structure Interval where
  first : Char
  last : Char

/-- What a piece of a pattern stands for. -/
inductive Token
  | char (c : Char)
  | anyChar
  | oneOf (members : List Interval)
  | noneOf (members : List Interval)
  | anyChars
  | anyComponents

/-- What is wrong with a pattern. -/
inductive Problem
  | wildcards
  | recursiveWildcard
  | range
  deriving DecidableEq

/-- A problem and the position of the character at which it is seen. -/
structure ParseError where
  position : Nat
  problem : Problem

/-- The wording of a problem. -/
def Problem.message : Problem → String
  | .wildcards => "wildcards are either regular `*` or recursive `**`"
  | .recursiveWildcard => "recursive wildcards must form a single path component"
  | .range => "invalid range pattern"

/-- The wording of an error. -/
def ParseError.message (e : ParseError) : String :=
  "Pattern syntax error near position " ++ toString e.position ++ ": " ++ e.problem.message

/-- The members of a class. A hyphen makes a range of the characters on its two sides. -/
def intervals : List Char → List Interval
  | a :: '-' :: b :: cs => ⟨a, b⟩ :: intervals cs
  | a :: cs => ⟨a, a⟩ :: intervals cs
  | [] => []

/-- The characters before the first `]` and those after it. The first character of a class is taken
as a member, whatever it is. -/
def classEnd? : List Char → Option (List Char × List Char)
  | [] => none
  | c :: cs =>
    match cs.dropWhile (· != ']') with
    | [] => none
    | _ :: after => some (c :: cs.takeWhile (· != ']'), after)

theorem length_classEnd {cs inside after : List Char} (h : classEnd? cs = some (inside, after)) :
    after.length < cs.length := by
  unfold classEnd? at h
  split at h
  · cases h
  case h_2 c cs =>
    have := (List.dropWhile_suffix (l := cs) (· != ']')).length_le
    split at h
    · cases h
    case h_2 x after' heq =>
      rw [heq, List.length_cons] at this
      cases h
      simp only [List.length_cons]
      omega

/-- The class after a `[` and what follows it. -/
def class? (cs : List Char) : Option (Token × List Char) :=
  match cs with
  | '!' :: rest => (classEnd? rest).map fun (inside, after) => (.noneOf (intervals inside), after)
  | rest => (classEnd? rest).map fun (inside, after) => (.oneOf (intervals inside), after)

theorem length_class {cs after : List Char} {t : Token} (h : class? cs = some (t, after)) :
    after.length < cs.length := by
  unfold class? at h
  split at h
  case h_1 rest =>
    obtain ⟨⟨inside, a⟩, ha, he⟩ := Option.map_eq_some_iff.mp h
    cases he
    have := length_classEnd ha
    simp only [List.length_cons]
    omega
  case h_2 =>
    obtain ⟨⟨inside, a⟩, ha, he⟩ := Option.map_eq_some_iff.mp h
    cases he
    exact length_classEnd ha

/-- The tokens from a position on, which comes after the character `before`. -/
def parseFrom (before : Option Char) (position : Nat) (cs : List Char) :
    Except ParseError (List Token) :=
  match cs with
  | [] => .ok []
  | '?' :: rest => do return .anyChar :: (← parseFrom (some '?') (position + 1) rest)
  | '*' :: '*' :: '*' :: _ => .error ⟨position + 2, .wildcards⟩
  | '*' :: '*' :: rest =>
    if before.any (· != '/') then .error ⟨position - 1, .recursiveWildcard⟩
    else
      match rest with
      | [] => .ok [.anyComponents]
      | '/' :: rest => do return .anyComponents :: (← parseFrom (some '/') (position + 3) rest)
      | _ => .error ⟨position + 2, .recursiveWildcard⟩
  | '*' :: rest => do return .anyChars :: (← parseFrom (some '*') (position + 1) rest)
  | '[' :: rest =>
    match _h : class? rest with
    | none => .error ⟨position, .range⟩
    | some (token, after) => do
      let consumed := 1 + (rest.length - after.length)
      return token :: (← parseFrom (some ']') (position + consumed) after)
  | c :: rest => do return .char c :: (← parseFrom (some c) (position + 1) rest)
termination_by cs.length
decreasing_by
  all_goals simp only [List.length_cons]
  · omega
  · omega
  · omega
  · exact Nat.lt_succ_of_lt (length_class _h)
  · omega

end Glob

/-- A glob pattern. -/
structure Glob where
  tokens : List Glob.Token

namespace Glob

/-- The pattern that a text is. -/
def parse (source : String) : Except ParseError Glob := do
  return ⟨← parseFrom none 0 source.toList⟩

/-- Whether a character is in a class. -/
def inClass (members : List Interval) (c : Char) : Bool :=
  members.any fun i => i.first ≤ c && c ≤ i.last

/-- All ends of a text, the text itself and the empty text included. -/
def ends : List Char → List (List Char)
  | [] => [[]]
  | c :: cs => (c :: cs) :: ends cs

/-- The ends of a text that may be left after some components: those after a separator, the empty
text and, if `here`, the text itself. -/
def endsOfComponents (here : Bool) : List Char → List (List Char)
  | [] => [[]]
  | c :: cs => if here then (c :: cs) :: endsOfComponents (c == '/') cs
    else endsOfComponents (c == '/') cs

/-- What may be left of a text after a token. -/
def Token.left (t : Token) (cs : List Char) : List (List Char) :=
  match t, cs with
  | .anyChars, cs => ends cs
  | .anyComponents, cs => endsOfComponents true cs
  | .char c, x :: xs => if x = c then [xs] else []
  | .anyChar, _ :: xs => [xs]
  | .oneOf k, x :: xs => if inClass k x then [xs] else []
  | .noneOf k, x :: xs => if inClass k x then [] else [xs]
  | _, [] => []

/-- What may be left of a text, of which there are several, after tokens. -/
def leftAfter (texts : List (List Char)) (ts : List Token) : List (List Char) :=
  ts.foldl (fun left t => (left.flatMap t.left).eraseDups) texts

/-- Whether a text matches a pattern. -/
def accepts (g : Glob) (text : String) : Bool :=
  (leftAfter [text.toList] g.tokens).any List.isEmpty

end Glob

end ContentGrammar
