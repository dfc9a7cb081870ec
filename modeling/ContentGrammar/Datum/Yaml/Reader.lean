import ContentGrammar.Datum.Yaml.Collection
import ContentGrammar.Datum.Yaml.Token.Lexer

/-!
# Reading YAML

A YAML text is read token by token until its value is known. What comes after that is looked at only
as far as to see whether another document follows. A text ends at its first NUL character. Plain
scalars become words, all other scalars texts.
-/

namespace ContentGrammar

namespace Yaml

/-- Reads on, with at most `fuel` more signs and scalars. -/
def readFrom : Nat → Lexer → Progress → Except ReadError Datum
  | 0, s, _ => .error (.malformed s.cursor.place.offset "text without end")
  | fuel + 1, s, p =>
    let fail := fun problem => match p.value? with
      | some d => .ok d
      | none => .error (.malformed s.cursor.place.offset problem)
    match s.next >>= Lexer.release with
    | .error problem => fail problem
    | .ok (tokens, s) =>
      match tokens.foldlM Progress.feed p with
      | .error problem => .error (.malformed s.cursor.place.offset problem)
      | .ok (.done d) => .ok d
      | .ok p => readFrom fuel s p

/-- A text without the mark of its encoding, with its line breaks unified, up to its end. -/
def textOf (source : String) : List Char :=
  let cs := match source.toList with
    | '\uFEFF' :: cs => cs
    | cs => cs
  unifyBreaks (cs.takeWhile (· != '\x00'))

/-- The value of a YAML text. Each sign or scalar has at least one character, and the last one is
followed by the end of the text. -/
def read (source : String) : Except ReadError Datum :=
  let text := textOf source
  readFrom (text.length + 1) (.start text) (.before false)

end Yaml

end ContentGrammar
