import Std.Data.HashMap
import ContentGrammar.Pattern.OfModel
import ContentGrammar.Spec.Basic

/-!
# Inherited patterns

The pattern of a node is that of the model which applies to it, where a transparent model takes
over the pattern of the parent element. Going up a document, the same patterns are needed again and
again, so they are kept in a memo by the number of the node. `patternFor` looks a pattern up or
works it out together with those it depends on, and returns the memo that has them all.
-/

namespace ContentGrammar

/-- The patterns known so far, by the number of the node. -/
abbrev Memo := Std.HashMap Nat Pattern

namespace Spec

/-- Compiles the model of node `id` and keeps its pattern. -/
def remember (s : Spec) (id : Nat) (m : Model) (parent : Option Pattern) (memo : Memo) :
    Except ModelError Pattern × Memo :=
  match m.compile s.categories parent with
  | .ok p => (.ok p, memo.insert id p)
  | .error e => (.error e, memo)

/-- The pattern of a node with `above` around it, from the memo or worked out. -/
def patternFor (s : Spec) (memo : Memo) (h : Head) (above : List Head) :
    Except ModelError Pattern × Memo :=
  match memo[h.id]? with
  | some p => (.ok p, memo)
  | none =>
    let m := s.modelOf h above
    if m.inherits then
      match above with
      | [] => s.remember h.id m none memo
      | e :: around =>
        match s.patternFor memo e around with
        | (.ok p, memo) => s.remember h.id m (some p) memo
        | (.error err, memo) => (.error err, memo)
    else s.remember h.id m none memo

/-- The pattern of a model put on a node, which inherits from the parent element of the node. -/
def compileAt (s : Spec) (memo : Memo) (m : Model) (above : List Head) :
    Except ModelError Pattern × Memo :=
  if m.inherits then
    match above with
    | [] => (m.compile s.categories none, memo)
    | e :: around =>
      match s.patternFor memo e around with
      | (.ok p, memo) => (m.compile s.categories (some p), memo)
      | (.error err, memo) => (.error err, memo)
  else (m.compile s.categories none, memo)

end Spec

end ContentGrammar
