import ContentGrammar.Document.Content
import ContentGrammar.Pattern.Lockstep

/-!
# Breaches of exclusions

A match tells which stretches of children the regions under an exclusion took. The exclusion is
breached by a child whose name occurs in these stretches if the child itself is forbidden or, for
an element, if an element inside it is. `breaches` reports the first breach of each exclusion.
-/

namespace ContentGrammar

/-- The tokens that a span took; a span that does not fit the tokens took none. -/
def Span.tokens (s : Span) (ts : List Token) : List Token :=
  if s.start ≤ s.stop ∧ s.stop ≤ ts.length then (ts.drop s.start).take (s.stop - s.start) else []

/-- The names of the tokens that spans took. -/
def coveredNames (spans : List Span) (ts : List Token) : NameSet :=
  .ofList (spans.flatMap fun s => (s.tokens ts).map Token.name)

/-- Whether an element is forbidden. -/
def Forbidden.forbids (f : Forbidden) (p : Place) : Bool :=
  match f with
  | .text => false
  | .tag name => p.node.name == name
  | .selector s => s.selects p

/-- Whether `f` forbids text. -/
def Forbidden.isText : Forbidden → Bool
  | .text => true
  | _ => false

/-- The forbidden node that a child is or contains, the first one in document order. A text is
forbidden as a child only. -/
def culprit? (forbidden : List Forbidden) (child : Place) : Option Place :=
  match child.node with
  | .document _ => none
  | .text _ _ => if forbidden.any Forbidden.isText then some child else none
  | .element _ _ =>
    child.withDescendants.find? fun p => p.node.isElement && forbidden.any (·.forbids p)

/-- An exclusion that is breached by a child because of a culprit in it. -/
structure Breach where
  mark : Nat
  exclusion : Exclusion
  child : Place
  culprit : Place

/-- The names of the children that an exclusion of some mark is about. -/
def candidates (spans : List Span) (ts : List Token) (mark : Nat) (x : Exclusion) : NameSet :=
  let named := coveredNames (spans.filter fun s => s.label.same (.exclusion mark x)) ts
  if x.inTransparent then
    named.filter (coveredNames (spans.filter fun s => s.label.same .transparent) ts).contains
  else named

/-- The first breach of an exclusion. -/
def breach? (spans : List Span) (ts : List Token) (children : List Place) (mark : Nat)
    (x : Exclusion) : Option Breach :=
  let names := candidates spans ts mark x
  (children.filter fun c => names.contains c.node.name).findSome? fun c =>
    (culprit? x.forbidden c).map fun culprit => ⟨mark, x, c, culprit⟩

/-- The exclusions among labels, each mark once and in order, but none of the marks `seen`. -/
def exclusionsFrom (seen : List Nat) : List Label → List (Nat × Exclusion)
  | [] => []
  | .transparent :: ls => exclusionsFrom seen ls
  | .exclusion mark x :: ls =>
    if seen.contains mark then exclusionsFrom seen ls
    else (mark, x) :: exclusionsFrom (mark :: seen) ls

/-- The first breach of each exclusion of a match, given the children of an element and their
tokens. -/
def breaches (spans : List Span) (ts : List Token) (children : List Place) : List Breach :=
  (exclusionsFrom [] (spans.map (·.label))).filterMap fun (mark, x) =>
    breach? spans ts children mark x

end ContentGrammar
