import ContentGrammar.Document.Basic
import ContentGrammar.Text.Blank

/-!
# Selectors

A selector is a list of alternatives. An alternative is a compound that the node itself has to
satisfy, together with what has to be around the node: further compounds, each satisfied by the
parent element of the element before it or by some element around that. Only elements match.
-/

namespace ContentGrammar

namespace Selector

/-- A condition on an attribute: that it is there, or that it has a certain value. -/
structure AttributeTest where
  name : String
  value : Option String
  deriving DecidableEq

/-- What a compound asks of a single element. -/
structure Compound where
  tag : Option String := none
  ids : List String := []
  classes : List String := []
  attributes : List AttributeTest := []
  negations : List Compound := []

/-- How the element of a compound stands around the element of the compound to its right. -/
inductive Combinator
  | descendant
  | child
  deriving DecidableEq

/-- A compound for the node itself, then the compounds around it from the inside out. -/
structure Complex where
  subject : Compound
  context : List (Combinator × Compound)

/-- Whether an element passes a test of one of its attributes. -/
def AttributeTest.holds (t : AttributeTest) (h : Head) : Bool :=
  match t.value with
  | none => h.hasAttribute t.name
  | some value => h.attribute? t.name == some value

namespace Compound

mutual

/-- Whether an element satisfies a compound. -/
def fits : Compound → Head → Bool
  | ⟨tag, ids, classes, attributes, negations⟩, h =>
    tag.all (Ascii.same h.name ·)
      && ids.all (fun id => h.attribute? "id" == some id)
      && classes.all (fun c => (words ((h.attribute? "class").getD "")).contains c)
      && attributes.all (·.holds h)
      && !anyFits negations h

/-- Whether an element satisfies one of several compounds. -/
def anyFits : List Compound → Head → Bool
  | [], _ => false
  | c :: cs, h => c.fits h || anyFits cs h

end

end Compound

/-- The elements of a chain with what is around each. -/
def outward : List Head → List (Head × List Head)
  | [] => []
  | h :: rest => (h, rest) :: outward rest

/-- Whether the elements around a node are as the context of an alternative asks. -/
def contextFits : List (Combinator × Compound) → List Head → Bool
  | [], _ => true
  | (.child, c) :: rest, above =>
    match above with
    | [] => false
    | h :: around => c.fits h && contextFits rest around
  | (.descendant, c) :: rest, above =>
    (outward above).any fun (h, around) => c.fits h && contextFits rest around

/-- Whether an element matches an alternative. -/
def Complex.fits (s : Complex) (h : Head) (above : List Head) : Bool :=
  s.subject.fits h && contextFits s.context above

end Selector

/-- A selector, with its text as written but for blank characters around it. -/
structure Selector where
  source : String
  alternatives : List Selector.Complex

namespace Selector

/-- Whether an element, given by its head and the elements around it, is selected. -/
def selectsElement (s : Selector) (h : Head) (above : List Head) : Bool :=
  s.alternatives.any (·.fits h above)

/-- Whether a node is selected. -/
def selects (s : Selector) (p : Place) : Bool :=
  p.node.isElement && s.selectsElement p.node.head p.above

end Selector

end ContentGrammar
