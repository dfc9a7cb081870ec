import ContentGrammar.Model.Basic

/-!
# Patterns

A pattern is a regular expression over tokens, the names of the children of an element. Regions of
a pattern may be labeled: as taken over from the parent element, or as subject to an exclusion. A
match reports the stretch of children that each labeled region took.

An exclusion has a `mark`, which tells it from every other exclusion of the same pattern, also from
one with the same contents; a region that is taken over keeps its marks.
-/

namespace ContentGrammar

/-- What a child is to a content model. -/
inductive Token
  | element (name : String)
  | text
  deriving DecidableEq

/-- The tag name, or `#text`. -/
def Token.name : Token → String
  | .element name => name
  | .text => textName

/-- The tokens accepted at one place. -/
inductive TokenClass
  | any
  | oneOf (names : NameSet)

/-- Whether a token belongs to a class. -/
def TokenClass.accepts : TokenClass → Token → Bool
  | .any, _ => true
  | .oneOf names, t => names.contains t.name

/-- What an exclusion forbids, categories replaced by their members. -/
inductive Forbidden
  | text
  | tag (name : String)
  | selector (s : Selector)

/-- A forbidden thing as it is shown. -/
def Forbidden.render : Forbidden → String
  | .text => textName
  | .tag name => name
  | .selector s => s.source

/-- What a region of a pattern must not be, or contain. -/
structure Exclusion where
  /-- The names of the region, for show. -/
  scope : List String
  forbidden : List Forbidden
  /-- Whether only what was taken over from the parent element counts. -/
  inTransparent : Bool

/-- An exclusion as it is shown. -/
def Exclusion.render (x : Exclusion) : String :=
  String.intercalate "|" x.scope ++ " excluding "
    ++ String.intercalate ", " (x.forbidden.map Forbidden.render)

/-- The label of a region. -/
inductive Label
  /-- Taken over from the parent element. -/
  | transparent
  | exclusion (mark : Nat) (x : Exclusion)

/-- Whether two labels are the same: both transparent, or exclusions of one mark. -/
def Label.same : Label → Label → Bool
  | .transparent, .transparent => true
  | .exclusion m _, .exclusion n _ => m == n
  | _, _ => false

/-- A regular expression over tokens. -/
inductive Pattern
  | empty
  | token (accepted : TokenClass)
  | sequence (items : List Pattern)
  | choice (alternatives : List Pattern)
  | repeated (item : Pattern) (min : Nat) (max : Option Nat)
  | labeled (label : Label) (inner : Pattern)

namespace Pattern

/-- Any sequence of children. -/
def any : Pattern := .repeated (.token .any) 0 none

/-- How a class is shown. -/
def renderClass : TokenClass → String
  | .any => "<*>"
  | .oneOf names =>
    match names.toList.map fun n => "<" ++ n ++ ">" with
    | [one] => one
    | several => "(?:" ++ String.intercalate "|" several ++ ")"

/-- How the bounds of a repetition are shown. -/
def renderBounds (min : Nat) : Option Nat → String
  | none => if min = 0 then "*" else if min = 1 then "+" else "\x7b" ++ toString min ++ ",\x7d"
  | some max =>
    if min = 0 ∧ max = 1 then "?"
    else "\x7b" ++ toString min ++ "," ++ toString max ++ "\x7d"

mutual

/-- A pattern in the notation of regular expressions. -/
def renderBody : Pattern → String
  | .empty => ""
  | .token accepted => renderClass accepted
  | .sequence ps => String.join (renderEach ps)
  | .choice ps => "(?:" ++ String.intercalate "|" (renderEach ps) ++ ")"
  | .repeated p min max => "(?:" ++ renderBody p ++ ")" ++ renderBounds min max
  | .labeled .transparent p => "(?<TRANSPARENT>" ++ renderBody p ++ ")"
  | .labeled (.exclusion _ _) p => "(?<NAD>" ++ renderBody p ++ ")"

/-- Several patterns in the notation of regular expressions. -/
def renderEach : List Pattern → List String
  | [] => []
  | p :: ps => renderBody p :: renderEach ps

end

/-- A pattern for all children of an element, in the notation of regular expressions. -/
def render (p : Pattern) : String := "^" ++ renderBody p ++ "$"

mutual

/-- A number above all marks in a pattern. -/
def freshMark : Pattern → Nat
  | .empty | .token _ => 0
  | .sequence ps | .choice ps => freshMarkAll ps
  | .repeated p _ _ | .labeled .transparent p => freshMark p
  | .labeled (.exclusion m _) p => max (m + 1) (freshMark p)

/-- A number above all marks in several patterns. -/
def freshMarkAll : List Pattern → Nat
  | [] => 0
  | p :: ps => max (freshMark p) (freshMarkAll ps)

end

end Pattern

end ContentGrammar
