import ContentGrammar.Document.Basic

/-!
# Documents as tables

A document can be kept as a table that has an entry for each node. A node goes by the place of its
entry in the table, and an entry has links to the node around it and to the nodes directly inside.
`Arena.ofMarkup` fills the table node by node: each entry is put at the end of the table and linked
from the node that it is in, so a node gets the number that it has in `Document.ofMarkup`. There are
only so many numbers.

From a node one comes to what is around it and what is inside it by the links. What is inside is gone
through with a stack of nodes that are still to be visited.
-/

namespace ContentGrammar

/-- A document with more nodes than there are numbers for. -/
structure TooManyNodes where
  /-- The greatest number. -/
  max : Nat

/-- The wording of the error. -/
def TooManyNodes.message (e : TooManyNodes) : String :=
  "Document exceeds the maximum of " ++ toString e.max ++ " nodes"

namespace Arena

/-- What a node is. -/
inductive Kind
  | document
  | element
  | text
  deriving DecidableEq

/-- What is kept of a node. -/
structure Entry where
  kind : Kind
  name : String
  text : String := ""
  attributes : List (String × String) := []
  position : Option Position := none
  parent : Option Nat := none
  children : List Nat := []

/-- An entry with further nodes inside, behind those that are there. -/
def Entry.adding (ids : List Nat) (e : Entry) : Entry := { e with children := e.children ++ ids }

end Arena

/-- A document as a table of its nodes. -/
structure Arena where
  entries : Array Arena.Entry

namespace Arena

/-! ## Filling the table -/

/-- The greatest number that a node can have. -/
def maxId : Nat := 4294967295

/-- The table of a document with nothing in it. -/
def empty : Arena := ⟨#[{ kind := .document, name := "#document" }]⟩

/-- Puts an entry at the end, linked with the node that it is in. -/
def push (a : Arena) (parent : Nat) (e : Entry) : Except TooManyNodes (Nat × Arena) :=
  let id := a.entries.size
  if maxId < id then .error ⟨maxId⟩
  else .ok (id, ⟨(a.entries.push { e with parent := some parent }).modify parent (·.adding [id])⟩)

/-- What is kept of an element before anything is put inside. -/
def elementEntry (name : String) (attributes : Dictionary String) (position : Option Position) :
    Entry :=
  { kind := .element
    name := Ascii.lower name
    attributes := attributes.entries.map fun a => (Ascii.lower a.1, a.2)
    position }

mutual

/-- Puts a node and all that it contains into the table. -/
def insert (a : Arena) (parent : Nat) : Markup → Except TooManyNodes Arena
  | .text content => do
    let (_, a) ← a.push parent { kind := .text, name := "#text", text := content }
    return a
  | .element name attributes children position => do
    let (id, a) ← a.push parent (elementEntry name attributes position)
    a.insertAll id children

/-- Puts several nodes into the table, one after the other. -/
def insertAll (a : Arena) (parent : Nat) : List Markup → Except TooManyNodes Arena
  | [] => .ok a
  | m :: ms => do
    let a ← a.insert parent m
    a.insertAll parent ms

end

/-- The table of the document with the given top-level nodes. -/
def ofMarkup (forest : List Markup) : Except TooManyNodes Arena := empty.insertAll 0 forest

/-! ## Following links -/

variable (a : Arena)

/-- The nodes directly inside a node. -/
def children (n : Nat) : List Nat := (a.entries[n]?.map (·.children)).getD []

/-- Whether a node is an element. -/
def isElement (n : Nat) : Bool := a.entries[n]?.any (·.kind == .element)

/-- The node around a node. -/
def parent? (n : Nat) : Option Nat := a.entries[n]?.bind (·.parent)

/-- The node around a node, if it is an element. -/
def parentElement? (n : Nat) : Option Nat := (a.parent? n).filter a.isElement

/-- The value of the first attribute of that name, whatever the case of its letters. -/
def attribute? (n : Nat) (name : String) : Option String :=
  a.entries[n]?.bind fun e => (e.attributes.find? fun x => Ascii.same x.1 name).map (·.2)

/-- The first `fuel` elements around a node, nearest first. -/
def climb : Nat → Nat → List Nat
  | 0, _ => []
  | fuel + 1, n =>
    match a.parentElement? n with
    | none => []
    | some p => p :: climb fuel p

/-- The elements around a node, nearest first. -/
def ancestors (n : Nat) : List Nat := a.climb a.entries.size n

/-- The stack with further nodes on top, of which the first is to be visited first. -/
def stacked (ns stack : List Nat) : List Nat := ns.reverse.foldl (fun stack n => n :: stack) stack

/-- The first `fuel` nodes that are visited from a stack on. -/
def visit : Nat → List Nat → List Nat
  | 0, _ => []
  | _ + 1, [] => []
  | fuel + 1, n :: stack => n :: visit fuel (stacked (a.children n) stack)

/-- The nodes inside a node at whatever depth, each before what is in it and what is behind it. -/
def descendants (n : Nat) : List Nat := a.visit a.entries.size (stacked (a.children n) [])

/-- The elements of the document. -/
def elements : List Nat := (a.descendants 0).filter a.isElement

end Arena

end ContentGrammar
