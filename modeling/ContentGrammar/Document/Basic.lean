import ContentGrammar.Document.Markup
import ContentGrammar.Text.Ascii

/-!
# Documents

A document is a tree whose nodes are numbered in document order: the document node itself is 0, and
every node precedes what it contains and what follows it. Names of elements and of attributes are
stored in small letters.

A `Place` is a node seen together with the elements around it, nearest first. All that is asked
about a node, such as which selectors it matches or which content model it takes, is asked of a
place. `Document.places` lists the places of a document in document order, so that the place of
node `n` is its `n`th entry.
-/

namespace ContentGrammar

/-- What a node shows of itself apart from its content. -/
structure Head where
  id : Nat
  name : String
  /-- Names in small letters, in code point order of the names as they were written. -/
  attributes : List (String × String)
  position : Option Position

/-- The value of the first attribute of that name, whatever the case of its letters. -/
def Head.attribute? (h : Head) (name : String) : Option String :=
  (h.attributes.find? fun a => Ascii.same a.1 name).map (·.2)

/-- Whether there is an attribute of that name. -/
def Head.hasAttribute (h : Head) (name : String) : Bool := (h.attribute? name).isSome

/-- A numbered node. -/
inductive Node
  | document (children : List Node)
  | text (id : Nat) (content : String)
  | element (head : Head) (children : List Node)

namespace Node

/-- What a node shows of itself. Only elements have attributes. -/
def head : Node → Head
  | .document _ => ⟨0, "#document", [], none⟩
  | .text id _ => ⟨id, "#text", [], none⟩
  | .element head _ => head

/-- The number of a node. -/
def id (n : Node) : Nat := n.head.id

/-- The name of an element, `#text` for a text. -/
def name (n : Node) : String := n.head.name

/-- The nodes directly inside a node. -/
def children : Node → List Node
  | .document ns => ns
  | .text _ _ => []
  | .element _ ns => ns

/-- Whether a node is an element. -/
def isElement : Node → Bool
  | .element _ _ => true
  | _ => false

mutual

/-- The markup `m` with its nodes numbered from `start` on, and the first number left. -/
def number (start : Nat) : Markup → Node × Nat
  | .text content => (.text start content, start + 1)
  | .element name attributes children position =>
    let head : Head :=
      ⟨start, Ascii.lower name, attributes.entries.map fun a => (Ascii.lower a.1, a.2), position⟩
    let (nodes, next) := numberAll (start + 1) children
    (.element head nodes, next)

/-- Neighbouring nodes, numbered one after the other. -/
def numberAll (start : Nat) : List Markup → List Node × Nat
  | [] => ([], start)
  | m :: ms =>
    let (node, next) := number start m
    let (nodes, last) := numberAll next ms
    (node :: nodes, last)

end

end Node

/-- A node and the elements around it, nearest first. -/
structure Place where
  node : Node
  above : List Head

namespace Place

/-- The elements around the children of a node. -/
def aboveChildren (p : Place) : List Head :=
  match p.node with
  | .element head _ => head :: p.above
  | _ => p.above

/-- The places of the children of a node. -/
def children (p : Place) : List Place := p.node.children.map fun n => ⟨n, p.aboveChildren⟩

end Place

namespace Node

mutual

/-- The places of `n`, which has `above` around it, and of all that it contains. -/
def places (above : List Head) : Node → List Place
  | .document ns => ⟨.document ns, above⟩ :: placesAll above ns
  | .text id content => [⟨.text id content, above⟩]
  | .element head ns => ⟨.element head ns, above⟩ :: placesAll (head :: above) ns

/-- The places of neighbouring nodes and of all that they contain. -/
def placesAll (above : List Head) : List Node → List Place
  | [] => []
  | n :: ns => n.places above ++ placesAll above ns

end

end Node

/-- The places of a node and of all that it contains, in document order. -/
def Place.withDescendants (p : Place) : List Place := p.node.places p.above

/-- A document. -/
structure Document where
  /-- The top-level nodes. -/
  children : List Node

namespace Document

/-- The document with the given top-level nodes. -/
def ofMarkup (forest : List Markup) : Document := ⟨(Node.numberAll 1 forest).1⟩

/-- The document node. -/
def root (d : Document) : Place := ⟨.document d.children, []⟩

/-- All places in document order: the place of node `n` is the `n`th. -/
def places (d : Document) : List Place := d.root.withDescendants

/-- The places of the elements in document order. -/
def elements (d : Document) : List Place := d.places.filter (·.node.isElement)

end Document

end ContentGrammar
