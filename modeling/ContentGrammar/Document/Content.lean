import ContentGrammar.Document.Basic
import ContentGrammar.Pattern.Basic

/-!
# The content of an element

A content model sees the children of an element as a row of tokens. Text that is only HTML white
space is not content: it has no token, and every other child has exactly one.
-/

namespace ContentGrammar

/-- What a node is to the content model of its parent, if it is content at all. -/
def Node.token? : Node → Option Token
  | .document _ => none
  | .text _ content => if content.toList.all isSpace then none else some .text
  | .element head _ => some (.element head.name)

/-- Whether a node counts as content of its parent. -/
def Node.isContent (n : Node) : Bool := n.token?.isSome

/-- The children of a node that count as its content. -/
def Place.content (p : Place) : List Place := p.children.filter (·.node.isContent)

/-- The tokens of nodes, those without one left out. -/
def tokensOf (ps : List Place) : List Token := ps.filterMap (·.node.token?)

theorem length_tokensOf_content (p : Place) : (tokensOf p.content).length = p.content.length := by
  have h : ∀ ps : List Place, (tokensOf (ps.filter (·.node.isContent))).length
      = (ps.filter (·.node.isContent)).length := by
    intro ps
    induction ps with
    | nil => rfl
    | cons q qs ih =>
      simp only [tokensOf, Node.isContent] at ih ⊢
      cases hq : q.node.token? <;> simp_all
  exact h _

theorem tokensOf_content (p : Place) : tokensOf p.content = tokensOf p.children := by
  simp only [tokensOf, Place.content, List.filterMap_filter]
  congr 1
  funext q
  cases h : q.node.token? <;> simp [Node.isContent, h]

end ContentGrammar
