import ContentGrammar.Exclusion
import ContentGrammar.Report.Basic
import ContentGrammar.Spec.Inheritance

/-!
# Validation

Each element of a document is checked against the model that the spec has for it, if it has one,
and against every rule for its tag. Elements may be checked one after the other with one memo of
inherited patterns, or in batches with a memo for each; the findings are put in the order of the
elements in either case. `Document.validate` gives the report.
-/

namespace ContentGrammar

/-- What is found about one element. -/
structure Outcome where
  violations : List Violation
  warnings : List Warning

namespace Outcome

/-- Nothing is found. -/
def none : Outcome := ⟨[], []⟩

/-- What is found first and then. -/
def append (a b : Outcome) : Outcome := ⟨a.violations ++ b.violations, a.warnings ++ b.warnings⟩

/-- What is found by matching the content of a node against a pattern. -/
def ofPattern (p : Place) (source : Source) (pattern : Pattern) : Outcome :=
  let content := p.content
  let tokens := tokensOf content
  let h := p.node.head
  let violation (fault : Fault) : Violation := ⟨h.id, h.name, h.position, source, fault⟩
  match pattern.run? tokens with
  | .none => ⟨[violation .form], []⟩
  | some spans =>
    ⟨(breaches spans tokens content).map fun b =>
      violation (.forbidden b.child.node.id b.child.node.name b.culprit.node.name
        b.exclusion.render), []⟩

/-- What is found with a pattern, or with the error there is in its place. -/
def ofResult (p : Place) (source : Source) : Except ModelError Pattern → Outcome
  | .ok pattern => ofPattern p source pattern
  | .error e => ⟨[], [⟨p.node.id, p.node.name, p.node.head.position, e⟩]⟩

end Outcome

/-- The rules for a node, with their numbers. -/
def rulesFor (rules : List Rule) (name : String) : List (Nat × Rule) :=
  (rules.zipIdx.map fun (r, i) => (i, r)).filter fun r => r.2.appliesTo name

namespace Spec

/-- What is found about a node with respect to the spec. -/
def checkSpec (s : Spec) (memo : Memo) (p : Place) : Outcome × Memo :=
  match s.tag? p.node.name with
  | none => (.none, memo)
  | some _ =>
    let (result, memo) := s.patternFor memo p.node.head p.above
    (.ofResult p .spec result, memo)

/-- What is found about a node with respect to rules. -/
def checkRulesAt (s : Spec) (memo : Memo) (p : Place) : List (Nat × Rule) → Outcome × Memo
  | [] => (.none, memo)
  | (i, r) :: rest =>
    let (result, memo) := s.compileAt memo r.model p.above
    let (others, memo) := s.checkRulesAt memo p rest
    ((Outcome.ofResult p (.rule i) result).append others, memo)

/-- What is found about a node. -/
def checkNode (s : Spec) (rules : List Rule) (memo : Memo) (p : Place) : Outcome × Memo :=
  let (found, memo) := s.checkSpec memo p
  let (foundByRules, memo) := s.checkRulesAt memo p (rulesFor rules p.node.name)
  (found.append foundByRules, memo)

/-- What is found about nodes, checked one after the other with one memo. -/
def checkNodes (s : Spec) (rules : List Rule) (memo : Memo) : List Place → List Outcome
  | [] => []
  | p :: ps =>
    let (found, memo) := s.checkNode rules memo p
    found :: s.checkNodes rules memo ps

end Spec

/-- How documents are validated. -/
structure Settings where
  rules : List Rule := []
  /-- Whether elements are checked in batches at the same time. -/
  parallel : Bool := false

/-- A list cut into pieces of `size + 1`, the last of which may be shorter. -/
def batchesOf {α : Type} (size : Nat) (xs : List α) : List (List α) :=
  match xs with
  | [] => []
  | x :: rest => (x :: rest.take size) :: batchesOf size (rest.drop size)
termination_by xs.length
decreasing_by simp only [List.length_drop, List.length_cons]; omega

/-- What is found about elements in batches, each checked by a task with a memo of its own. -/
def Spec.checkBatches (s : Spec) (rules : List Rule) (batches : List (List Place)) :
    List Outcome :=
  let tasks := batches.map fun batch => Task.spawn fun _ => s.checkNodes rules ∅ batch
  tasks.flatMap Task.get

/-- The report on elements of which the outcomes are known: findings in the order of elements, and
for one element in the order in which they were found. -/
def Report.ofOutcomes (elements : Nat) (outcomes : List Outcome) : Report :=
  ⟨elements,
    (outcomes.flatMap (·.violations)).mergeSort fun a b => a.element ≤ b.element,
    (outcomes.flatMap (·.warnings)).mergeSort fun a b => a.element ≤ b.element⟩

namespace Document

/-- How many elements are in a batch, less one. -/
def batchSize : Nat := 63

/-- The report on a document, for rules that are known to be in order. -/
def check (d : Document) (s : Spec) (settings : Settings) : Report :=
  let elements := d.elements
  let outcomes :=
    if settings.parallel then s.checkBatches settings.rules (batchesOf batchSize elements)
    else s.checkNodes settings.rules ∅ elements
  .ofOutcomes elements.length outcomes

/-- The report on a document. Rules that name an unknown category are an error. -/
def validate (d : Document) (s : Spec) (settings : Settings) : Except ModelError Report := do
  s.checkRules settings.rules
  return d.check s settings

end Document

end ContentGrammar
