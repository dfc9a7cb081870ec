import ContentGrammar.Selector.Parser

/-!
# How selectors are written

The grammar of selectors, as trees that hold all there is in a text: names as they are spelled,
blank characters, and the quotes around values. Each kind of tree has a `text`, and `quoted` lists
the values in it that stand in quotes. `Written.meaning` are the alternatives that a selector stands
for, in which names of types and attributes are in small letters and blank characters and quotes no
longer occur.
-/

namespace ContentGrammar.Selector

namespace Written

/-- Blank characters, or none. -/
abbrev Blanks := {cs : List Char // ∀ c ∈ cs, isBlank c = true}

/-- A name, which begins with a character of one class and goes on with those of another. -/
structure Name (begins goesOn : Char → Bool) where
  first : Char
  rest : List Char
  begins_first : begins first = true
  goesOn_rest : ∀ c ∈ rest, goesOn c = true

def Name.text {begins goesOn : Char → Bool} (n : Name begins goesOn) : List Char :=
  n.first :: n.rest

/-- The name of an id or of a class, or a value without quotes. -/
abbrev Word := Name isWordChar isWordChar

/-- The value of an attribute test. -/
inductive Value
  | double (content : List Char) (h : '"' ∉ content)
  | single (content : List Char) (h : '\'' ∉ content)
  | bare (word : Word)

namespace Value

def text : Value → List Char
  | double content _ => '"' :: (content ++ ['"'])
  | single content _ => '\'' :: (content ++ ['\''])
  | bare word => word.text

def content : Value → List Char
  | double content _ | single content _ => content
  | bare word => word.text

def quoted? : Value → Option (List Char)
  | double content _ | single content _ => some content
  | bare _ => none

end Value

/-- An attribute test, in brackets. -/
structure Attribute where
  before : Blanks
  name : Name isAttributeStart isAttributeChar
  after : Blanks
  /-- A value, with the blanks before and after it. -/
  value? : Option (Blanks × Value × Blanks)

namespace Attribute

/-- What follows the name in an attribute test up to the closing bracket. -/
def valueText : Option (Blanks × Value × Blanks) → List Char
  | none => []
  | some (before, v, after) => '=' :: (before.1 ++ (v.text ++ after.1))

def text (a : Attribute) : List Char :=
  '[' :: (a.before.1 ++ (a.name.text ++ (a.after.1 ++ (valueText a.value? ++ [']']))))

def test (a : Attribute) : AttributeTest :=
  ⟨Ascii.lower (String.ofList a.name.text), a.value?.map fun v => String.ofList v.2.1.content⟩

def quoted? (a : Attribute) : Option (List Char) := a.value?.bind fun v => v.2.1.quoted?

end Attribute

/-- What a compound may begin with: a type or `*`. -/
inductive Lead
  | universal
  | type (name : Name isLetter isTypeChar)

namespace Lead

def text : Lead → List Char
  | universal => ['*']
  | type name => name.text

/-- The type that a lead asks for. -/
def tag? : Lead → Option String
  | universal => none
  | type name => some (Ascii.lower (String.ofList name.text))

/-- The simple selector that a lead is. -/
def simple : Lead → Simple
  | universal => .universal
  | type name => .type (Ascii.lower (String.ofList name.text))

end Lead

mutual

/-- A part of a compound other than its lead. -/
inductive Part
  | id (name : Word)
  | cls (name : Word)
  | test (a : Attribute)
  | negation (before : Blanks) (c : Compound) (after : Blanks)

/-- A compound, which has a lead or a part at least. -/
inductive Compound
  | typed (lead : Lead) (parts : List Part)
  | untyped (first : Part) (rest : List Part)

end

/-- The parts of a compound after its lead. -/
def Compound.parts : Compound → List Part
  | .typed _ parts => parts
  | .untyped first rest => first :: rest

/-- Induction over a part, with the claim for all parts of the compound in a negation at once. -/
@[induction_eliminator]
theorem Part.induct {motive : Part → Prop} (id : ∀ name, motive (.id name))
    (cls : ∀ name, motive (.cls name)) (test : ∀ a, motive (.test a))
    (negation : ∀ before c after, (∀ p ∈ c.parts, motive p) → motive (.negation before c after))
    (p : Part) : motive p :=
  match p with
  | .id name => id name
  | .cls name => cls name
  | .test a => test a
  | .negation before (.typed lead parts) after =>
    negation before (.typed lead parts) after fun q (_hq : q ∈ parts) =>
      induct id cls test negation q
  | .negation before (.untyped first rest) after =>
    negation before (.untyped first rest) after fun q (_hq : q ∈ first :: rest) =>
      induct id cls test negation q
termination_by p

/-! ## Texts -/

mutual

def Part.text : Part → List Char
  | .id name => '#' :: name.text
  | .cls name => '.' :: name.text
  | .test a => a.text
  | .negation before c after =>
    [':', 'n', 'o', 't', '('] ++ (before.1 ++ (c.text ++ (after.1 ++ [')'])))

def Compound.text : Compound → List Char
  | .typed lead parts => lead.text ++ partsText parts
  | .untyped first rest => first.text ++ partsText rest

/-- How parts are written, one right after the other. -/
def partsText : List Part → List Char
  | [] => []
  | p :: ps => p.text ++ partsText ps

end

/-- What stands between two compounds. -/
inductive Joint
  | child (before after : Blanks)
  | descendant (gap : Blanks) (h : gap.1 ≠ [])

namespace Joint

def text : Joint → List Char
  | child before after => before.1 ++ '>' :: after.1
  | descendant gap _ => gap.1

/-- The combinator that a joint stands for. -/
def combinator : Joint → Combinator
  | child _ _ => .child
  | descendant _ _ => .descendant

end Joint

/-- Compounds with joints between them, and with the blanks before and after. -/
structure Complex where
  before : Blanks
  first : Compound
  rest : List (Joint × Compound)
  after : Blanks

/-- How compounds are written, each with the joint before it. -/
def restText (rest : List (Joint × Compound)) : List Char :=
  rest.flatMap fun (j, c) => j.text ++ c.text

def Complex.text (w : Complex) : List Char :=
  w.before.1 ++ (w.first.text ++ restText w.rest) ++ w.after.1

end Written

/-- A selector as it is written: alternatives separated by commas. -/
structure Written where
  first : Written.Complex
  rest : List Written.Complex

def Written.text (w : Written) : List Char :=
  w.first.text ++ w.rest.flatMap fun a => ',' :: a.text

namespace Written

/-! ## Meanings -/

namespace Part

def id? : Part → Option String
  | .id name => some (String.ofList name.text)
  | _ => none

def class? : Part → Option String
  | .cls name => some (String.ofList name.text)
  | _ => none

def test? : Part → Option AttributeTest
  | .test a => some a.test
  | _ => none

/-- The simple selector that a part is, unless it is a negation. -/
def simple? : Part → Option Simple
  | .id name => some (.id (String.ofList name.text))
  | .cls name => some (.cls (String.ofList name.text))
  | .test a => some (.attribute a.test)
  | .negation _ _ _ => none

end Part

/-- The type that a compound asks for. -/
def Compound.tag? : Compound → Option String
  | .typed lead _ => lead.tag?
  | .untyped _ _ => none

mutual

/-- What a compound asks of an element. -/
def Compound.meaning : Compound → Selector.Compound
  | .typed lead parts =>
    ⟨lead.tag?, parts.filterMap Part.id?, parts.filterMap Part.class?, parts.filterMap Part.test?,
      negationsOf parts⟩
  | .untyped first rest =>
    ⟨none, (first :: rest).filterMap Part.id?, (first :: rest).filterMap Part.class?,
      (first :: rest).filterMap Part.test?, first.negated?.toList ++ negationsOf rest⟩

/-- The compound that a part negates. -/
def Part.negated? : Part → Option Selector.Compound
  | .negation _ c _ => some c.meaning
  | .id _ | .cls _ | .test _ => none

def negationsOf : List Part → List Selector.Compound
  | [] => []
  | p :: ps => p.negated?.toList ++ negationsOf ps

end

/-- The compound `c` with what further parts ask. -/
def grown (c : Selector.Compound) (ps : List Part) : Selector.Compound :=
  ⟨c.tag, c.ids ++ ps.filterMap Part.id?, c.classes ++ ps.filterMap Part.class?,
    c.attributes ++ ps.filterMap Part.test?, c.negations ++ negationsOf ps⟩

/-- The alternative `s` with further compounds to its right. The element of the last one is what is
selected, and the others are around it. -/
def extended (s : Selector.Complex) (rest : List (Joint × Compound)) : Selector.Complex :=
  rest.foldl (fun s (j, c) => ⟨c.meaning, (j.combinator, s.subject) :: s.context⟩) s

def Complex.meaning (w : Complex) : Selector.Complex := extended ⟨w.first.meaning, []⟩ w.rest

/-- The alternatives that a selector stands for. -/
def meaning (w : Written) : List Selector.Complex := (w.first :: w.rest).map Complex.meaning

/-! ## Values in quotes -/

mutual

def Part.quoted : Part → List (List Char)
  | .test a => a.quoted?.toList
  | .negation _ c _ => c.quoted
  | .id _ | .cls _ => []

def Compound.quoted : Compound → List (List Char)
  | .typed _ parts => quotedAll parts
  | .untyped first rest => first.quoted ++ quotedAll rest

def quotedAll : List Part → List (List Char)
  | [] => []
  | p :: ps => p.quoted ++ quotedAll ps

end

/-- The compounds of an alternative, from left to right. -/
def Complex.compounds (w : Complex) : List Compound := w.first :: w.rest.map (·.2)

def quoted (w : Written) : List (List Char) :=
  (w.first :: w.rest).flatMap fun a => a.compounds.flatMap Compound.quoted

/-- Values in which there are no parentheses. -/
def Plain (values : List (List Char)) : Prop := ∀ v ∈ values, '(' ∉ v ∧ ')' ∉ v

end Written

end ContentGrammar.Selector
