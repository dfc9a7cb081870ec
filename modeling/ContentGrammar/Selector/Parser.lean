import ContentGrammar.Selector.Basic

/-!
# Reading selectors

A selector text is split at the commas outside of quotes, brackets and parentheses. Each piece is a
row of compounds joined by blanks or `>`, and a compound a row of simple selectors: a type or `*`
in front, then ids, classes, attribute tests and negations. `Selector.parse` is the reader. Each of
its steps says that what it leaves over is shorter than what it was given.
-/

namespace ContentGrammar

namespace Selector

/-- Why a text is no selector; each error names the whole text. -/
inductive ParseError
  | empty (selector : String)
  | unexpected (selector : String) (found : String)
  | unclosed (selector : String)
  deriving DecidableEq

/-- The wording of a parse error. -/
def ParseError.message : ParseError → String
  | .empty selector => "Empty selector in '" ++ selector ++ "'"
  | .unexpected selector found => "Unexpected '" ++ found ++ "' in selector '" ++ selector ++ "'"
  | .unclosed selector => "Unclosed ':not(' in selector '" ++ selector ++ "'"

/-- The error of a text that cannot go on as it does at `rest`. -/
def ParseError.at (source : String) : List Char → ParseError
  | [] => .empty source
  | c :: _ => .unexpected source (String.ofList [c])

/-! ### Splitting at commas -/

/-- Where a scan for commas is: how deep in brackets, and in which quotes. -/
structure Nesting where
  depth : Nat
  quote : Option Char

/-- The nesting after a character. -/
def Nesting.after (n : Nesting) (c : Char) : Nesting :=
  match n.quote with
  | some q => if c = q then ⟨n.depth, none⟩ else n
  | none =>
    if c = '"' ∨ c = '\'' then ⟨n.depth, some c⟩
    else if c = '(' ∨ c = '[' then ⟨n.depth + 1, none⟩
    else if c = ')' ∨ c = ']' then ⟨n.depth - 1, none⟩
    else n

/-- Whether a comma separates at this nesting. -/
def Nesting.isTop (n : Nesting) : Bool := n.depth == 0 && n.quote.isNone

/-- The pieces between separating commas; `piece` is the one begun, latest character first. -/
def splitFrom (n : Nesting) (piece : List Char) : List Char → List (List Char)
  | [] => [piece.reverse]
  | c :: cs =>
    if c = ',' ∧ n.isTop then piece.reverse :: splitFrom n [] cs
    else splitFrom (n.after c) (c :: piece) cs

/-- The pieces of a text between its separating commas. -/
def split (cs : List Char) : List (List Char) := splitFrom ⟨0, none⟩ [] cs

/-! ### Simple selectors -/

/-- The small and capital letters of ASCII. -/
def isLetter (c : Char) : Bool := c.isAlpha

/-- What a type name goes on with. -/
def isTypeChar (c : Char) : Bool := c.isAlphanum || c == '-'

/-- What ids, classes and unquoted values are made of. -/
def isWordChar (c : Char) : Bool := c.isAlphanum || c == '_' || c == '-'

/-- What an attribute name starts with. -/
def isAttributeStart (c : Char) : Bool := c.isAlpha || c == '_' || c == ':'

/-- What an attribute name goes on with. -/
def isAttributeChar (c : Char) : Bool :=
  c.isAlphanum || c == '_' || c == ':' || c == '.' || c == '-'

/-- A simple selector other than a negation. -/
inductive Simple
  | universal
  | type (name : String)
  | id (name : String)
  | cls (name : String)
  | attribute (test : AttributeTest)

/-- The longest non-empty run of characters in `p` at the start of `cs`, and the rest. -/
def run? (p : Char → Bool) (cs : List Char) : Option (List Char × List Char) :=
  let taken := cs.takeWhile p
  if taken.isEmpty then none else some (taken, cs.dropWhile p)

/-- The value of an attribute test and what follows it. -/
def value? : List Char → Option (List Char × List Char)
  | '"' :: cs =>
    match cs.dropWhile (· ≠ '"') with
    | _ :: rest => some (cs.takeWhile (· ≠ '"'), rest)
    | [] => none
  | '\'' :: cs =>
    match cs.dropWhile (· ≠ '\'') with
    | _ :: rest => some (cs.takeWhile (· ≠ '\''), rest)
    | [] => none
  | cs => run? isWordChar cs

/-- An attribute test after its opening bracket, and what follows it. -/
def attribute? (cs : List Char) : Option (AttributeTest × List Char) :=
  match trimStart cs with
  | [] => none
  | c :: cs =>
    if isAttributeStart c then
      let name := Ascii.lower (String.ofList (c :: cs.takeWhile isAttributeChar))
      match trimStart (cs.dropWhile isAttributeChar) with
      | ']' :: rest => some (⟨name, none⟩, rest)
      | '=' :: cs =>
        match value? (trimStart cs) with
        | none => none
        | some (value, cs) =>
          match trimStart cs with
          | ']' :: rest => some (⟨name, some (String.ofList value)⟩, rest)
          | _ => none
      | _ => none
    else none

/-- The simple selector at the start of `cs`, and what follows it. -/
def simple? : List Char → Option (Simple × List Char)
  | [] => none
  | c :: cs =>
    if c = '*' then some (.universal, cs)
    else if c = '#' then
      (run? isWordChar cs).map fun (name, rest) => (.id (String.ofList name), rest)
    else if c = '.' then
      (run? isWordChar cs).map fun (name, rest) => (.cls (String.ofList name), rest)
    else if c = '[' then (attribute? cs).map fun (test, rest) => (.attribute test, rest)
    else if isLetter c then
      let name := Ascii.lower (String.ofList (c :: cs.takeWhile isTypeChar))
      some (.type name, cs.dropWhile isTypeChar)
    else none

theorem length_dropWhile_le (p : Char → Bool) (cs : List Char) :
    (cs.dropWhile p).length ≤ cs.length :=
  (List.dropWhile_suffix p).length_le

theorem length_of_run? {p : Char → Bool} {cs a rest : List Char} (h : run? p cs = some (a, rest)) :
    rest.length ≤ cs.length := by
  simp only [run?] at h
  split at h
  · contradiction
  · obtain ⟨-, rfl⟩ := Prod.mk.inj (Option.some.inj h)
    exact length_dropWhile_le p cs

theorem length_of_value? {cs a rest : List Char} (h : value? cs = some (a, rest)) :
    rest.length ≤ cs.length := by
  unfold value? at h
  split at h
  · rename_i cs
    split at h
    · rename_i heq
      have := length_dropWhile_le (· ≠ '"') cs
      simp_all
      omega
    · contradiction
  · rename_i cs
    split at h
    · rename_i heq
      have := length_dropWhile_le (· ≠ '\'') cs
      simp_all
      omega
    · contradiction
  · exact length_of_run? h

theorem length_of_attribute? {cs rest : List Char} {t : AttributeTest}
    (h : attribute? cs = some (t, rest)) : rest.length ≤ cs.length := by
  unfold attribute? at h
  have hc := length_trimStart_le cs
  split at h
  · contradiction
  case h_2 c cs' hstart =>
    split at h
    case isFalse => contradiction
    case isTrue =>
      have hn := length_dropWhile_le isAttributeChar cs'
      have ht := length_trimStart_le (cs'.dropWhile isAttributeChar)
      split at h
      case h_1 heq => simp_all; omega
      case h_2 cs'' heq =>
        split at h
        case h_1 => contradiction
        case h_2 v cs3 hvalue =>
          have hv := length_of_value? hvalue
          have h2 := length_trimStart_le cs''
          have h3 := length_trimStart_le cs3
          split at h
          · simp_all; omega
          · contradiction
      · contradiction

theorem length_of_simple? {cs rest : List Char} {s : Simple} (h : simple? cs = some (s, rest)) :
    rest.length < cs.length := by
  unfold simple? at h
  split at h
  case h_1 => contradiction
  case h_2 c cs' =>
    have hd := length_dropWhile_le isTypeChar cs'
    simp only [List.length_cons]
    split at h
    · obtain ⟨-, rfl⟩ := Prod.mk.inj (Option.some.inj h); omega
    split at h
    · obtain ⟨⟨a, r⟩, hr, heq⟩ := Option.map_eq_some_iff.mp h
      have := length_of_run? hr
      obtain ⟨-, rfl⟩ := Prod.mk.inj heq; omega
    split at h
    · obtain ⟨⟨a, r⟩, hr, heq⟩ := Option.map_eq_some_iff.mp h
      have := length_of_run? hr
      obtain ⟨-, rfl⟩ := Prod.mk.inj heq; omega
    split at h
    · obtain ⟨⟨a, r⟩, hr, heq⟩ := Option.map_eq_some_iff.mp h
      have := length_of_attribute? hr
      obtain ⟨-, rfl⟩ := Prod.mk.inj heq; omega
    split at h
    · obtain ⟨-, rfl⟩ := Prod.mk.inj (Option.some.inj h); omega
    · contradiction

/-! ### Compounds -/

/-- What stands before the parenthesis that closes `depth` more than it opens, and what after. -/
def closing? (depth : Nat) : List Char → Option (List Char × List Char)
  | [] => none
  | c :: cs =>
    if c = ')' ∧ depth = 0 then some ([], cs)
    else
      let depth := if c = '(' then depth + 1 else if c = ')' then depth - 1 else depth
      (closing? depth cs).map fun (inner, rest) => (c :: inner, rest)

theorem length_of_closing? {depth : Nat} {cs inner rest : List Char}
    (h : closing? depth cs = some (inner, rest)) : inner.length + rest.length < cs.length := by
  induction cs generalizing depth inner rest with
  | nil => simp [closing?] at h
  | cons c cs ih =>
    unfold closing? at h
    split at h
    · obtain ⟨rfl, rfl⟩ := Prod.mk.inj (Option.some.inj h); simp
    · obtain ⟨⟨a, r⟩, hr, heq⟩ := Option.map_eq_some_iff.mp h
      have := ih hr
      obtain ⟨rfl, rfl⟩ := Prod.mk.inj heq
      simp only [List.length_cons]; omega

/-- What follows the start of a negation. -/
def negation? : List Char → Option (List Char)
  | ':' :: 'n' :: 'o' :: 't' :: '(' :: cs => some cs
  | _ => none

theorem length_of_negation? {cs rest : List Char} (h : negation? cs = some rest) :
    rest.length < cs.length := by
  unfold negation? at h
  split at h
  · obtain rfl := Option.some.inj h; simp only [List.length_cons]; omega
  · contradiction

/-- The compound with one more simple selector, which may be a type only if nothing precedes. -/
def Compound.add (c : Compound) : Simple → Compound
  | .universal => c
  | .type name => { c with tag := some name }
  | .id name => { c with ids := c.ids ++ [name] }
  | .cls name => { c with classes := c.classes ++ [name] }
  | .attribute test => { c with attributes := c.attributes ++ [test] }

/-- Whether a simple selector may only stand at the start of a compound. -/
def Simple.isType : Simple → Bool
  | .universal => true
  | .type _ => true
  | _ => false

/-- The compound at the start of `cs`, going on from `c`, and what follows it. The compound is
`begun` when some part of it has been read. -/
def parseCompound (source : String) (c : Compound) (begun : Bool) (cs : List Char) :
    Except ParseError (Compound × List Char) :=
  match _hn : negation? cs with
  | some inside =>
    match _hc : closing? 0 inside with
    | none => .error (.unclosed source)
    | some (inner, rest) => do
      let (negated, left) ← parseCompound source {} false (trim inner)
      if (trim left).isEmpty then
        parseCompound source { c with negations := c.negations ++ [negated] } true rest
      else .error (.at source left)
  | none =>
    match _hs : simple? cs with
    | some (s, rest) =>
      if begun && s.isType then .error (.at source cs)
      else parseCompound source (c.add s) true rest
    | none => if begun then .ok (c, cs) else .error (.at source cs)
termination_by cs.length
decreasing_by
  · have := length_of_negation? _hn
    have := length_of_closing? _hc
    have := length_trim_le inner
    omega
  · have := length_of_negation? _hn
    have := length_of_closing? _hc
    omega
  · exact length_of_simple? _hs

theorem length_of_parseCompound {source : String} {c d : Compound} {begun : Bool}
    {cs rest : List Char} (h : parseCompound source c begun cs = .ok (d, rest)) :
    rest.length ≤ cs.length ∧ (begun = false → rest.length < cs.length) := by
  fun_induction parseCompound source c begun cs generalizing d rest with
  | case1 => simp at h
  | case2 c begun cs inside hn inner after hc ih1 ih2 =>
    have := length_of_negation? hn
    have := length_of_closing? hc
    simp only [bind, Except.bind] at h
    split at h
    · contradiction
    · split at h
      · have := (ih2 _ h).1
        constructor <;> intros <;> omega
      · contradiction
  | case3 c cs hn s after hs htype => simp at h
  | case4 c begun cs hn s after hs htype ih =>
    have := length_of_simple? hs
    have := (ih h).1
    constructor <;> intros <;> omega
  | case5 c cs hn hs =>
    obtain ⟨-, rfl⟩ := Prod.mk.inj (Except.ok.inj h)
    simp
  | case6 => simp at h

/-! ### Alternatives and the whole text -/

/-- The rest of an alternative, which so far is `before`; `joint` says how its next compound stands
to it. -/
def parseComplex (source : String) (before : Option Complex) (joint : Combinator)
    (cs : List Char) : Except ParseError Complex :=
  if cs.isEmpty then
    match before with
    | none => .error (.empty source)
    | some s => .ok s
  else
    match _hp : parseCompound source {} false cs with
    | .error e => .error e
    | .ok (c, left) =>
      let s : Complex := match before with
        | none => ⟨c, []⟩
        | some b => ⟨c, (joint, b.subject) :: b.context⟩
      match _ht : trimStart left with
      | '>' :: after =>
        let after' := trimStart after
        if after'.isEmpty then .error (.unexpected source ">")
        else parseComplex source (some s) .child after'
      | rest =>
        if rest.isEmpty || rest.length < left.length then
          parseComplex source (some s) .descendant rest
        else .error (.at source rest)
termination_by cs.length
decreasing_by
  · have := (length_of_parseCompound _hp).2 rfl
    have := length_trimStart_le left
    have := length_trimStart_le after
    simp_all
    omega
  · have := (length_of_parseCompound _hp).2 rfl
    have := length_trimStart_le left
    simp_all
    omega

/-- The selector that a text writes. -/
def parse (source : String) : Except ParseError Selector := do
  let alternatives ← (split source.toList).mapM fun piece =>
    parseComplex source none .descendant (trim piece)
  return ⟨trimmed source, alternatives⟩

end Selector

end ContentGrammar
