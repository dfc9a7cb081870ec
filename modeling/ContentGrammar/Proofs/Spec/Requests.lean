import ContentGrammar.Proofs.Pattern.Marks
import ContentGrammar.Proofs.Spec.Inheritance

/-!
# Requests to a memo

While a document is checked, one memo answers request after request: for the pattern of a node, or
for that of a model put on a node. `answers` runs such requests, and `expected` says what to answer
with no memo at all.

The marks that `answers` gives out depend on nothing but the pattern that is compiled. To see that
nothing hangs on that, `Run` describes all the ways in which requests may be answered when each time
that a model is compiled its exclusions get whatever marks tell them apart.

* `requests_without_memo` — what the memo answers, and what it holds at any time, is what there is
  without it; and with other marks it is the same up to a renaming of marks.
-/

namespace ContentGrammar

/-- What a memo is asked for. -/
inductive Request
  /-- The pattern of the model that applies to a place. -/
  | ofPlace (p : Place)
  /-- The pattern of another model put on a place. -/
  | ofModel (p : Place) (m : Model)

/-- The place that a request is about. -/
def Request.place : Request → Place
  | .ofPlace p => p
  | .ofModel p _ => p

/-- The memo with what has come out for a number, if that is a pattern. -/
def Memo.keep (memo : Memo) (id : Nat) : Except ModelError Pattern → Memo
  | .ok p => memo.insert id p
  | .error _ => memo

namespace Spec

/-- The answer to a request without a memo. -/
def expected (s : Spec) : Request → Except ModelError Pattern
  | .ofPlace p => s.patternAt p
  | .ofModel p m => s.patternOf m p.above

/-- The answer to a request, and the memo after it. -/
def answer (s : Spec) (memo : Memo) : Request → Except ModelError Pattern × Memo
  | .ofPlace p => s.patternFor memo p.node.head p.above
  | .ofModel p m => s.compileAt memo m p.above

/-- The answers to requests one after the other, and the memo after them. -/
def answers (s : Spec) (memo : Memo) : List Request → List (Except ModelError Pattern) × Memo
  | [] => ([], memo)
  | r :: rs =>
    let (result, memo) := s.answer memo r
    let (results, memo) := s.answers memo rs
    (result :: results, memo)

mutual

/-- `Resolves s memo h above r memo'`: with `above` around it, the pattern of the model on the node
`h` comes out as `r`, with some marks or other, and the memo goes from `memo` to `memo'`. -/
inductive Resolves (s : Spec) : Memo → Head → List Head → Except ModelError Pattern → Memo → Prop
  | known {memo h above p} : memo[h.id]? = some p → Resolves s memo h above (.ok p) memo
  | missing {memo h above r memo'} : memo[h.id]? = none →
      Compiles s memo (s.modelOf h above) above r memo' →
      Resolves s memo h above r (memo'.keep h.id r)

/-- `Compiles s memo m above r memo'`: with `above` around it, the model `m` is compiled to `r`, with
some marks or other, and the memo goes from `memo` to `memo'`. -/
inductive Compiles (s : Spec) :
    Memo → Model → List Head → Except ModelError Pattern → Memo → Prop
  | alone {memo m above r} : m.inherits = false ∨ above = [] →
      m.CompilesTo s.categories none r → Compiles s memo m above r memo
  | inheriting {memo m e around p r memo'} : m.inherits = true →
      Resolves s memo e around (.ok p) memo' → m.CompilesTo s.categories (some p) r →
      Compiles s memo m (e :: around) r memo'
  | failing {memo m e around err memo'} : m.inherits = true →
      Resolves s memo e around (.error err) memo' →
      Compiles s memo m (e :: around) (.error err) memo'

end

/-- How a request may be answered, whatever marks are given out. -/
def Serves (s : Spec) (memo : Memo) : Request → Except ModelError Pattern → Memo → Prop
  | .ofPlace p, r, memo' => s.Resolves memo p.node.head p.above r memo'
  | .ofModel p m, r, memo' => s.Compiles memo m p.above r memo'

/-- How requests may be answered one after the other, whatever marks are given out. -/
inductive Run (s : Spec) : Memo → List Request → List (Except ModelError Pattern) → Memo → Prop
  | nil {memo} : Run s memo [] [] memo
  | cons {memo request result memo' requests results memo''} :
      s.Serves memo request result memo' → Run s memo' requests results memo'' →
      Run s memo (request :: requests) (result :: results) memo''

end Spec

/-- A memo of patterns of places of a document, except for their marks. -/
def Memo.Fits (s : Spec) (d : Document) (memo : Memo) : Prop :=
  ∀ (id : Nat) (q : Pattern), memo[id]? = some q →
    ∃ p ∈ d.places, p.node.id = id ∧ AlikeResult (s.patternAt p) (.ok q)

namespace Spec

variable {s : Spec} {d : Document} {memo memo' : Memo} {m : Model} {p : Place} {e h : Head}
  {above around : List Head} {q : Pattern} {r : Except ModelError Pattern}

/-! ## The marks that are given out -/

theorem patternFor_miss (hn : memo[h.id]? = none) : s.patternFor memo h above =
    ((s.compileAt memo (s.modelOf h above) above).1,
      (s.compileAt memo (s.modelOf h above) above).2.keep h.id
        (s.compileAt memo (s.modelOf h above) above).1) := by
  have hremember : ∀ m parent memo, s.remember h.id m parent memo =
      (m.compile s.categories parent, Memo.keep memo h.id (m.compile s.categories parent)) := by
    intro m parent memo
    rw [remember]
    cases m.compile s.categories parent <;> rfl
  cases hi : (s.modelOf h above).inherits with
  | false =>
    rw [patternFor_alone hn (.inl hi), hremember, compileAt.eq_def, hi, if_neg Bool.false_ne_true]
  | true =>
    cases above with
    | nil =>
      rw [patternFor_alone hn (.inr rfl), hremember, compileAt.eq_def, hi, if_pos rfl]
    | cons e around =>
      rw [patternFor_inheriting hn hi, compileAt.eq_def, hi, if_pos rfl]
      dsimp only
      cases hr : s.patternFor memo e around with
      | mk result memo' =>
        cases result with
        | error err => rfl
        | ok q => exact hremember _ _ _

/-- Compiling a model is a way to compile it, provided that patterns for what it inherits are found
in a way to find them. -/
theorem compiles_compileAt_of (hres : ∀ e around, above = e :: around →
      s.Resolves memo e around (s.patternFor memo e around).1 (s.patternFor memo e around).2) :
    s.Compiles memo m above (s.compileAt memo m above).1 (s.compileAt memo m above).2 := by
  rw [compileAt.eq_def]
  cases hi : m.inherits with
  | false => exact .alone (.inl hi) (Model.compilesTo_compile _ _ _)
  | true =>
    cases above with
    | nil => exact .alone (.inr rfl) (Model.compilesTo_compile _ _ _)
    | cons e around =>
      have hres := hres e around rfl
      rw [if_pos rfl]
      dsimp only
      cases hr : s.patternFor memo e around with
      | mk result memo' =>
        rw [hr] at hres
        cases result with
        | error err => exact .failing hi hres
        | ok q => exact .inheriting hi hres (Model.compilesTo_compile _ _ _)

theorem resolves_patternFor (s : Spec) (memo : Memo) (h : Head) (above : List Head) :
    s.Resolves memo h above (s.patternFor memo h above).1 (s.patternFor memo h above).2 := by
  induction above generalizing h with
  | nil =>
    cases hn : memo[h.id]? with
    | some q => exact patternFor_hit hn ▸ .known hn
    | none =>
      rw [patternFor_miss hn]
      exact .missing hn (compiles_compileAt_of nofun)
  | cons e around ih =>
    cases hn : memo[h.id]? with
    | some q => exact patternFor_hit hn ▸ .known hn
    | none =>
      rw [patternFor_miss hn]
      refine .missing hn (compiles_compileAt_of fun e' around' heq => ?_)
      obtain ⟨rfl, rfl⟩ := List.cons.inj heq
      exact ih e

/-- The answers of the memo are one of the ways to answer. -/
theorem run_answers (s : Spec) (memo : Memo) (rs : List Request) :
    s.Run memo rs (s.answers memo rs).1 (s.answers memo rs).2 := by
  induction rs generalizing memo with
  | nil => exact .nil
  | cons request rs ih =>
    refine .cons ?_ (ih _)
    cases request with
    | ofPlace p => exact resolves_patternFor s memo _ _
    | ofModel p m => exact compiles_compileAt_of fun e around _ => resolves_patternFor s memo e around

/-! ## Other marks -/

theorem fits_empty : Memo.Fits s d ∅ := by
  intro id q hq
  rw [Std.HashMap.getElem?_empty] at hq
  cases hq

theorem fits_keep (hm : Memo.Fits s d memo) (hp : p ∈ d.places)
    (hr : AlikeResult (s.patternAt p) r) : Memo.Fits s d (memo.keep p.node.id r) := by
  cases r with
  | error err => exact hm
  | ok q =>
    intro id q' hq'
    rw [Memo.keep, Std.HashMap.getElem?_insert] at hq'
    split at hq'
    · rename_i heq
      obtain rfl := Option.some.inj hq'
      exact ⟨p, hp, beq_iff_eq.mp heq, hr⟩
    · exact hm id q' hq'

theorem patternOf_inheriting (hi : m.inherits = true) : s.patternOf m (e :: around) =
    match s.patternOf (s.modelOf e around) around with
    | .ok p => m.compile s.categories (some p)
    | .error err => .error err := by
  rw [patternOf]
  exact if_pos hi

/-- Compiling a model gives its pattern except for marks, provided that the patterns for what it
inherits are right except for marks. -/
theorem compiles_spec_of (hm : Memo.Fits s d memo)
    (hres : ∀ e around r memo', above = e :: around → s.Resolves memo e around r memo' →
      AlikeResult (s.patternOf (s.modelOf e around) around) r ∧ Memo.Fits s d memo')
    (h : s.Compiles memo m above r memo') :
    AlikeResult (s.patternOf m above) r ∧ Memo.Fits s d memo' := by
  cases h with
  | alone halone hr =>
    have hpattern : s.patternOf m above = m.compile s.categories none := by
      rcases halone with hi | rfl
      · exact patternOf_of_not_inherits hi
      · rfl
    rw [hpattern]
    exact ⟨hr.alike .none, hm⟩
  | inheriting hi hp hr =>
    obtain ⟨halike, hfits⟩ := hres _ _ _ _ rfl hp
    rw [patternOf_inheriting hi]
    -- only that the inherited patterns are alike matters
    generalize s.patternOf (s.modelOf _ _) _ = x at halike ⊢
    cases halike with
    | ok hq => exact ⟨hr.alike (.some hq), hfits⟩
  | failing hi he =>
    obtain ⟨halike, hfits⟩ := hres _ _ _ _ rfl he
    rw [patternOf_inheriting hi]
    generalize s.patternOf (s.modelOf _ _) _ = x at halike ⊢
    cases halike with
    | error => exact ⟨.error _, hfits⟩

/-- Numbers stand for single places, so what the memo has under the number of a place is the pattern
of that place except for its marks. -/
theorem alike_of_memo (hd : d.Numbered) (hm : Memo.Fits s d memo) (hp : p ∈ d.places)
    (hq : memo[p.node.id]? = some q) : AlikeResult (s.patternAt p) (.ok q) := by
  obtain ⟨p', hp', hid, hq'⟩ := hm _ _ hq
  rwa [hd.eq_of_id hp' hp hid] at hq'

theorem resolves_spec (hd : d.Numbered) (hm : Memo.Fits s d memo) (hp : p ∈ d.places)
    (h : s.Resolves memo p.node.head p.above r memo') :
    AlikeResult (s.patternAt p) r ∧ Memo.Fits s d memo' := by
  induction hab : p.above generalizing p memo r memo' with
  | nil =>
    cases h with
    | known hq => exact ⟨alike_of_memo hd hm hp hq, hm⟩
    | missing hn hr =>
      obtain ⟨halike, hfits⟩ := compiles_spec_of hm (fun _ _ _ _ heq => by
        rw [hab] at heq
        cases heq) hr
      exact ⟨halike, fits_keep hfits hp halike⟩
  | cons e around ih =>
    cases h with
    | known hq => exact ⟨alike_of_memo hd hm hp hq, hm⟩
    | missing hn hr =>
      obtain ⟨halike, hfits⟩ := compiles_spec_of hm (fun e' around' r' memo'' heq h' => by
        -- the nearest element around `p` is a place of its own
        rw [hab] at heq
        obtain ⟨rfl, rfl⟩ := List.cons.inj heq
        obtain ⟨p', hp', -, rfl, rfl⟩ := Document.exists_place_of_above hp hab
        exact ih hm hp' h' rfl) hr
      exact ⟨halike, fits_keep hfits hp halike⟩

theorem serves_spec (hd : d.Numbered) (hm : Memo.Fits s d memo) {request : Request}
    (hp : request.place ∈ d.places) (h : s.Serves memo request r memo') :
    AlikeResult (s.expected request) r ∧ Memo.Fits s d memo' := by
  cases request with
  | ofPlace p => exact resolves_spec hd hm hp h
  | ofModel p m =>
    refine compiles_spec_of hm (fun e around r memo' hab h' => ?_) h
    obtain ⟨p', hp', -, rfl, rfl⟩ := Document.exists_place_of_above hp hab
    exact resolves_spec hd hm hp' h'

theorem run_spec (hd : d.Numbered) (hm : Memo.Fits s d memo) {rs : List Request}
    (hrs : ∀ request ∈ rs, request.place ∈ d.places) {results : List (Except ModelError Pattern)}
    (h : s.Run memo rs results memo') :
    List.Forall₂ AlikeResult (rs.map s.expected) results ∧ Memo.Fits s d memo' := by
  induction h with
  | nil => exact ⟨.nil, hm⟩
  | cons hserves _ ih =>
    obtain ⟨halike, hfits⟩ := serves_spec hd hm (hrs _ List.mem_cons_self) hserves
    obtain ⟨hothers, hfits⟩ := ih hfits fun r hr => hrs r (List.mem_cons_of_mem _ hr)
    exact ⟨.cons halike hothers, hfits⟩

/-! ## The answers of the memo -/

theorem answer_spec (hd : d.Numbered) (hm : Memo.Valid s d memo) {request : Request}
    (hp : request.place ∈ d.places) :
    (s.answer memo request).1 = s.expected request ∧
      Memo.Valid s d (s.answer memo request).2 := by
  cases request with
  | ofPlace p => exact patternFor_spec hd hm hp
  | ofModel p m => exact compileAt_spec hd hm hp m

theorem answers_spec (hd : d.Numbered) (hm : Memo.Valid s d memo) {rs : List Request}
    (hrs : ∀ request ∈ rs, request.place ∈ d.places) :
    (s.answers memo rs).1 = rs.map s.expected ∧ Memo.Valid s d (s.answers memo rs).2 := by
  induction rs generalizing memo with
  | nil => exact ⟨rfl, hm⟩
  | cons request rs ih =>
    obtain ⟨hresult, hvalid⟩ := answer_spec hd hm (hrs request List.mem_cons_self)
    obtain ⟨hresults, hvalid⟩ := ih hvalid fun r hr => hrs r (List.mem_cons_of_mem _ hr)
    refine ⟨?_, hvalid⟩
    rw [List.map_cons, ← hresult, ← hresults]
    rfl

/-- Whatever is asked of a memo about places of a document, in whatever order and whether it can be
answered or not, the answers are those that there are without a memo, and after any number of requests
the memo holds nothing but patterns of places. This does not depend on the marks that are given out:
the answers are one of the runs in which whatever is compiled gets whatever marks, and in each of
those the answers and what the memo holds are the same except for a renaming of marks one to one. -/
theorem requests_without_memo (s : Spec) (forest : List Markup) (rs : List Request)
    (hrs : ∀ request ∈ rs, request.place ∈ (Document.ofMarkup forest).places) :
    (s.answers ∅ rs).1 = rs.map s.expected ∧
    (∀ n, Memo.Valid s (Document.ofMarkup forest) (s.answers ∅ (rs.take n)).2) ∧
    s.Run ∅ rs (s.answers ∅ rs).1 (s.answers ∅ rs).2 ∧
    ∀ results memo, s.Run ∅ rs results memo →
      List.Forall₂ AlikeResult (rs.map s.expected) results ∧
      Memo.Fits s (Document.ofMarkup forest) memo := by
  have hd := Document.numbered_ofMarkup forest
  refine ⟨(answers_spec hd valid_empty hrs).1, fun n => ?_, run_answers s ∅ rs,
    fun results memo h => run_spec hd fits_empty hrs h⟩
  exact (answers_spec hd valid_empty fun r hr => hrs r (List.mem_of_mem_take hr)).2

/-- A link in a paragraph takes what the paragraph takes, which is asked for after that. -/
theorem requests_without_memo_link :
    let s : Spec := ⟨(Dictionary.empty.insert "a" ⟨.optional .transparent, []⟩).insert "p"
      ⟨.text, []⟩, .empty⟩
    let d := Document.ofMarkup [.element "p" .empty [.element "a" .empty [] none] none]
    let requests := d.places.reverse.map Request.ofPlace
    (∀ request ∈ requests, request.place ∈ d.places) ∧
    (s.answers ∅ requests).1 =
      [.ok (.repeated (.labeled .transparent (.token (.oneOf (.singleton textName)))) 0 (some 1)),
        .ok (.token (.oneOf (.singleton textName))), .ok .any] := by
  intro s d requests
  have hrequests : ∀ request ∈ requests, request.place ∈ d.places := by
    intro request hrequest
    obtain ⟨p, hp, rfl⟩ := List.mem_map.mp hrequest
    exact List.mem_reverse.mp hp
  exact ⟨hrequests, (requests_without_memo s _ requests hrequests).1.trans rfl⟩

end Spec

end ContentGrammar
