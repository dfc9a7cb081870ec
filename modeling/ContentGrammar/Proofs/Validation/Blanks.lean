import ContentGrammar.Proofs.Document.Order
import ContentGrammar.Proofs.Validation.Locality

/-!
# White space between nodes

Texts that are white space alone are no content. Putting some into a document or leaving some out, at
any depth, moves the numbers of the nodes behind them and changes nothing else in the report
(`blanks_unseen`): the two documents are alike once such texts are left out (`SameButBlanks.like`).
-/

namespace ContentGrammar

/-- `SameButBlanks ms ms'`: putting in and leaving out texts of white space alone, at any depth, leads
from the nodes `ms` to the nodes `ms'`. -/
inductive SameButBlanks : List Markup → List Markup → Prop
  | nil : SameButBlanks [] []
  | left {blank ms ms'} : blank.toList.all isSpace = true → SameButBlanks ms ms' →
      SameButBlanks (.text blank :: ms) ms'
  | right {blank ms ms'} : blank.toList.all isSpace = true → SameButBlanks ms ms' →
      SameButBlanks ms (.text blank :: ms')
  | text {content ms ms'} : SameButBlanks ms ms' →
      SameButBlanks (.text content :: ms) (.text content :: ms')
  | element {name attributes children children' position ms ms'} :
      SameButBlanks children children' → SameButBlanks ms ms' →
      SameButBlanks (.element name attributes children position :: ms)
        (.element name attributes children' position :: ms')

/-- The numbers of the nodes among places that are content. -/
def contentNumbers (ps : List Place) : List Nat := (ps.filter (·.node.isContent)).map (·.node.id)

/-! ## Numbers of nodes that are content -/

theorem contentNumbers_append (ps qs : List Place) :
    contentNumbers (ps ++ qs) = contentNumbers ps ++ contentNumbers qs := by
  simp [contentNumbers]

theorem isContent_text (id : Nat) (content : String) :
    (Node.text id content).isContent = !content.toList.all isSpace := by
  rw [Node.isContent, Node.token?]
  by_cases hblank : content.toList.all isSpace = true
  · rw [if_pos hblank, hblank]
    rfl
  · rw [if_neg hblank, Bool.eq_false_iff.mpr hblank]
    rfl

theorem contentNumbers_text (id : Nat) (content : String) (above : List Head) :
    contentNumbers [⟨.text id content, above⟩] =
      if content.toList.all isSpace then [] else [id] := by
  rw [contentNumbers, List.filter_cons, isContent_text]
  cases content.toList.all isSpace <;> rfl

theorem Document.Numbered.pairwise_contentNumbers {d : Document} (hd : d.Numbered) :
    (contentNumbers d.places).Pairwise (· < ·) := by
  have hids : (d.places.map (·.node.id)).Pairwise (· < ·) := hd ▸ List.pairwise_lt_range
  exact List.pairwise_map.mpr ((List.pairwise_map.mp hids).filter _)

/-- Of two ordered lists of the same length, one comes from the other by a renaming that keeps the
order. -/
theorem exists_renaming {xs ys : List Nat} (hx : xs.Pairwise (· < ·)) (hy : ys.Pairwise (· < ·))
    (hlength : ys.length = xs.length) :
    ∃ f : Nat → Nat, ys = xs.map f ∧ ∀ m ∈ xs, ∀ n ∈ xs, m < n → f m < f n := by
  induction xs generalizing ys with
  | nil => exact ⟨id, List.eq_nil_of_length_eq_zero hlength, nofun⟩
  | cons x xs ih =>
    cases ys with
    | nil => cases hlength
    | cons y ys =>
      obtain ⟨hxs, hx⟩ := List.pairwise_cons.mp hx
      obtain ⟨hys, hy⟩ := List.pairwise_cons.mp hy
      obtain ⟨f, rfl, hf⟩ := ih hx hy (Nat.succ.inj hlength)
      -- what comes after `x` is different from it
      have hother : ∀ n ∈ xs, (if n = x then y else f n) = f n :=
        fun n hn => if_neg (Nat.ne_of_gt (hxs n hn))
      refine ⟨fun n => if n = x then y else f n, ?_, ?_⟩
      · rw [List.map_cons, if_pos rfl, List.map_congr_left hother]
      · intro m hm n hn hlt
        dsimp only
        rcases List.mem_cons.mp hm with rfl | hm'
        · rcases List.mem_cons.mp hn with rfl | hn'
          · exact absurd hlt (Nat.lt_irrefl _)
          · rw [if_pos rfl, hother n hn']
            exact hys _ (List.mem_map.mpr ⟨n, hn', rfl⟩)
        · rcases List.mem_cons.mp hn with rfl | hn'
          · exact absurd (hxs m hm') (Nat.lt_asymm hlt)
          · rw [hother m hm', hother n hn']
            exact hf m hm' n hn' hlt

/-! ## Nodes that are the same but for blanks -/

namespace Node

/-- The numbers of content in nodes that are numbered from `start` on. -/
def contentFrom (start : Nat) (above : List Head) (ms : List Markup) : List Nat :=
  contentNumbers (placesAll above (numberAll start ms).1)

variable {start : Nat} {above : List Head} {ms children : List Markup}

theorem contentFrom_text (content : String) : contentFrom start above (.text content :: ms) =
    (if content.toList.all isSpace then [] else [start]) ++ contentFrom (start + 1) above ms := by
  rw [← contentNumbers_text _ _ above]
  exact contentNumbers_append _ _

theorem contentFrom_element (name : String) (attributes : Dictionary String)
    (position : Option Position) :
    contentFrom start above (.element name attributes children position :: ms) =
      start :: (contentFrom (start + 1) (headOf start name attributes position :: above) children ++
        contentFrom (numberAll (start + 1) children).2 above ms) :=
  congrArg (start :: ·) (contentNumbers_append _ _)

end Node

namespace SameButBlanks

open Node (contentFrom contentFrom_text contentFrom_element numberAll AllLike)

variable {ms ms' : List Markup}

theorem length_contentFrom (h : SameButBlanks ms ms') (start start' : Nat)
    (above above' : List Head) :
    (contentFrom start' above' ms').length = (contentFrom start above ms).length := by
  induction h generalizing start start' above above' with
  | nil => rfl
  | left hblank _ ih =>
    rw [contentFrom_text, if_pos hblank]
    exact ih _ _ _ _
  | right hblank _ ih =>
    rw [contentFrom_text, if_pos hblank]
    exact ih _ _ _ _
  | @text content _ _ _ ih =>
    rw [contentFrom_text, contentFrom_text, List.length_append, List.length_append, ih]
    split <;> rfl
  | element _ _ ihchildren ih =>
    rw [contentFrom_element, contentFrom_element, List.length_cons, List.length_cons,
      List.length_append, List.length_append, ihchildren, ih]

/-- Nodes that are the same but for blanks are alike, if the numbers of what is content in them come
from each other by a renaming. -/
theorem like {f : Nat → Nat} (h : SameButBlanks ms ms') {start start' : Nat}
    {above above' : List Head}
    (hf : contentFrom start' above' ms' = (contentFrom start above ms).map f) :
    AllLike f (numberAll start ms).1 (numberAll start' ms').1 := by
  induction h generalizing start start' above above' with
  | nil => exact .nil
  | left hblank _ ih =>
    rw [contentFrom_text, if_pos hblank] at hf
    exact .left (by rw [isContent_text, hblank]; rfl) (ih hf)
  | right hblank _ ih =>
    rw [contentFrom_text, if_pos hblank] at hf
    exact .right (by rw [isContent_text, hblank]; rfl) (ih hf)
  | @text content _ _ _ ih =>
    rw [contentFrom_text, contentFrom_text] at hf
    by_cases hblank : content.toList.all isSpace = true
    · rw [if_pos hblank, if_pos hblank] at hf
      have hcontent : ∀ id, (Node.text id content).isContent = false := fun id => by
        rw [isContent_text, hblank]
        rfl
      exact .left (hcontent _) (.right (hcontent _) (ih hf))
    · rw [if_neg hblank, if_neg hblank] at hf
      obtain ⟨hid, hrest⟩ := List.cons.inj hf
      exact .cons (hid ▸ .text start content) (ih hrest)
  | @element name attributes children children' position _ _ hchildren _ ihchildren ih =>
    rw [contentFrom_element, contentFrom_element, List.map_cons, List.map_append] at hf
    obtain ⟨hid, hrest⟩ := List.cons.inj hf
    -- the numbers inside the element come before those behind it
    obtain ⟨hinside, hbehind⟩ := List.append_inj hrest (by
      rw [List.length_map]
      exact hchildren.length_contentFrom _ _ _ _)
    exact .cons (.element (Head.resembles_of_face rfl) hid rfl (ihchildren hinside)) (ih hbehind)

end SameButBlanks

/-! ## Reports -/

/-- Each node of content has one token. -/
theorem forall₂_tokensOf {ps : List Place} (h : ∀ p ∈ ps, p.node.isContent = true) :
    List.Forall₂ (fun p t => p.node.token? = some t) ps (tokensOf ps) := by
  induction ps with
  | nil => exact .nil
  | cons p ps ih =>
    obtain ⟨t, ht⟩ := Option.isSome_iff_exists.mp (h p List.mem_cons_self)
    rw [tokensOf, List.filterMap_cons, ht]
    exact .cons ht (ih fun q hq => h q (List.mem_cons_of_mem _ hq))

/-- The numbers of nodes in a report. -/
def Report.numbers (r : Report) : List Nat := (⟨r.violations, r.warnings⟩ : Outcome).numbers

namespace Document

variable {d : Document}

/-- The numbers in a report are those of nodes that are content. -/
theorem mem_contentNumbers_of_report (hd : d.Numbered) {s : Spec} {settings : Settings} {n : Nat}
    (h : n ∈ (d.check s settings).numbers) : n ∈ contentNumbers d.places := by
  have hmem : ∀ p ∈ d.places, p.node.isContent = true → p.node.id ∈ contentNumbers d.places :=
    fun p hp hcontent => List.mem_map.mpr ⟨p, List.mem_filter.mpr ⟨hp, hcontent⟩, rfl⟩
  have hreport : (d.check s settings).numbers =
      (Outcome.flatten (d.elements.map (s.outcomeAt settings.rules))).numbers := by
    rw [check_eq hd, Report.numbers, Outcome.flatten, List.flatMap_map, List.flatMap_map]
  rw [hreport, Outcome.mem_numbers_flatten] at h
  obtain ⟨o, ho, hn⟩ := h
  obtain ⟨p, hp, rfl⟩ := List.mem_map.mp ho
  obtain ⟨hplace, helement⟩ := List.mem_filter.mp hp
  rcases Spec.of_mem_outcomeAt hn with rfl | ⟨c, hc, rfl⟩
  · exact hmem p hplace (Place.isContent_of_isElement helement)
  · obtain ⟨hchild, hcontent⟩ := List.mem_filter.mp hc
    exact hmem c (mem_places_of_mem_children hplace hchild) hcontent

end Document

/-- Putting texts of white space into a document or leaving such texts out, at any depth, changes
nothing in the report but the numbers of nodes, which are renamed in their order: there is the same
number of elements, and there are the same violations and warnings, in the same order. The numbers in
the report are among those that are renamed. The tokens of the children of a node are those of its
content, one for each. -/
theorem blanks_unseen {forest forest' : List Markup} (h : SameButBlanks forest forest') (s : Spec)
    (settings : Settings) :
    let d := Document.ofMarkup forest
    let d' := Document.ofMarkup forest'
    (∃ f : Nat → Nat,
      contentNumbers d'.places = (contentNumbers d.places).map f ∧
      (∀ m ∈ contentNumbers d.places, ∀ n ∈ contentNumbers d.places, m < n → f m < f n) ∧
      d'.validate s settings = (d.validate s settings).map (Report.renumber f)) ∧
    (∀ r, d.validate s settings = .ok r → ∀ n ∈ r.numbers, n ∈ contentNumbers d.places) ∧
    ∀ p ∈ d.places, tokensOf p.children = tokensOf p.content ∧
      List.Forall₂ (fun c t => c.node.token? = some t) p.content (tokensOf p.content) := by
  intro d d'
  have hd : d.Numbered := Document.numbered_ofMarkup forest
  have hd' : d'.Numbered := Document.numbered_ofMarkup forest'
  refine ⟨?_, ?_, fun p _ => ⟨(tokensOf_content p).symm, forall₂_tokensOf fun c hc =>
    (List.mem_filter.mp hc).2⟩⟩
  · -- the document node is no content
    have hlength : (contentNumbers d'.places).length = (contentNumbers d.places).length :=
      h.length_contentFrom 1 1 [] []
    obtain ⟨f, hf, hmono⟩ :=
      exists_renaming hd.pairwise_contentNumbers hd'.pairwise_contentNumbers hlength
    have hlike : Node.AllLike f d.children d'.children := h.like hf
    exact ⟨f, hf, hmono, Document.validate_like hd hd' hlike s (AllAlike.refl settings.rules)⟩
  · intro r hr n hn
    obtain ⟨_, -, hr⟩ := ok_of_bind hr
    obtain rfl := Except.ok.inj hr
    exact Document.mem_contentNumbers_of_report hd hn

/-- A paragraph of which the model cannot be used, where it stands alone and where a line is broken
before and inside it. -/
theorem blanks_unseen_paragraph :
    let s : Spec := ⟨Dictionary.empty.insert "p" ⟨.category "#flow", []⟩, .empty⟩
    let forest := [Markup.element "p" .empty [.text "x"] none]
    let forest' := [Markup.text "\n", .element "p" .empty [.text " ", .text "x"] none]
    SameButBlanks forest forest' ∧
    (Document.ofMarkup forest).validate s {} =
      .ok ⟨1, [], [⟨1, "p", none, .unknownCategory "#flow"⟩]⟩ ∧
    (Document.ofMarkup forest').validate s {} =
      .ok ⟨1, [], [⟨2, "p", none, .unknownCategory "#flow"⟩]⟩ := by
  intro s forest forest'
  have hsame : SameButBlanks forest forest' :=
    .right (by decide) (.element (.right (by decide) (.text .nil)) .nil)
  have hreport : (Document.ofMarkup forest).validate s {} =
      .ok ⟨1, [], [⟨1, "p", none, .unknownCategory "#flow"⟩]⟩ := by
    show Except.ok ((Document.ofMarkup forest).check s {}) = _
    rw [Document.check_eq (Document.numbered_ofMarkup forest)]
    rfl
  obtain ⟨⟨f, hf, -, hvalidate⟩, -⟩ := blanks_unseen hsame s {}
  -- the paragraph is the first node of content in both
  have hone : [2, 4] = [1, 2].map f := hf
  refine ⟨hsame, hreport, ?_⟩
  rw [hvalidate, hreport, show (2 : Nat) = f 1 from (List.cons.inj hone).1]
  rfl

end ContentGrammar
