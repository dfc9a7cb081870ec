import ContentGrammar.Document.Arena
import ContentGrammar.Proofs.Document.Numbering

/-!
# What a table of nodes is filled with

Filling in a list of nodes links them with the node that they are put into and appends the entries of
all that they contain (`Inserts`). So the table of a document has the entries of its places in document
order (`Arena.entries_of_ofMarkup`), and there is one as long as there are numbers for all of them
(`Arena.ofMarkup_eq_ok_iff`).
-/

namespace ContentGrammar

open Arena (maxId elementEntry)
open Node (number numberAll placesAll headOf)

/-- The number of what is around a node: the nearest element, or else the document. -/
def numberAround (above : List Head) : Nat := (above.head?.map Head.id).getD 0

/-- What a table has of the node of a place. -/
def Place.entry (p : Place) : Arena.Entry :=
  match p.node with
  | .document ns => { kind := .document, name := "#document", children := ns.map Node.id }
  | .text _ content =>
    { kind := .text, name := "#text", text := content, parent := some (numberAround p.above) }
  | .element head ns =>
    { kind := .element, name := head.name, attributes := head.attributes, position := head.position
      parent := some (numberAround p.above), children := ns.map Node.id }

/-! ## Changing one entry of a list -/

theorem modify_append_of_lt {α : Type} {f : α → α} {xs ys : List α} {i : Nat} (h : i < xs.length) :
    (xs ++ ys).modify i f = xs.modify i f ++ ys := by
  induction xs generalizing i with
  | nil => cases h
  | cons x xs ih =>
    cases i with
    | zero => rfl
    | succ i => exact congrArg (x :: ·) (ih (Nat.lt_of_succ_lt_succ h))

theorem modify_concat {α : Type} {f : α → α} {xs : List α} {x : α} :
    (xs ++ [x]).modify xs.length f = xs ++ [f x] := by
  induction xs with
  | nil => rfl
  | cons y xs ih => exact congrArg (y :: ·) ih

theorem Arena.Entry.adding_adding (e : Arena.Entry) (ids more : List Nat) :
    (e.adding ids).adding more = e.adding (ids ++ more) :=
  congrArg (fun ns => { e with children := ns }) (List.append_assoc e.children ids more)

/-! ## Numbers -/

theorem length_placesAll_numberAll (start : Nat) (ms : List Markup) (above : List Head) :
    start + (placesAll above (numberAll start ms).1).length = (numberAll start ms).2 := by
  obtain ⟨k, hnext, hids⟩ := Node.ids_numberAll (fun m _ => Node.ids_number m) start above
  rw [hnext, ← List.length_map, hids, List.length_range']

theorem le_number (start : Nat) (m : Markup) : start < (number start m).2 := by
  cases m with
  | text content => exact Nat.lt_succ_self start
  | element name attributes children position =>
    have := length_placesAll_numberAll (start + 1) children []
    exact this ▸ Nat.le_add_right (start + 1) _

/-! ## Filling in nodes -/

namespace Arena

/-- `a.Inserts above nodes next result`: the result of putting nodes into a table, behind what is in
the nearest element of `above` already, when `next` is the first number left after that. -/
structure Inserts (a : Arena) (above : List Head) (nodes : List Node) (next : Nat)
    (result : Except TooManyNodes Arena) : Prop where
  fits : next ≤ maxId + 1 → ∃ a', result = .ok a' ∧ a'.entries.toList =
    a.entries.toList.modify (numberAround above) (·.adding (nodes.map Node.id)) ++
      (placesAll above nodes).map Place.entry
  full : maxId + 1 < next → result = .error ⟨maxId⟩

/-- A table with room for what is in the nearest element of `above`. -/
structure Open (a : Arena) (above : List Head) : Prop where
  around : numberAround above < a.entries.size
  size : a.entries.size ≤ maxId + 1

variable {a : Arena} {above : List Head}

theorem Open.push (h : a.Open above) (e : Entry) :
    (a.entries.size ≤ maxId → ∃ a', a.push (numberAround above) e = .ok (a.entries.size, a') ∧
      a'.entries.toList = a.entries.toList.modify (numberAround above) (·.adding [a.entries.size]) ++
        [{ e with parent := some (numberAround above) }]) ∧
    (maxId < a.entries.size → a.push (numberAround above) e = .error ⟨maxId⟩) := by
  rw [Arena.push]
  refine ⟨fun hsize => ?_, fun hsize => if_pos hsize⟩
  rw [if_neg (Nat.not_lt.mpr hsize)]
  refine ⟨_, rfl, ?_⟩
  rw [Array.toList_modify, Array.toList_push, modify_append_of_lt h.around]

theorem Open.inserts_nil (h : a.Open above) : a.Inserts above [] a.entries.size (.ok a) where
  fits _ := by
    have hsame : (fun e : Entry => e.adding []) = id :=
      funext fun e => congrArg (fun ns => { e with children := ns }) (List.append_nil e.children)
    refine ⟨a, rfl, ?_⟩
    rw [List.map_nil, hsame, List.modify_id, placesAll, List.map_nil, List.append_nil]
  full hfull := absurd h.size (Nat.not_le.mpr hfull)

/-- Putting in nodes one after the other is putting in all of them. -/
theorem Open.inserts_cons (h : a.Open above) {n : Node} {ns : List Node} {next last : Nat}
    {first : Except TooManyNodes Arena} {rest : Arena → Except TooManyNodes Arena}
    (hnext : next = a.entries.size + (n.places above).length) (hlast : next ≤ last)
    (hfirst : a.Inserts above [n] next first)
    (hrest : ∀ b : Arena, b.Open above → b.entries.size = next → b.Inserts above ns last (rest b)) :
    a.Inserts above (n :: ns) last (first >>= rest) := by
  -- while there is room for the first node, the table that it gives has room for the others
  have hopen : next ≤ maxId + 1 → ∃ b, first = .ok b ∧ b.Open above ∧ b.entries.size = next ∧
      b.entries.toList = a.entries.toList.modify (numberAround above) (·.adding [n.id]) ++
        (n.places above).map Place.entry := by
    intro hfits
    obtain ⟨b, hb, hentries⟩ := hfirst.fits hfits
    rw [placesAll, placesAll, List.append_nil] at hentries
    have hsize : b.entries.size = next := by
      rw [← Array.length_toList, hentries, List.length_append, List.length_modify, List.length_map,
        Array.length_toList, hnext]
    have haround := h.around
    exact ⟨b, hb, ⟨by omega, by omega⟩, hsize, hentries⟩
  constructor
  · intro hfits
    obtain ⟨b, rfl, hb, hsize, hentries⟩ := hopen (Nat.le_trans hlast hfits)
    obtain ⟨c, hc, hmore⟩ := (hrest b hb hsize).fits hfits
    refine ⟨c, hc, ?_⟩
    rw [hmore, hentries, modify_append_of_lt (by rw [List.length_modify]; exact h.around),
      List.modify_modify_eq, placesAll, List.map_append, List.append_assoc, List.map_cons]
    congr 2
    exact funext fun e => e.adding_adding [n.id] (ns.map Node.id)
  · intro hfull
    by_cases hfits : next ≤ maxId + 1
    · obtain ⟨b, rfl, hb, hsize, -⟩ := hopen hfits
      exact (hrest b hb hsize).full hfull
    · rw [hfirst.full (Nat.not_le.mp hfits)]
      rfl

theorem inserts_numberAll {ms : List Markup} (hms : ∀ m ∈ ms, ∀ {a : Arena} {above : List Head},
      a.Open above → a.Inserts above [(number a.entries.size m).1] (number a.entries.size m).2
        (a.insert (numberAround above) m)) (h : a.Open above) :
    a.Inserts above (numberAll a.entries.size ms).1 (numberAll a.entries.size ms).2
      (a.insertAll (numberAround above) ms) := by
  induction ms generalizing a with
  | nil => exact h.inserts_nil
  | cons m ms ih =>
    have hlength := length_placesAll_numberAll a.entries.size [m] above
    have hbehind := length_placesAll_numberAll (number a.entries.size m).2 ms above
    rw [Node.numberAll_cons] at hlength ⊢
    refine h.inserts_cons ?_ ?_ (hms m List.mem_cons_self h) fun b hb hsize => ?_
    · simpa [placesAll, numberAll] using hlength.symm
    · exact hbehind ▸ Nat.le_add_right _ _
    · rw [← hsize]
      exact ih (fun n hn => hms n (List.mem_cons_of_mem _ hn)) hb

/-- Putting in a node puts in what it contains, each with the number that it has in the tree. -/
theorem inserts_number (m : Markup) (h : a.Open above) :
    a.Inserts above [(number a.entries.size m).1] (number a.entries.size m).2
      (a.insert (numberAround above) m) := by
  induction m generalizing a above with
  | text content =>
    obtain ⟨hroom, hfull⟩ := h.push { kind := .text, name := "#text", text := content }
    constructor
    · intro hfits
      obtain ⟨b, hb, hentries⟩ := hroom (Nat.le_of_succ_le_succ hfits)
      refine ⟨b, ?_, hentries⟩
      rw [insert, hb]
      rfl
    · intro hnone
      rw [insert, hfull (Nat.lt_of_succ_lt_succ hnone)]
      rfl
  | element name attributes children position ih =>
    obtain ⟨hroom, hfull⟩ := h.push (elementEntry name attributes position)
    have hnext := le_number a.entries.size (.element name attributes children position)
    rcases Nat.lt_or_ge maxId a.entries.size with hnone | hsize
    · constructor
      · intro hfits
        omega
      · intro _
        rw [insert, hfull hnone]
        rfl
    · obtain ⟨b, hb, hentries⟩ := hroom hsize
      let head := headOf a.entries.size name attributes position
      have hbsize : b.entries.size = a.entries.size + 1 := by
        rw [← Array.length_toList, hentries, List.length_append, List.length_modify,
          Array.length_toList]
        rfl
      have hbopen : b.Open (head :: above) := ⟨hbsize ▸ Nat.lt_succ_self _, by omega⟩
      have hinside := inserts_numberAll (fun m hm => ih m hm) hbopen
      have hinsert : a.insert (numberAround above) (.element name attributes children position) =
          b.insertAll (numberAround (head :: above)) children := by
        rw [insert, hb]
        rfl
      rw [hbsize] at hinside
      rw [hinsert]
      refine ⟨fun hfits => ?_, hinside.full⟩
      obtain ⟨c, hc, hmore⟩ := hinside.fits hfits
      -- the element is the last entry of `b`, so its children are added there
      have hlength : numberAround (head :: above) =
          (a.entries.toList.modify (numberAround above) (·.adding [a.entries.size])).length := by
        rw [List.length_modify, Array.length_toList]
        rfl
      refine ⟨c, hc, ?_⟩
      rw [hmore, hentries, hlength, modify_concat, List.append_assoc, placesAll, placesAll,
        List.append_nil]
      rfl

/-- There is a table just if there are numbers for all nodes, and it has their entries. -/
theorem ofMarkup_spec (forest : List Markup) :
    ((Document.ofMarkup forest).places.length ≤ maxId + 1 → ∃ a, ofMarkup forest = .ok a ∧
      a.entries.toList = (Document.ofMarkup forest).places.map Place.entry) ∧
    (maxId + 1 < (Document.ofMarkup forest).places.length →
      ofMarkup forest = .error ⟨maxId⟩) := by
  have hopen : empty.Open [] := ⟨Nat.one_pos, by decide⟩
  have hinserts : empty.Inserts [] (numberAll 1 forest).1 (numberAll 1 forest).2
      (ofMarkup forest) := inserts_numberAll (fun m _ _ _ h => inserts_number m h) hopen
  have hlength : (Document.ofMarkup forest).places.length = (numberAll 1 forest).2 := by
    rw [← length_placesAll_numberAll 1 forest [], Nat.add_comm]
    rfl
  rw [hlength]
  exact ⟨hinserts.fits, hinserts.full⟩

theorem ofMarkup_eq_ok_iff {forest : List Markup} : (∃ a, ofMarkup forest = .ok a) ↔
    (Document.ofMarkup forest).places.length ≤ maxId + 1 := by
  obtain ⟨hfits, hfull⟩ := ofMarkup_spec forest
  constructor
  · rintro ⟨a, ha⟩
    by_contra hmore
    rw [hfull (Nat.not_le.mp hmore)] at ha
    cases ha
  · intro hroom
    obtain ⟨a, ha, -⟩ := hfits hroom
    exact ⟨a, ha⟩

theorem entries_of_ofMarkup {forest : List Markup} (h : ofMarkup forest = .ok a) :
    a.entries.toList = (Document.ofMarkup forest).places.map Place.entry := by
  obtain ⟨b, hb, hentries⟩ := (ofMarkup_spec forest).1 (ofMarkup_eq_ok_iff.mp ⟨a, h⟩)
  obtain rfl := Except.ok.inj (h.symm.trans hb)
  exact hentries

end Arena

end ContentGrammar
