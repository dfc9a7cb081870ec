import Mathlib.Data.List.TakeWhile
import ContentGrammar.Proofs.Selector.Written

/-!
# The scans over a selector text

The reader of selectors looks for three things without regard to what is written in between: for the
end of blanks and names, for the parenthesis that closes a negation, and for the commas between
alternatives. Each scan is shown to cut its text and lose nothing of it, and to cut it at the right
place if what precedes is `Balanced`, or `Unbroken`. Both of these pass to longer texts, and they
hold of all that is written by the grammar, except that parentheses in quotes are not balanced.
-/

namespace ContentGrammar.Selector

variable {p : Char → Bool} {xs ys cs : List Char}

/-! ## Runs of characters -/

/-- Whether a run of characters in `p` ends before `cs`. -/
def Stops (p : Char → Bool) (cs : List Char) : Prop := ∀ c ∈ cs.head?, ¬p c = true

theorem stops_cons {c : Char} : Stops p (c :: cs) ↔ ¬p c = true := by
  simp [Stops]

/-- A run of more characters ends there too only if none of them follows, so one of fewer does. -/
theorem Stops.mono {q : Char → Bool} (h : Stops q cs) (hpq : ∀ c, p c = true → q c = true) :
    Stops p cs :=
  fun c hc hp => h c hc (hpq c hp)

theorem stops_append (hxs : ∀ c ∈ xs, ¬p c = true) (hys : Stops p ys) : Stops p (xs ++ ys) := by
  cases xs with
  | nil => exact hys
  | cons c cs => exact stops_cons.mpr (hxs c List.mem_cons_self)

theorem stops_dropWhile : Stops p (cs.dropWhile p) := by
  intro c hc
  induction cs with
  | nil => cases hc
  | cons d cs ih =>
    rw [List.dropWhile_cons] at hc
    split at hc
    · exact ih hc
    · rename_i hd
      obtain rfl := Option.some.inj hc
      exact hd

theorem takeWhile_append_of_stops (hxs : ∀ c ∈ xs, p c = true) (hys : Stops p ys) :
    (xs ++ ys).takeWhile p = xs := by
  rw [List.takeWhile_append_of_pos hxs]
  cases ys with
  | nil => simp
  | cons c cs => simp [stops_cons.mp hys]

theorem dropWhile_append_of_stops (hxs : ∀ c ∈ xs, p c = true) (hys : Stops p ys) :
    (xs ++ ys).dropWhile p = ys := by
  rw [List.dropWhile_append_of_pos hxs]
  cases ys with
  | nil => rfl
  | cons c cs => simp [stops_cons.mp hys]

/-- A run is read to its end. -/
theorem run?_append (hne : xs ≠ []) (hxs : ∀ c ∈ xs, p c = true) (hys : Stops p ys) :
    run? p (xs ++ ys) = some (xs, ys) := by
  rw [run?, takeWhile_append_of_stops hxs hys, dropWhile_append_of_stops hxs hys]
  simp [hne]

/-- What is read as a run is one, and what is left follows it. -/
theorem of_run? (h : run? p cs = some (xs, ys)) :
    cs = xs ++ ys ∧ xs ≠ [] ∧ ∀ c ∈ xs, p c = true := by
  rw [run?] at h
  split at h
  · cases h
  · rename_i hne
    obtain ⟨rfl, rfl⟩ := Prod.mk.inj (Option.some.inj h)
    exact ⟨List.takeWhile_append_dropWhile.symm, by simpa using hne,
      fun c hc => List.mem_takeWhile_imp hc⟩

/-! ## Blanks -/

open Written (Blanks)

theorem trimStart_append (bs : Blanks) (h : Stops isBlank xs) : trimStart (bs.1 ++ xs) = xs :=
  dropWhile_append_of_stops bs.2 h

/-- Trimming takes off nothing but blanks. -/
theorem exists_blanks_trimStart (cs : List Char) : ∃ bs : Blanks, cs = bs.1 ++ trimStart cs :=
  ⟨⟨cs.takeWhile isBlank, fun _ hc => List.mem_takeWhile_imp hc⟩,
    List.takeWhile_append_dropWhile.symm⟩

/-- A text that neither begins nor ends with a blank character. -/
def Solid (cs : List Char) : Prop :=
  (∃ c, cs.head? = some c ∧ isBlank c = false) ∧ ∃ c, cs.getLast? = some c ∧ isBlank c = false

theorem Solid.stops (h : Solid xs) (ys : List Char) : Stops isBlank (xs ++ ys) := by
  obtain ⟨⟨c, hc, hblank⟩, -⟩ := h
  intro d hd
  rw [List.head?_append, hc] at hd
  obtain rfl := Option.some.inj hd
  exact Bool.eq_false_iff.mp hblank

theorem Solid.append (hxs : Solid xs) (hys : Solid ys) (cs : List Char) :
    Solid (xs ++ (cs ++ ys)) := by
  obtain ⟨⟨c, hc, hfirst⟩, -⟩ := hxs
  obtain ⟨-, d, hd, hlast⟩ := hys
  refine ⟨⟨c, ?_, hfirst⟩, d, ?_, hlast⟩
  · rw [List.head?_append, hc, Option.some_or]
  · rw [List.getLast?_append, List.getLast?_append, hd, Option.some_or, Option.some_or]

theorem Solid.cons {c : Char} (hc : isBlank c = false) (h : Solid xs) : Solid (c :: xs) := by
  have hsingle : Solid [c] := ⟨⟨c, rfl, hc⟩, c, rfl, hc⟩
  exact hsingle.append h []

theorem Solid.wrap {c d : Char} (hc : isBlank c = false) (hd : isBlank d = false)
    (cs : List Char) : Solid (c :: (cs ++ [d])) :=
  ⟨⟨c, rfl, hc⟩, d, by rw [← List.cons_append, List.getLast?_concat], hd⟩

/-- Blanks around a text that neither begins nor ends with one are taken off. -/
theorem trim_append (before after : Blanks) (h : Solid xs) :
    trim (before.1 ++ xs ++ after.1) = xs := by
  have hstop : Stops isBlank xs.reverse := by
    obtain ⟨-, c, hc, hblank⟩ := h
    intro d hd
    rw [List.head?_reverse, hc] at hd
    obtain rfl := Option.some.inj hd
    exact Bool.eq_false_iff.mp hblank
  have hafter : ∀ c ∈ after.1.reverse, isBlank c = true :=
    fun c hc => after.2 c (List.mem_reverse.mp hc)
  rw [trim, List.append_assoc, trimStart_append before (h.stops after.1), List.reverse_append,
    dropWhile_append_of_stops hafter hstop, List.reverse_reverse]

theorem exists_blanks_trim (cs : List Char) :
    ∃ before after : Blanks, cs = before.1 ++ trim cs ++ after.1 := by
  obtain ⟨before, hbefore⟩ := exists_blanks_trimStart cs
  obtain ⟨after, hafter⟩ := exists_blanks_trimStart (trimStart cs).reverse
  refine ⟨before, ⟨after.1.reverse, fun c hc => after.2 c (List.mem_reverse.mp hc)⟩, ?_⟩
  rw [trim, List.append_assoc, ← List.reverse_append]
  change cs = before.1 ++ (after.1 ++ trimStart (trimStart cs).reverse).reverse
  rw [← hafter, List.reverse_reverse, ← hbefore]

theorem blank_of_trim_isEmpty (h : (trim cs).isEmpty = true) : ∀ c ∈ cs, isBlank c = true := by
  obtain ⟨before, after, hcs⟩ := exists_blanks_trim cs
  rw [List.isEmpty_iff.mp h, List.append_nil] at hcs
  intro c hc
  rw [hcs] at hc
  exact (List.mem_append.mp hc).elim (before.2 c) (after.2 c)

/-! ## Closing quotes -/

theorem dropWhile_quote {q : Char} (h : q ∉ xs) (ys : List Char) :
    (xs ++ q :: ys).dropWhile (· ≠ q) = q :: ys ∧ (xs ++ q :: ys).takeWhile (· ≠ q) = xs := by
  have hxs : ∀ c ∈ xs, decide (c ≠ q) = true := by
    intro c hc
    rw [decide_eq_true_eq]
    rintro rfl
    exact h hc
  have hstop : Stops (fun c => decide (c ≠ q)) (q :: ys) := stops_cons.mpr (by simp)
  exact ⟨dropWhile_append_of_stops hxs hstop, takeWhile_append_of_stops hxs hstop⟩

/-- The search for a closing quote loses nothing, and passes over no quote of the kind. -/
theorem of_dropWhile_quote {q c : Char} (h : cs.dropWhile (· ≠ q) = c :: ys) :
    cs = cs.takeWhile (· ≠ q) ++ q :: ys ∧ q ∉ cs.takeWhile (· ≠ q) := by
  have hstop : Stops (fun c => decide (c ≠ q)) (cs.dropWhile (· ≠ q)) := stops_dropWhile
  have hsplit := List.takeWhile_append_dropWhile (p := fun c => decide (c ≠ q)) (l := cs)
  rw [h] at hstop hsplit
  have hc : c = q := by simpa using stops_cons.mp hstop
  refine ⟨?_, fun hq => ?_⟩
  · rw [← hc] at hsplit ⊢
    exact hsplit.symm
  · simpa using List.mem_takeWhile_imp hq

/-! ## Closing parentheses -/

/-- A text behind which a search for a closing parenthesis goes on as it was before. -/
def Balanced (cs : List Char) : Prop := ∀ depth rest,
  closing? depth (cs ++ rest) = (closing? depth rest).map fun r => (cs ++ r.1, r.2)

theorem balanced_nil : Balanced [] := by
  intro depth rest
  cases h : closing? depth rest with
  | none => rw [List.nil_append, h]; rfl
  | some r => rw [List.nil_append, h]; rfl

theorem Balanced.append (hxs : Balanced xs) (hys : Balanced ys) : Balanced (xs ++ ys) := by
  intro depth rest
  rw [List.append_assoc, hxs, hys, Option.map_map]
  congr 1
  funext r
  simp

/-- A text without parentheses is balanced. -/
theorem balanced_of_forall (h : ∀ c ∈ cs, c ≠ '(' ∧ c ≠ ')') : Balanced cs := by
  induction cs with
  | nil => exact balanced_nil
  | cons c cs ih =>
    obtain ⟨hopen, hclose⟩ := h c List.mem_cons_self
    have hrest := ih fun d hd => h d (List.mem_cons_of_mem _ hd)
    intro depth rest
    rw [List.cons_append, closing?, if_neg (fun heq => hclose heq.1), if_neg hopen, if_neg hclose]
    dsimp only
    rw [hrest, Option.map_map]
    rfl

/-- What opens and closes a parenthesis of its own is balanced. -/
theorem Balanced.parens (h : Balanced cs) : Balanced ('(' :: (cs ++ [')'])) := by
  intro depth rest
  rw [List.cons_append, List.append_assoc, closing?, if_neg (by simp), if_pos rfl]
  dsimp only
  rw [h, Option.map_map, List.singleton_append, closing?, if_neg (by simp), if_neg (by decide),
    if_pos rfl]
  dsimp only
  rw [Nat.add_sub_cancel, Option.map_map]
  congr 1
  funext r
  simp

/-- The parenthesis behind a balanced text is the one that is found. -/
theorem Balanced.closing?_zero (h : Balanced cs) (rest : List Char) :
    closing? 0 (cs ++ ')' :: rest) = some (cs, rest) := by
  rw [h, closing?, if_pos ⟨rfl, rfl⟩]
  simp

/-- The search for the closing parenthesis loses nothing. -/
theorem of_closing? {depth : Nat} (h : closing? depth cs = some (xs, ys)) :
    cs = xs ++ ')' :: ys := by
  induction cs generalizing depth xs with
  | nil => cases h
  | cons c cs ih =>
    rw [closing?] at h
    split at h
    · rename_i hc
      obtain ⟨rfl, rfl⟩ := Prod.mk.inj (Option.some.inj h)
      rw [hc.1, List.nil_append]
    · obtain ⟨⟨inner, rest⟩, hr, heq⟩ := Option.map_eq_some_iff.mp h
      obtain ⟨rfl, rfl⟩ := Prod.mk.inj heq
      rw [ih hr, List.cons_append]

/-! ## Commas -/

/-- A text that a scan for commas passes over as a whole, and behind which it goes on as it was. -/
def Unbroken (cs : List Char) : Prop := ∀ depth piece rest,
  splitFrom ⟨depth, none⟩ piece (cs ++ rest) = splitFrom ⟨depth, none⟩ (cs.reverse ++ piece) rest

theorem unbroken_nil : Unbroken [] := fun _ _ _ => rfl

theorem Unbroken.append (hxs : Unbroken xs) (hys : Unbroken ys) : Unbroken (xs ++ ys) := by
  intro depth piece rest
  rw [List.append_assoc, hxs, hys, List.reverse_append, List.append_assoc]

/-- The characters that matter in a scan for commas. -/
def isMark (c : Char) : Bool :=
  c == ',' || c == '"' || c == '\'' || c == '(' || c == '[' || c == ')' || c == ']'

/-- A text without commas, quotes and brackets is passed over. -/
theorem unbroken_of_forall (h : ∀ c ∈ cs, isMark c = false) : Unbroken cs := by
  induction cs with
  | nil => exact unbroken_nil
  | cons c cs ih =>
    have hrest := ih fun d hd => h d (List.mem_cons_of_mem _ hd)
    have hc := h c List.mem_cons_self
    simp only [isMark, Bool.or_eq_false_iff, beq_eq_false_iff_ne, ne_eq] at hc
    intro depth piece rest
    have hafter : Nesting.after ⟨depth, none⟩ c = ⟨depth, none⟩ := by
      simp [Nesting.after, hc]
    rw [List.cons_append, splitFrom, if_neg (fun heq => hc.1.1.1.1.1.1 heq.1), hafter, hrest,
      List.reverse_cons, List.append_assoc, List.singleton_append]

/-- What brackets or parentheses enclose is passed over with them. -/
theorem Unbroken.enclosed {opening closing : Char} (h : Unbroken cs)
    (hopening : opening = '(' ∨ opening = '[') (hclosing : closing = ')' ∨ closing = ']') :
    Unbroken (opening :: (cs ++ [closing])) := by
  intro depth piece rest
  have hopen : splitFrom ⟨depth, none⟩ piece (opening :: (cs ++ [closing]) ++ rest) =
      splitFrom ⟨depth + 1, none⟩ (opening :: piece) (cs ++ closing :: rest) := by
    rcases hopening with rfl | rfl <;> simp [splitFrom, Nesting.after]
  have hclose : splitFrom ⟨depth + 1, none⟩ (cs.reverse ++ opening :: piece) (closing :: rest) =
      splitFrom ⟨depth, none⟩ (closing :: (cs.reverse ++ opening :: piece)) rest := by
    rcases hclosing with rfl | rfl <;> simp [splitFrom, Nesting.after]
  rw [hopen, h, hclose]
  simp

/-- Up to the closing quote a scan for commas looks at nothing. -/
theorem splitFrom_quoted {q : Char} (h : q ∉ cs) (depth : Nat) (piece rest : List Char) :
    splitFrom ⟨depth, some q⟩ piece (cs ++ q :: rest) =
      splitFrom ⟨depth, none⟩ (q :: (cs.reverse ++ piece)) rest := by
  induction cs generalizing piece with
  | nil => simp [splitFrom, Nesting.after, Nesting.isTop]
  | cons c cs ih =>
    rw [List.mem_cons, not_or] at h
    rw [List.cons_append, splitFrom, if_neg (by simp [Nesting.isTop]), Nesting.after]
    dsimp only
    rw [if_neg (Ne.symm h.1), ih h.2]
    simp

/-- What quotes enclose is passed over with them. -/
theorem unbroken_quoted {q : Char} (hq : q = '"' ∨ q = '\'') (h : q ∉ cs) :
    Unbroken (q :: (cs ++ [q])) := by
  intro depth piece rest
  have hopen : splitFrom ⟨depth, none⟩ piece (q :: (cs ++ [q]) ++ rest) =
      splitFrom ⟨depth, some q⟩ (q :: piece) (cs ++ q :: rest) := by
    rcases hq with rfl | rfl <;> simp [splitFrom, Nesting.after]
  rw [hopen, splitFrom_quoted h]
  simp

/-- Unbroken texts with commas between them are split at these. -/
theorem split_joined (first : List Char) (others : List (List Char)) (hfirst : Unbroken first)
    (hothers : ∀ cs ∈ others, Unbroken cs) :
    split (first ++ others.flatMap (',' :: ·)) = first :: others := by
  have hscan : ∀ {others first}, Unbroken first → (∀ cs ∈ others, Unbroken cs) →
      splitFrom ⟨0, none⟩ [] (first ++ others.flatMap (',' :: ·)) = first :: others := by
    intro others
    induction others with
    | nil =>
      intro first hfirst _
      rw [hfirst, List.append_nil]
      simp [splitFrom]
    | cons cs others ih =>
      intro first hfirst hothers
      rw [List.flatMap_cons, hfirst, List.append_nil, List.cons_append, splitFrom,
        if_pos ⟨rfl, rfl⟩, List.reverse_reverse, ih (hothers cs List.mem_cons_self)
          fun ds hds => hothers ds (List.mem_cons_of_mem _ hds)]
  exact hscan hfirst hothers

/-- Whatever the nesting is, the pieces with commas between them are the text. -/
theorem of_splitFrom (n : Nesting) (piece cs : List Char) : ∃ first others,
    splitFrom n piece cs = first :: others ∧
      piece.reverse ++ cs = first ++ others.flatMap (',' :: ·) := by
  induction cs generalizing n piece with
  | nil => exact ⟨_, [], rfl, by simp⟩
  | cons c cs ih =>
    rw [splitFrom]
    split
    · rename_i hc
      obtain ⟨first, others, hsplit, hcs⟩ := ih n []
      refine ⟨piece.reverse, first :: others, by rw [hsplit], ?_⟩
      rw [hc.1, List.flatMap_cons, List.cons_append, ← hcs]
      rfl
    · obtain ⟨first, others, hsplit, hcs⟩ := ih (n.after c) (c :: piece)
      refine ⟨first, others, hsplit, ?_⟩
      rw [← hcs, List.reverse_cons, List.append_assoc, List.singleton_append]

/-- The pieces with commas between them are the text again. -/
theorem of_split (cs : List Char) : ∃ first others,
    split cs = first :: others ∧ cs = first ++ others.flatMap (',' :: ·) :=
  of_splitFrom _ _ _

end ContentGrammar.Selector
