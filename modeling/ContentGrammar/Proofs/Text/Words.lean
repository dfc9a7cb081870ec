import Mathlib.Data.List.SplitBy
import ContentGrammar.Text.Blank

/-!
# Words

The words of a text are its longest stretches without white space. `mem_words` says so without
regard to how they are found: a word is a stretch of the text that is not empty, has no white space in
it, and stands between white space or the ends of the text.
-/

namespace ContentGrammar

section Runs

variable {α : Type} {f : α → Bool} {run xs : List α}

/-- A list whose neighbours are of one class is of one class. -/
theorem forall_of_isChain {a : α} (h : (a :: xs).IsChain fun x y => (f x == f y) = true) :
    ∀ x ∈ a :: xs, f x = f a := by
  induction xs generalizing a with
  | nil => simp
  | cons b xs ih =>
    obtain ⟨hab, hrest⟩ := List.isChain_cons_cons.mp h
    have hb : f b = f a := (beq_iff_eq.mp hab).symm
    intro x hx
    rcases List.mem_cons.mp hx with rfl | hx
    · rfl
    · rw [ih hrest x hx, hb]

theorem isChain_of_forall {k : Bool} (h : ∀ x ∈ xs, f x = k) :
    xs.IsChain fun x y => (f x == f y) = true := by
  refine List.Pairwise.isChain (List.pairwise_of_forall_mem_list fun x hx y hy => ?_)
  rw [h x hx, h y hy, beq_self_eq_true]

/-- The runs of a list are the longest stretches of it that are of one class. -/
theorem mem_splitBy_iff : run ∈ xs.splitBy (fun x y => f x == f y) ↔ run ≠ [] ∧
    ∃ k, (∀ x ∈ run, f x = k) ∧ ∃ before after, xs = before ++ run ++ after ∧
      (∀ x ∈ before.getLast?, f x ≠ k) ∧ ∀ x ∈ after.head?, f x ≠ k := by
  constructor
  · intro h
    obtain ⟨front, back, hsplit⟩ := List.append_of_mem h
    obtain ⟨rfl, hnil, hclass, hchain⟩ := List.splitBy_eq_iff.mp hsplit
    have hne : run ≠ [] := fun heq => hnil (heq ▸ List.mem_append_right _ List.mem_cons_self)
    obtain ⟨a, rest, rfl⟩ := List.exists_cons_of_ne_nil hne
    have hrun := forall_of_isChain (hclass _ (List.mem_append_right _ List.mem_cons_self))
    obtain ⟨-, hbehind, hbefore⟩ := List.isChain_append.mp hchain
    refine ⟨hne, f a, hrun, front.flatten, back.flatten, by simp, ?_, ?_⟩
    · intro x hx
      -- the run before ends with a character of the other class
      obtain rfl | ⟨front, last, rfl⟩ := List.eq_nil_or_concat' front
      · cases hx
      · obtain ⟨hlast, hhead, hclash⟩ := hbefore last (by simp) _ rfl
        rw [List.flatten_concat, List.getLast?_append_of_ne_nil _ hlast,
          List.getLast?_eq_getLast_of_ne_nil hlast] at hx
        obtain rfl := Option.some.inj hx
        exact beq_eq_false_iff_ne.mp hclash
    · intro x hx
      cases back with
      | nil => cases hx
      | cons next back =>
        obtain ⟨hrunne, hnext, hclash⟩ := (List.isChain_cons_cons.mp hbehind).1
        rw [List.flatten_cons, List.head?_append_of_ne_nil _ hnext,
          List.head?_eq_some_head hnext] at hx
        obtain rfl := Option.some.inj hx
        rw [hrun _ (List.getLast_mem hrunne)] at hclash
        exact (beq_eq_false_iff_ne.mp hclash).symm
  · rintro ⟨hne, k, hrun, before, after, rfl, hbefore, hafter⟩
    have hone := List.splitBy_of_isChain hne (isChain_of_forall hrun)
    rw [List.splitBy_append, List.splitBy_append, hone]
    · simp
    · intro x hx y hy
      rw [hrun y (List.mem_of_mem_head? hy)]
      exact beq_eq_false_iff_ne.mpr (hbefore x hx)
    · intro x hx y hy
      rw [List.getLast?_append_of_ne_nil _ hne] at hx
      rw [hrun x (List.mem_of_mem_getLast? hx)]
      exact beq_eq_false_iff_ne.mpr (hafter y hy).symm

end Runs

/-- Whether `w` is a word of `s`: a stretch of it that is not empty and has no white space in it, with
white space or an end of the text on either side. -/
def IsWord (w s : String) : Prop :=
  w ≠ "" ∧ (∀ c ∈ w.toList, isSpace c = false) ∧ ∃ before after : List Char,
    s.toList = before ++ w.toList ++ after ∧
      (∀ c ∈ before.getLast?, isSpace c = true) ∧ ∀ c ∈ after.head?, isSpace c = true

theorem mem_words {w s : String} : w ∈ words s ↔ IsWord w s := by
  simp only [words, List.mem_map, List.mem_filter, mem_splitBy_iff, IsWord, Bool.not_eq_true',
    List.all_eq_false]
  constructor
  · rintro ⟨run, ⟨⟨hne, k, hrun, before, after, hs, hbefore, hafter⟩, c, hc, hword⟩, rfl⟩
    obtain rfl : k = false := (hrun c hc).symm.trans (Bool.eq_false_iff.mpr hword)
    rw [String.toList_ofList]
    refine ⟨fun heq => hne (by simpa using heq), hrun, before, after, hs, ?_, ?_⟩
    · exact fun x hx => Bool.ne_false_iff.mp (hbefore x hx)
    · exact fun x hx => Bool.ne_false_iff.mp (hafter x hx)
  · rintro ⟨hne, hrun, before, after, hs, hbefore, hafter⟩
    have hlist : w.toList ≠ [] := fun heq => hne (by simpa using heq)
    obtain ⟨c, hc⟩ := List.exists_mem_of_ne_nil _ hlist
    refine ⟨w.toList, ⟨⟨hlist, false, hrun, before, after, hs, ?_, ?_⟩, c, hc, ?_⟩, ?_⟩
    · exact fun x hx => Bool.ne_false_iff.mpr (hbefore x hx)
    · exact fun x hx => Bool.ne_false_iff.mpr (hafter x hx)
    · exact Bool.eq_false_iff.mp (hrun c hc)
    · exact String.ofList_toList

end ContentGrammar
