import Mathlib.Data.List.TakeWhile
import ContentGrammar.Files.Path

/-!
# Paths of what is in a directory, and paths in order

The path of something in a directory has one step more than that of the directory (`steps_join`).
Of its pieces those that make no step can be left out (`trims_pieces`).
Paths are ordered by their steps, and `inOrder` lists them strictly increasing without leaving one out
(`inOrder_spec`).
-/

namespace ContentGrammar.Path

/-- Whether bytes can be the name of something in a directory. -/
structure IsName (name : Bytes) : Prop where
  nonempty : name ≠ []
  notHere : name ≠ here
  notUp : name ≠ up
  whole : separator ∉ name

instance (name : Bytes) : Decidable (IsName name) :=
  decidable_of_iff (name ≠ [] ∧ name ≠ here ∧ name ≠ up ∧ separator ∉ name)
    ⟨fun ⟨h₁, h₂, h₃, h₄⟩ => ⟨h₁, h₂, h₃, h₄⟩, fun ⟨h₁, h₂, h₃, h₄⟩ => ⟨h₁, h₂, h₃, h₄⟩⟩

/-- The path to which names lead from a path on, each in the directory before it. -/
def joined (p : Path) (names : List Bytes) : Path := names.foldl join p

variable {p q r : Path} {name : Bytes} {names base : List Bytes}

/-! ## Steps -/

theorem pieces_ne_nil (p : Path) : p.pieces ≠ [] := List.splitOn_ne_nil _ _

/-- There are no separators in pieces. -/
theorem not_mem_splitOn (bs : Bytes) : ∀ piece ∈ bs.splitOn separator, separator ∉ piece := by
  by_cases h : separator ∈ bs
  · obtain ⟨front, back, rfl, hfront⟩ := List.eq_append_cons_of_mem h
    rw [List.splitOn_append_cons_self_of_not_mem hfront]
    exact List.forall_mem_cons.mpr ⟨hfront, not_mem_splitOn back⟩
  · rw [List.splitOn_eq_singleton h]
    exact List.forall_mem_singleton.mpr h
termination_by bs.length
decreasing_by
  subst_vars
  simp only [List.length_append, List.length_cons]
  omega

theorem not_mem_pieces (p : Path) : ∀ piece ∈ p.pieces, separator ∉ piece := not_mem_splitOn _

/-- After a separator comes one more piece. -/
theorem pieces_of_bytes {front : Bytes} (h : p.bytes = front ++ separator :: name)
    (hname : separator ∉ name) : p.pieces = front.splitOn separator ++ [name] := by
  rw [pieces, h, List.splitOn_append_cons_self, List.splitOn_eq_singleton hname]

/-- Between separators there are empty pieces. -/
theorem pieces_separators (n : Nat) :
    pieces ⟨List.replicate n separator⟩ = List.replicate (n + 1) [] := by
  induction n with
  | zero => rfl
  | succ n ih =>
    rw [pieces, List.replicate_succ, ← List.nil_append (separator :: _),
      List.splitOn_append_cons_self]
    exact congrArg ([] :: ·) ih

/-- What is in a directory has a piece more than the directory, whose path may end with a separator.
-/
theorem exists_base (p : Path) : ∃ base, (p.pieces = base ∧ base ≠ [[]] ∨ p.pieces = base ++ [[]]) ∧
    ∀ name, separator ∉ name → (p.join name).pieces = base ++ [name] := by
  by_cases hempty : p.bytes = []
  · refine ⟨[], .inr ?_, fun name hname => ?_⟩
    · rw [pieces, hempty]
      rfl
    · rw [join, if_pos (by simp [hempty]), pieces, hempty, List.nil_append,
        List.splitOn_eq_singleton hname]
      rfl
  -- a separator is put before the name unless the path ends with one
  by_cases hend : p.bytes.getLast? = some separator
  · obtain ⟨front, hfront⟩ := List.getLast?_eq_some_iff.mp hend
    refine ⟨front.splitOn separator, .inr (pieces_of_bytes hfront List.not_mem_nil), ?_⟩
    intro name hname
    refine pieces_of_bytes ?_ hname
    rw [join, if_pos (by simp [hend]), hfront, List.append_assoc]
    rfl
  · refine ⟨p.pieces, .inl ⟨rfl, fun h => hempty ?_⟩, fun name hname => ?_⟩
    · have hbytes : [separator].intercalate (p.bytes.splitOn separator) = p.bytes :=
        List.intercalate_splitOn separator
      rw [← hbytes, show p.bytes.splitOn separator = [[]] from h]
      rfl
    · refine pieces_of_bytes ?_ hname
      rw [join, if_neg (by simp [hempty, hend])]

/-- Whether an empty piece makes a step at the start depends on there being another one. -/
theorem startOf?_concat (hbase : base ≠ []) (piece piece' : Bytes) :
    startOf? (base ++ [piece]) = startOf? (base ++ [piece']) := by
  cases base with
  | nil => exact absurd rfl hbase
  | cons b bs => simp [startOf?]

/-- The first step of what is in a directory is that of the directory. -/
theorem startOf?_append (hbase : base ≠ []) (hone : base ≠ [[]]) (more : List Bytes) :
    startOf? (base ++ more) = startOf? base := by
  cases base with
  | nil => exact absurd rfl hbase
  | cons b bs =>
    by_cases hb : b = []
    · have hbs : bs ≠ [] := by
        rintro rfl
        exact hone (congrArg (· :: []) hb)
      simp [startOf?, hbs]
    · simp [startOf?, hb]

theorem stepOf?_of_isName (h : IsName name) : stepOf? name = some (.name name) := by
  rw [stepOf?, if_neg (by simp [h.nonempty, h.notHere]), if_neg (by simp [h.notUp])]

theorem stepOf?_nil : stepOf? [] = none := rfl

/-- Separators alone make the step to the root. -/
theorem steps_separators (n : Nat) : steps ⟨List.replicate (n + 1) separator⟩ = [.root] := by
  have hnone : ∀ n, (List.replicate n ([] : Bytes)).filterMap stepOf? = [] := by
    intro n
    refine List.filterMap_eq_nil_iff.mpr fun piece hpiece => ?_
    rw [List.eq_of_mem_replicate hpiece, stepOf?_nil]
  rw [steps, pieces_separators, hnone]
  rfl

/-- What is in a directory has a step more than the directory. -/
theorem steps_join (h : IsName name) : (p.join name).steps = p.steps ++ [.name name] := by
  obtain ⟨base, hbase, hjoin⟩ := p.exists_base
  have hlast : [name].filterMap stepOf? = [.name name] := by
    rw [List.filterMap_cons_some (stepOf?_of_isName h), List.filterMap_nil]
  by_cases hnil : base = []
  · -- the path is the empty one
    subst hnil
    have hp : p.pieces = [[]] := hbase.resolve_left fun hnil => p.pieces_ne_nil hnil.1
    have hstart : startOf? [name] = none := by simp [startOf?, h.notHere]
    rw [steps, hjoin name h.whole, List.nil_append, hlast, hstart, steps, hp]
    rfl
  rw [steps, hjoin name h.whole, List.filterMap_append, hlast, ← List.append_assoc]
  rcases hbase with ⟨hp, hone⟩ | hp
  · rw [startOf?_append hnil hone, steps, hp]
  · rw [startOf?_concat hnil name [], steps, hp, List.filterMap_append,
      List.filterMap_cons_none stepOf?_nil, List.filterMap_nil, List.append_nil]

/-- Names that lead on from a path are its further steps. -/
theorem steps_joined (h : ∀ name ∈ names, IsName name) :
    (p.joined names).steps = p.steps ++ names.map .name := by
  induction names generalizing p with
  | nil => exact (List.append_nil _).symm
  | cons name names ih =>
    obtain ⟨hname, hnames⟩ := List.forall_mem_cons.mp h
    rw [joined, List.foldl_cons]
    exact (ih hnames).trans (by rw [steps_join hname, List.map_cons, List.append_assoc,
      List.singleton_append])

/-- The file name of what is in a directory is its name there. -/
theorem fileName?_join (h : IsName name) : (p.join name).fileName? = some name := by
  rw [fileName?, steps_join h, List.getLast?_concat]

/-! ## Pieces that make steps -/

/-- The piece that makes a step, unless it makes one at the start only. -/
def Step.piece? : Step → Option Bytes
  | .root | .here => none
  | .up => some Path.up
  | .name n => some n

/-- The piece of a step can be told from the step. -/
theorem piece?_of_stepOf? {piece : Bytes} {step : Step} (h : stepOf? piece = some step) :
    step.piece? = some piece := by
  rw [stepOf?] at h
  split at h
  case isTrue => cases h
  case isFalse =>
    split at h
    case isTrue hup =>
      obtain rfl := Option.some.inj h
      rw [Step.piece?, eq_of_beq hup]
    case isFalse =>
      obtain rfl := Option.some.inj h
      rfl

theorem piece?_of_startOf? {pieces : List Bytes} {step : Step} (h : startOf? pieces = some step) :
    step.piece? = none := by
  cases pieces with
  | nil => cases h
  | cons first rest =>
    rw [startOf?] at h
    split at h
    case isTrue =>
      obtain rfl := Option.some.inj h
      rfl
    case isFalse =>
      split at h
      case isTrue =>
        obtain rfl := Option.some.inj h
        rfl
      case isFalse => cases h

/-- Only a first piece makes the step to the root. -/
theorem root_not_mem_filterMap (pieces : List Bytes) : .root ∉ pieces.filterMap stepOf? := by
  intro h
  obtain ⟨piece, -, hpiece⟩ := List.mem_filterMap.mp h
  cases piece?_of_stepOf? hpiece

/-- A path begins at the root if it begins with a separator. -/
theorem startOf?_eq_root_iff {pieces : List Bytes} :
    startOf? pieces = some .root ↔ ∃ rest, pieces = [] :: rest ∧ rest ≠ [] := by
  cases pieces with
  | nil => simp [startOf?]
  | cons first rest =>
    by_cases hhere : first = here
    · subst hhere
      simp [startOf?, here]
    · simp [startOf?, hhere, and_assoc]

/-- A path begins at the root just if its first step is the one to the root. -/
theorem isAbsolute_iff : p.isAbsolute = true ↔ p.steps.head? = some .root := by
  have hstart : p.steps.head? = some .root ↔ startOf? p.pieces = some .root := by
    rw [steps]
    cases h : startOf? p.pieces with
    | some step => simp
    | none =>
      refine iff_of_false (fun hhead => ?_) nofun
      exact root_not_mem_filterMap _ (List.mem_of_head? hhead)
  rw [hstart, startOf?_eq_root_iff, isAbsolute, beq_iff_eq]
  constructor
  · intro h
    obtain ⟨back, hback⟩ := List.head?_eq_some_iff.mp h
    refine ⟨back.splitOn separator, ?_, List.splitOn_ne_nil _ _⟩
    rw [pieces, hback]
    exact List.splitOn_append_cons_self [] back
  · rintro ⟨rest, hpieces, hrest⟩
    -- the path is put together again from an empty piece and the others
    have hbytes : [separator].intercalate (p.bytes.splitOn separator) = p.bytes :=
      List.intercalate_splitOn separator
    rw [show p.bytes.splitOn separator = [] :: rest from hpieces] at hbytes
    cases rest with
    | nil => exact absurd rfl hrest
    | cons second rest =>
      rw [List.intercalate_cons_cons] at hbytes
      rw [← hbytes]
      rfl

/-- `Trims pieces kept`: of the pieces of a path, some that make no step have been left out. -/
inductive Trims : List Bytes → List Bytes → Prop
  | nil : Trims [] []
  | keep {pieces kept} (piece) : Trims pieces kept → Trims (piece :: pieces) (piece :: kept)
  | drop {piece pieces kept} : stepOf? piece = none → Trims pieces kept →
      Trims (piece :: pieces) kept

/-- Pieces in front can be kept. -/
theorem Trims.append_left {pieces kept : List Bytes} (h : Trims pieces kept) :
    ∀ before, Trims (before ++ pieces) (before ++ kept)
  | [] => h
  | piece :: before => .keep piece (h.append_left before)

/-- Pieces come down to those that make a step. -/
theorem trims_filterMap (pieces : List Bytes) :
    Trims pieces ((pieces.filterMap stepOf?).filterMap Step.piece?) := by
  induction pieces with
  | nil => exact .nil
  | cons piece pieces ih =>
    cases hstep : stepOf? piece with
    | none =>
      rw [List.filterMap_cons_none hstep]
      exact .drop hstep ih
    | some step =>
      rw [List.filterMap_cons_some hstep, List.filterMap_cons_some (piece?_of_stepOf? hstep)]
      exact .keep piece ih

/-- Of the pieces of a path those can be kept that its steps tell. -/
theorem trims_pieces (p : Path) : Trims p.pieces (p.steps.filterMap Step.piece?) := by
  have hstart : (startOf? p.pieces).toList.filterMap Step.piece? = [] := by
    cases h : startOf? p.pieces with
    | none => rfl
    | some step => rw [Option.toList_some, List.filterMap_cons_none (piece?_of_startOf? h)]; rfl
  rw [steps, List.filterMap_append, hstart]
  exact trims_filterMap _

/-! ## The order of paths -/

namespace Step

variable {a b c : Step}

theorem before_trans (hab : a.before b = true) (hbc : b.before c = true) : a.before c = true := by
  cases a <;> cases b <;> cases c
  case name.name.name =>
    exact decide_eq_true (List.lt_trans (of_decide_eq_true hab) (of_decide_eq_true hbc))
  all_goals simp_all [before, rank]

theorem before_irrefl (a : Step) : a.before a = false := by
  cases a with
  | name n => exact decide_eq_false (List.lt_irrefl n)
  | root | here | up => rfl

/-- Of two different steps one comes before the other. -/
theorem before_trichotomy (a b : Step) : a.before b = true ∨ a = b ∨ b.before a = true := by
  cases a <;> cases b
  case name.name m n =>
    by_cases heq : m = n
    · exact .inr (.inl (congrArg name heq))
    · have hlt : ∀ {m n : Bytes}, m ≠ n → m ≤ n → m < n :=
        fun hne hle => List.not_le.mp fun hge => hne (List.le_antisymm hle hge)
      rcases List.le_total m n with hle | hle
      · exact .inl (decide_eq_true (hlt heq hle))
      · exact .inr (.inr (decide_eq_true (hlt (Ne.symm heq) hle)))
  all_goals simp [before, rank]

end Step

/-- Steps are compared one by one, up to the first that differ. -/
theorem stepsLe_cons {a b : Step} {as bs : List Step} :
    stepsLe (a :: as) (b :: bs) = true ↔ a.before b = true ∨ a = b ∧ stepsLe as bs = true := by
  simp [stepsLe]

theorem stepsLe_trans {as bs cs : List Step} (hab : stepsLe as bs = true)
    (hbc : stepsLe bs cs = true) : stepsLe as cs = true := by
  induction as generalizing bs cs with
  | nil => rfl
  | cons a as ih =>
    cases bs with
    | nil => cases hab
    | cons b bs =>
      cases cs with
      | nil => cases hbc
      | cons c cs =>
        rw [stepsLe_cons] at hab hbc ⊢
        rcases hab with hab | ⟨rfl, has⟩ <;> rcases hbc with hbc | ⟨rfl, hbs⟩
        · exact .inl (Step.before_trans hab hbc)
        · exact .inl hab
        · exact .inl hbc
        · exact .inr ⟨rfl, ih has hbs⟩

theorem stepsLe_total (as bs : List Step) : stepsLe as bs = true ∨ stepsLe bs as = true := by
  induction as generalizing bs with
  | nil => exact .inl rfl
  | cons a as ih =>
    cases bs with
    | nil => exact .inr rfl
    | cons b bs =>
      rw [stepsLe_cons, stepsLe_cons]
      rcases Step.before_trichotomy a b with h | rfl | h
      · exact .inl (.inl h)
      · exact (ih bs).imp (fun h => .inr ⟨rfl, h⟩) fun h => .inr ⟨rfl, h⟩
      · exact .inr (.inl h)

theorem stepsLe_antisymm {as bs : List Step} (hab : stepsLe as bs = true)
    (hba : stepsLe bs as = true) : as = bs := by
  induction as generalizing bs with
  | nil =>
    cases bs with
    | nil => rfl
    | cons b bs => cases hba
  | cons a as ih =>
    cases bs with
    | nil => cases hab
    | cons b bs =>
      rw [stepsLe_cons] at hab hba
      rcases hab with hab | ⟨rfl, has⟩
      · have hself : a.before a = true := by
          rcases hba with hba | ⟨rfl, -⟩
          · exact Step.before_trans hab hba
          · exact hab
        rw [Step.before_irrefl] at hself
        cases hself
      · rcases hba with hba | ⟨-, hbs⟩
        · rw [Step.before_irrefl] at hba
          cases hba
        · rw [ih has hbs]

/-- Paths are the same if they have the same steps, however they are written. -/
theorem same_iff : p.same q = true ↔ p.steps = q.steps := beq_iff_eq

/-- Whether a path comes before another one and is not the same. -/
def Before (p q : Path) : Prop := p.le q = true ∧ p.same q = false

/-- The paths of a list without those that are the same as one right before them. -/
def distinct (ps : List Path) : List Path := ps.foldr (fun p rest => p :: rest.dropWhile p.same) []

theorem distinct_cons (p : Path) (ps : List Path) :
    distinct (p :: ps) = p :: (distinct ps).dropWhile p.same := rfl

/-- Leaving paths out adds none. -/
theorem mem_of_mem_distinct {ps : List Path} (h : p ∈ distinct ps) : p ∈ ps := by
  induction ps with
  | nil => cases h
  | cons a as ih =>
    rw [distinct_cons] at h
    rcases List.mem_cons.mp h with rfl | h
    · exact List.mem_cons_self
    · exact List.mem_cons_of_mem _ (ih ((List.dropWhile_suffix _).mem h))

/-- For each path that is left out there is one that is the same. -/
theorem exists_mem_distinct {ps : List Path} (h : q ∈ ps) :
    ∃ f ∈ distinct ps, f.same q = true := by
  induction ps with
  | nil => cases h
  | cons a as ih =>
    rw [distinct_cons]
    rcases List.mem_cons.mp h with rfl | h
    · exact ⟨q, List.mem_cons_self, same_iff.mpr rfl⟩
    · obtain ⟨f, hf, hsame⟩ := ih h
      by_cases haf : a.same f = true
      · exact ⟨a, List.mem_cons_self, same_iff.mpr ((same_iff.mp haf).trans (same_iff.mp hsame))⟩
      · refine ⟨f, List.mem_cons_of_mem _ ?_, hsame⟩
        rw [← List.takeWhile_append_dropWhile (p := a.same) (l := distinct as)] at hf
        refine (List.mem_append.mp hf).resolve_left fun htaken => haf ?_
        exact List.mem_takeWhile_imp htaken

/-- A path that is not after any of a strictly increasing list is strictly before those that are left
of them when it drops what is the same. -/
theorem before_of_mem_dropWhile {a f : Path} {kept : List Path} (hkept : kept.Pairwise Before)
    (hle : ∀ f ∈ kept, a.le f = true) (hf : f ∈ kept.dropWhile a.same) : a.Before f := by
  have hsuffix := List.dropWhile_suffix (l := kept) a.same
  refine ⟨hle f (hsuffix.mem hf), Bool.eq_false_iff.mpr fun hsame => ?_⟩
  cases hrest : kept.dropWhile a.same with
  | nil =>
    rw [hrest] at hf
    cases hf
  | cons b rest =>
    have hb : a.same b = false := by
      have hne : kept.dropWhile a.same ≠ [] := by
        rw [hrest]
        exact List.cons_ne_nil _ _
      have hhead := List.head_dropWhile_not a.same hne
      simpa [hrest] using hhead
    rw [hrest] at hf hsuffix
    rcases List.mem_cons.mp hf with rfl | hf
    · exact Bool.false_ne_true (hb.symm.trans hsame)
    · -- `b` lies between `a` and `f`, which have the same steps
      have hab := hle b (hsuffix.mem List.mem_cons_self)
      have hbf := (List.pairwise_cons.mp (hkept.sublist hsuffix.sublist)).1 f hf
      have hba : b.le a = true := by
        rw [le, same_iff.mp hsame]
        exact hbf.1
      exact Bool.false_ne_true (hb.symm.trans (same_iff.mpr (stepsLe_antisymm hab hba)))

/-- Of paths that are sorted, a strictly increasing list is left. -/
theorem pairwise_distinct {ps : List Path} (h : ps.Pairwise fun p q => p.le q = true) :
    (distinct ps).Pairwise Before := by
  induction ps with
  | nil => exact .nil
  | cons a as ih =>
    obtain ⟨hle, has⟩ := List.pairwise_cons.mp h
    rw [distinct_cons]
    refine List.pairwise_cons.mpr ⟨fun f => ?_, (ih has).sublist (List.dropWhile_sublist _)⟩
    exact before_of_mem_dropWhile (ih has) fun f hf => hle f (mem_of_mem_distinct hf)

theorem inOrder_nil : inOrder [] = [] := by
  rw [inOrder, List.mergeSort_nil, List.foldr_nil]

theorem inOrder_singleton (p : Path) : inOrder [p] = [p] := by
  rw [inOrder, List.mergeSort_singleton, List.foldr_cons, List.foldr_nil, List.dropWhile_nil]

/-- In order, a path is strictly before those that are listed after it, and each path is listed, or
else one that is the same. -/
theorem inOrder_spec (ps : List Path) :
    (inOrder ps).Pairwise Before ∧ (∀ f ∈ inOrder ps, f ∈ ps) ∧
      ∀ q ∈ ps, ∃ f ∈ inOrder ps, f.same q = true := by
  have hsorted : (ps.mergeSort le).Pairwise fun p q => p.le q = true :=
    List.pairwise_mergeSort (fun a b c => @stepsLe_trans a.steps b.steps c.steps)
      (fun p q => (Bool.or_eq_true _ _).mpr (stepsLe_total p.steps q.steps)) ps
  show (distinct (ps.mergeSort le)).Pairwise Before ∧ (∀ f ∈ distinct (ps.mergeSort le), f ∈ ps) ∧
    ∀ q ∈ ps, ∃ f ∈ distinct (ps.mergeSort le), f.same q = true
  refine ⟨pairwise_distinct hsorted, fun f hf => List.mem_mergeSort.mp (mem_of_mem_distinct hf), ?_⟩
  exact fun q hq => exists_mem_distinct (List.mem_mergeSort.mpr hq)

end ContentGrammar.Path
