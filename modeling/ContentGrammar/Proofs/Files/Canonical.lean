import Mathlib
import ContentGrammar.Proofs.Files.Tree

/-!
# Places written out from the root

A path whose place is to be written out from the root leads to the same place, unless it or one on the
way there is too long (`canonicalize_of_find`), or the path can be written out only because it is not
followed as a whole (`find_of_canonicalize`). The places to which paths resolve are never too long
(`withinLimit_of_canonicalize`).
-/

namespace ContentGrammar

namespace FileTree

variable {t : FileTree} {allowed : Location → Bool} {p : Path} {l m : Location} {links : Nat}

/-! ## Places that are allowed -/

/-- If what is around an allowed place is allowed, paths lead from allowed places to allowed ones. -/
theorem allowed_of_walkFrom (haround : ∀ l m, l <+: m → allowed m = true → allowed l = true)
    {links : Nat} {l : Location} {pieces : List Bytes} (hl : allowed l = true)
    (h : t.walkFrom allowed true links l pieces = .ok m) : allowed m = true := by
  match pieces with
  | [] =>
    rw [walkFrom] at h
    rwa [← Except.ok.inj h]
  | piece :: rest =>
    obtain ⟨links', l', before, hless, hplace, hstep⟩ := walkFrom_step h
    have hl' : allowed l' = true := hplace.elim (fun hinside => haround l' l hinside hl) id
    rw [hstep true _ (.inl rfl)] at h
    exact allowed_of_walkFrom haround hl' h
termination_by (links, pieces.length)
decreasing_by
  rcases hless with hless | ⟨rfl, rfl⟩
  · exact Prod.Lex.left _ _ hless
  · exact Prod.Lex.right _ (Nat.lt_succ_self _)

theorem walkFrom_of_not_directory (hl : t.get? l ≠ some .directory) (follow : Bool) (piece : Bytes)
    (rest : List Bytes) :
    t.walkFrom allowed follow links l (piece :: rest) = .error .notDirectory := by
  rw [walkFrom]
  split
  case h_1 hdirectory => exact absurd hdirectory hl
  case h_2 => rfl

/-- If not all places are allowed, a path leads to the same place or is too long. -/
theorem walkFrom_eq_or_tooLong (follow : Bool) (links : Nat) (l : Location) (pieces : List Bytes) :
    t.walkFrom allowed follow links l pieces = t.walkFrom anywhere follow links l pieces ∨
      t.walkFrom allowed follow links l pieces = .error .tooLong := by
  induction links, l, pieces using walkFrom.induct t anywhere follow with
  | case1 links l => exact .inl (by rw [walkFrom, walkFrom])
  | case2 links l piece rest hl hstay ih =>
    rw [walkFrom_cons hl, walkFrom_cons hl, if_pos hstay, if_pos hstay]
    exact ih
  | case3 links l piece rest hl hstay hup ih =>
    rw [walkFrom_cons hl, walkFrom_cons hl, if_neg hstay, if_neg hstay, if_pos hup, if_pos hup]
    exact ih
  | case4 links l piece rest hl hstay hup hlong =>
    refine .inr ?_
    rw [walkFrom_cons hl, if_neg hstay, if_neg hup, if_pos]
    simp_all [anywhere]
  | case10 links l piece rest hl =>
    exact .inl (by rw [walkFrom_of_not_directory hl, walkFrom_of_not_directory hl])
  | case8 l piece rest hl hstay hup hshort target htarget hfollow links ih =>
    rw [walkFrom_cons hl, walkFrom_cons hl, if_neg hstay, if_neg hstay, if_neg hup, if_neg hup,
      if_neg hshort]
    -- the two walks differ only in whether the next place is allowed
    by_cases hname : allowed (l ++ [piece]) = true
    · rw [if_neg (by simpa [hname, anywhere] using hshort)]
      simp only [htarget, if_neg hfollow]
      exact ih
    · exact .inr (if_pos (by simp [hname]))
  | case5 links l piece rest hl hstay hup hshort | case6 links l piece rest hl hstay hup hshort
  | case7 l piece rest hl hstay hup hshort | case9 links l piece rest hl hstay hup hshort =>
    rw [walkFrom_cons hl, walkFrom_cons hl, if_neg hstay, if_neg hstay, if_neg hup, if_neg hup,
      if_neg hshort]
    by_cases hname : allowed (l ++ [piece]) = true
    · rw [if_neg (by simpa [hname, anywhere] using hshort)]
      simp_all
    · exact .inr (if_pos (by simp [hname]))

/-! ## Resolving paths -/

/-- A path that leads to a place resolves to it, unless a place on the way is too long. -/
theorem canonicalize_of_find (h : t.find true p = .ok l) :
    t.canonicalize p = .ok l ∨ t.canonicalize p = .error .tooLong := by
  have husable := usable_of_find h
  rw [find_of_usable husable] at h
  rw [canonicalize, refusal?_eq_none_iff.mpr ⟨husable.noNul, husable.nonempty⟩]
  dsimp only
  rw [← h]
  exact walkFrom_eq_or_tooLong _ _ _ _

/-- A path that resolves to a place leads to it, unless it is too long itself. -/
theorem find_of_canonicalize (h : t.canonicalize p = .ok l) :
    t.find true p = .ok l ∨ ∀ follow, t.find follow p = .error .tooLong := by
  rw [canonicalize] at h
  cases hrefusal : refusal? p with
  | some e =>
    rw [hrefusal] at h
    cases h
  | none =>
    rw [hrefusal] at h
    simp only [find, hrefusal]
    by_cases hlong : pathLimit < p.bytes.length
    · exact .inr fun _ => if_pos hlong
    · rw [if_neg hlong]
      rcases walkFrom_eq_or_tooLong true linkLimit (origin p t.current) p.pieces with heq | hlong
      · exact .inl (heq.symm.trans h)
      · cases h.symm.trans hlong

/-- How long the path of a place is: the names and a separator before each, or the separator at the
root alone. -/
theorem length_absolute (l : Location) :
    (absolute l).bytes.length = max 1 (l.map (·.length + 1)).sum := by
  cases l with
  | nil => rfl
  | cons name names =>
    -- between the names there is one separator less than names
    have hlength : ∀ (name : Bytes) (names : List Bytes),
        ([Path.separator].intercalate (name :: names)).length + 1 =
          ((name :: names).map (·.length + 1)).sum := by
      intro name names
      induction names generalizing name with
      | nil => simp
      | cons next names ih =>
        rw [List.intercalate_cons_cons, List.length_append, List.length_append, List.map_cons,
          List.sum_cons, ← ih next]
        simp only [List.length_singleton]
        omega
    rw [absolute, List.length_cons, hlength, List.map_cons, List.sum_cons]
    omega

theorem withinLimit_iff : withinLimit l = true ↔ (l.map (·.length + 1)).sum ≤ pathLimit := by
  have hroot : 1 ≤ pathLimit := by decide
  rw [withinLimit, decide_eq_true_iff, length_absolute]
  omega

theorem withinLimit_of_prefix (h : l <+: m) (hm : withinLimit m = true) : withinLimit l = true := by
  obtain ⟨rest, rfl⟩ := h
  rw [withinLimit_iff, List.map_append, List.sum_append] at hm
  rw [withinLimit_iff]
  omega

/-- No path resolves to a place that is too long, if the current directory is none. -/
theorem withinLimit_of_canonicalize (hcurrent : withinLimit t.current = true)
    (h : t.canonicalize p = .ok l) : withinLimit l = true := by
  rw [canonicalize] at h
  split at h
  case h_1 => cases h
  case h_2 =>
    refine allowed_of_walkFrom (fun _ _ => withinLimit_of_prefix) ?_ h
    exact withinLimit_of_prefix (origin_around p t.current) hcurrent

/-- Whether a path leads to a place and resolves to it. -/
structure Resolves (t : FileTree) (p : Path) (l : Location) : Prop where
  leads : t.find true p = .ok l
  canonical : t.canonicalize p = .ok l

theorem resolves_of_walkFrom (h : Usable p) (hwalk : ∀ allowed,
    t.walkFrom allowed true linkLimit (origin p t.current) p.pieces = .ok l) : t.Resolves p l := by
  constructor
  · rw [find_of_usable h, hwalk]
  · rw [canonicalize, refusal?_eq_none_iff.mpr ⟨h.noNul, h.nonempty⟩]
    exact hwalk withinLimit

theorem resolves_here (hcurrent : t.get? t.current = some .directory) :
    t.Resolves ⟨Path.here⟩ t.current := by
  refine resolves_of_walkFrom ⟨by decide, by decide, by decide⟩ fun allowed => ?_
  show t.walkFrom allowed true linkLimit t.current [Path.here] = .ok t.current
  rw [walkFrom_cons hcurrent, if_pos (by decide), walkFrom]

/-- Separators alone lead to the root. -/
theorem resolves_separators {n : Nat} (hpos : 0 < n) (hshort : n ≤ pathLimit) :
    t.Resolves ⟨List.replicate n Path.separator⟩ [] := by
  refine resolves_of_walkFrom ⟨fun hnul => ?_, fun hnil => ?_, ?_⟩ fun allowed => ?_
  · cases List.eq_of_mem_replicate hnul
  · rw [List.replicate_eq_nil_iff] at hnil
    omega
  · rwa [List.length_replicate]
  · have horigin : origin ⟨List.replicate n Path.separator⟩ t.current = [] := by
      obtain ⟨n, rfl⟩ := Nat.exists_eq_add_one.mpr hpos
      rfl
    -- an empty piece stays where it is
    have hstay : ∀ n, t.walkFrom allowed true linkLimit [] (List.replicate n []) = .ok [] := by
      intro n
      induction n with
      | zero => rw [List.replicate_zero, walkFrom]
      | succ n ih =>
        rw [List.replicate_succ, walkFrom_cons rfl, if_pos (by decide)]
        exact ih
    rw [Path.pieces_separators, horigin, hstay]

end FileTree

end ContentGrammar
