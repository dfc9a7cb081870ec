import Mathlib.Data.List.Basic
import ContentGrammar.Files.Tree
import ContentGrammar.Proofs.Files.Path

/-!
# Where paths lead

A path is followed piece by piece (`walkFrom_step`), so where it leads can be told from where the
pieces before lead (`walkFrom_append`). For what is in a directory this says that its path leads to
the place with one name more, unless it cannot be used at all (`find_join`), and that a path of
something in a directory leads nowhere if that of the directory does not (`find_of_join`). Pieces that
make no step can be left out, so paths with the same steps never lead to two places (`find_unique`).
-/

namespace ContentGrammar

open ContentGrammar.Path (IsName)

namespace FileTree

variable {t : FileTree} {allowed : Location → Bool} {p q : Path} {l m : Location} {name : Bytes}
  {links : Nat} {e : FileError}

/-! ## What is directly under a place -/

/-- Something is directly under a place just if its name is listed there. -/
theorem mem_names : name ∈ t.names l ↔ t.get? (l ++ [name]) ≠ none := by
  have hget : t.get? (l ++ [name]) = (t.entries.find? (·.1 == l ++ [name])).map (·.2) := by
    rw [get?, if_neg (by simp)]
  have hsplit : ∀ place : Location,
      (if place.dropLast == l then place.getLast? else none) = some name ↔ place = l ++ [name] := by
    intro place
    constructor
    · intro h
      split at h
      case isTrue hl => rw [← List.dropLast_append_getLast? _ h, eq_of_beq hl]
      case isFalse => cases h
    · rintro rfl
      simp
  rw [names, List.mem_eraseDups, List.mem_mergeSort, List.mem_filterMap, hget, ne_eq,
    Option.map_eq_none_iff, List.find?_eq_none]
  simp only [hsplit]
  simp only [beq_iff_eq, not_forall, not_not, exists_prop]

theorem nodup_eraseDups {α : Type} [BEq α] [LawfulBEq α] (as : List α) : as.eraseDups.Nodup := by
  cases as with
  | nil => exact .nil
  | cons a as =>
    rw [List.eraseDups_cons, List.nodup_cons, List.mem_eraseDups]
    exact ⟨by simp, nodup_eraseDups _⟩
termination_by as.length
decreasing_by exact Nat.lt_succ_of_le (List.length_filter_le _ _)

theorem nodup_names (t : FileTree) (l : Location) : (t.names l).Nodup := nodup_eraseDups _

/-! ## Following a path -/

/-- Only a directory can be gone on from. -/
theorem directory_of_walkFrom {follow : Bool} {piece : Bytes} {rest : List Bytes}
    (h : t.walkFrom allowed follow links l (piece :: rest) = .ok m) : t.get? l = some .directory := by
  rw [walkFrom] at h
  split at h
  · assumption
  · cases h

/-- A step in a directory: an empty piece and `.` stay there, `..` goes to what is around it, and a
name leads to an entry or along the target of a link. -/
theorem walkFrom_cons (hl : t.get? l = some .directory) (follow : Bool) (piece : Bytes)
    (rest : List Bytes) :
    t.walkFrom allowed follow links l (piece :: rest) =
      if piece == [] || piece == Path.here then t.walkFrom allowed follow links l rest
      else if piece == Path.up then t.walkFrom allowed follow links l.dropLast rest
      else if nameLimit < piece.length || !allowed (l ++ [piece]) then .error .tooLong
      else
        match t.get? (l ++ [piece]) with
        | none => .error .notFound
        | some (.link target) =>
          if !follow && rest.isEmpty then .ok (l ++ [piece])
          else
            match links with
            | 0 => .error .tooManyLinks
            | links + 1 => t.walkFrom allowed follow links (origin target l) (target.pieces ++ rest)
        | some _ => t.walkFrom allowed follow links (l ++ [piece]) rest := by
  rw [walkFrom]
  split
  case h_1 => rfl
  case h_2 hnot => exact absurd hl hnot

theorem walkFrom_empty (hl : t.get? l = some .directory) {follow : Bool} :
    t.walkFrom allowed follow links l [[]] = .ok l := by
  rw [walkFrom_cons hl, if_pos (by decide), walkFrom]

/-- A single name leads one place further, unless the name is too long. If it is that of a link, this
is so as long as links are not followed. -/
theorem walkFrom_name (hl : t.get? l = some .directory) (hname : IsName name) {entry : Entry}
    (hentry : t.get? (l ++ [name]) = some entry) :
    (∃ e, ∀ links follow, t.walkFrom anywhere follow links l [name] = .error e) ∨
      (∀ links, t.walkFrom anywhere false links l [name] = .ok (l ++ [name])) ∧
        ((∀ target, entry ≠ .link target) →
          ∀ links, t.walkFrom anywhere true links l [name] = .ok (l ++ [name])) := by
  have hstay : ¬ (name == [] || name == Path.here) = true := by simp [hname.nonempty, hname.notHere]
  have hup : ¬ (name == Path.up) = true := by simp [hname.notUp]
  simp only [walkFrom_cons hl, if_neg hstay, if_neg hup, hentry, anywhere, Bool.not_true,
    Bool.or_false, decide_eq_true_eq]
  by_cases hlong : nameLimit < name.length
  · exact .inl ⟨.tooLong, fun _ _ => if_pos hlong⟩
  · simp only [if_neg hlong]
    refine .inr ?_
    cases entry with
    | link target => exact ⟨fun _ => rfl, fun h => (h target rfl).elim⟩
    | file content | directory => simp [walkFrom]

/-- At the last piece it matters whether links are followed if it is that of a link. -/
theorem walkFrom_last {piece : Bytes} (h : t.walkFrom allowed true links l [piece] = .ok m) :
    t.walkFrom allowed false links l [piece] = .ok m ∨ ∃ place target,
      t.walkFrom allowed false links l [piece] = .ok place ∧ t.get? place = some (.link target) := by
  have hl := directory_of_walkFrom h
  simp only [walkFrom_cons hl] at h ⊢
  split at h
  case isTrue hstay =>
    rw [if_pos hstay, walkFrom]
    rw [walkFrom] at h
    exact .inl h
  case isFalse hstay =>
  rw [if_neg hstay]
  split at h
  case isTrue hup =>
    rw [if_pos hup, walkFrom]
    rw [walkFrom] at h
    exact .inl h
  case isFalse hup =>
  rw [if_neg hup]
  split at h
  case isTrue => cases h
  case isFalse hlong =>
  rw [if_neg hlong]
  split at h
  case h_1 => cases h
  -- without following it, the path leads to the link itself
  case h_2 target htarget => exact .inr ⟨_, target, rfl, htarget⟩
  case h_3 =>
    rw [walkFrom] at h ⊢
    exact .inl h

/-- A path is followed from the place where one is, or from the root around it. -/
theorem origin_around (p : Path) (l : Location) : origin p l <+: l := by
  rw [origin]
  split
  · exact List.nil_prefix
  · exact List.prefix_rfl

/-- A path that can be followed goes on from its first piece in one way, to another place or along
the pieces of the target of a link, whatever comes after the piece. The other place is around the
first one unless it is allowed. Only if the piece is the last one it matters whether links are
followed. -/
theorem walkFrom_step {piece : Bytes} {rest : List Bytes}
    (h : t.walkFrom allowed true links l (piece :: rest) = .ok m) :
    ∃ links' l' before, (links' < links ∨ links' = links ∧ before = []) ∧
      (l' <+: l ∨ allowed l' = true) ∧ ∀ follow rest', follow = true ∨ rest' ≠ [] →
        t.walkFrom allowed follow links l (piece :: rest') =
          t.walkFrom allowed follow links' l' (before ++ rest') := by
  have hl := directory_of_walkFrom h
  simp only [walkFrom_cons hl] at h ⊢
  split at h
  case isTrue hstay =>
    refine ⟨links, l, [], .inr ⟨rfl, rfl⟩, .inl List.prefix_rfl, fun follow rest' _ => ?_⟩
    rw [if_pos hstay, List.nil_append]
  case isFalse hstay =>
  simp only [if_neg hstay]
  split at h
  case isTrue hup =>
    refine ⟨links, l.dropLast, [], .inr ⟨rfl, rfl⟩, .inl l.dropLast_prefix, fun follow rest' _ => ?_⟩
    rw [if_pos hup, List.nil_append]
  case isFalse hup =>
  simp only [if_neg hup]
  split at h
  case isTrue => cases h
  case isFalse hlong =>
  simp only [if_neg hlong]
  split at h
  case h_1 => cases h
  case h_2 target htarget =>
    cases links with
    | zero => cases h
    | succ links =>
      refine ⟨links, origin target l, target.pieces, .inl (Nat.lt_succ_self _),
        .inl (origin_around target l), ?_⟩
      intro follow rest' hfollow
      -- whether links are followed matters for a link at the end only
      rw [if_neg]
      rcases hfollow with rfl | hrest <;> simp [*]
  case h_3 entry hlink hentry =>
    have hallowed : allowed (l ++ [piece]) = true := by
      simpa using (Bool.or_eq_false_iff.mp (Bool.eq_false_iff.mpr hlong)).2
    exact ⟨links, l ++ [piece], [], .inr ⟨rfl, rfl⟩, .inr hallowed, fun _ _ _ => rfl⟩

/-- Where the pieces of a path lead can be told from where those before the last of them lead. -/
theorem walkFrom_append {links : Nat} {l : Location} {pieces rest : List Bytes}
    (h : t.walkFrom allowed true links l (pieces ++ rest) = .ok m) :
    ∃ links' l', t.walkFrom allowed true links l pieces = .ok l' ∧
      t.walkFrom allowed true links' l' rest = .ok m ∧ ∀ follow rest', rest' ≠ [] →
        t.walkFrom allowed follow links l (pieces ++ rest') =
          t.walkFrom allowed follow links' l' rest' := by
  match pieces with
  | [] => exact ⟨links, l, by rw [walkFrom], h, fun _ _ _ => rfl⟩
  | piece :: pieces =>
    rw [List.cons_append] at h
    obtain ⟨links₁, l₁, before, hless, -, hstep⟩ := walkFrom_step h
    rw [hstep true _ (.inl rfl), ← List.append_assoc] at h
    obtain ⟨links', l', hfirst, hrest, hall⟩ := walkFrom_append h
    refine ⟨links', l', by rw [hstep true _ (.inl rfl), hfirst], hrest, fun follow rest' hne => ?_⟩
    rw [List.cons_append, hstep follow _ (.inr (by simp [hne])), ← List.append_assoc,
      hall follow rest' hne]
termination_by (links, pieces.length)
decreasing_by
  rcases hless with hless | ⟨rfl, rfl⟩
  · exact Prod.Lex.left _ _ hless
  · exact Prod.Lex.right _ (Nat.lt_succ_self _)

/-- Whether a path can be used at all, whatever the tree. -/
structure Usable (p : Path) : Prop where
  noNul : 0 ∉ p.bytes
  nonempty : p.bytes ≠ []
  short : p.bytes.length ≤ pathLimit

theorem refusal?_eq_none_iff : refusal? p = none ↔ 0 ∉ p.bytes ∧ p.bytes ≠ [] := by
  by_cases hnul : 0 ∈ p.bytes
  · simp [refusal?, hnul]
  · simp [refusal?, hnul]

/-- A path that can be used is followed piece by piece. -/
theorem find_of_usable (h : Usable p) (follow : Bool) :
    t.find follow p = t.walkFrom anywhere follow linkLimit (origin p t.current) p.pieces := by
  rw [find, refusal?_eq_none_iff.mpr ⟨h.noNul, h.nonempty⟩]
  exact if_neg (Nat.not_lt.mpr h.short)

/-- A path that cannot be used leads nowhere, whether links are followed or not. -/
theorem usable_or_error (t : FileTree) (p : Path) :
    Usable p ∨ ∃ e, ∀ follow, t.find follow p = .error e := by
  cases hrefusal : refusal? p with
  | some e => exact .inr ⟨e, fun follow => by rw [find, hrefusal]⟩
  | none =>
    obtain ⟨hnul, hempty⟩ := refusal?_eq_none_iff.mp hrefusal
    by_cases hlong : pathLimit < p.bytes.length
    · refine .inr ⟨.tooLong, fun follow => ?_⟩
      rw [find, hrefusal]
      exact if_pos hlong
    · exact .inl ⟨hnul, hempty, Nat.not_lt.mp hlong⟩

theorem usable_of_find {follow : Bool} (h : t.find follow p = .ok l) : Usable p := by
  rcases t.usable_or_error p with hp | ⟨e, he⟩
  · exact hp
  · cases h.symm.trans (he follow)

theorem exists_bytes_join (p : Path) (name : Bytes) : ∃ bs, (p.join name).bytes = p.bytes ++ bs := by
  rw [Path.join]
  split
  · exact ⟨name, rfl⟩
  · exact ⟨Path.separator :: name, rfl⟩

/-- If the path of something in a directory can be used, so can that of the directory, which is
shorter. -/
theorem usable_of_join (hne : p.bytes ≠ []) (h : Usable (p.join name)) : Usable p := by
  obtain ⟨bs, hbs⟩ := exists_bytes_join p name
  refine ⟨fun hmem => h.noNul ?_, hne, ?_⟩
  · rw [hbs]
    exact List.mem_append_left _ hmem
  · have hshort := h.short
    rw [hbs, List.length_append] at hshort
    omega

theorem origin_join (hne : p.bytes ≠ []) (name : Bytes) (l : Location) :
    origin (p.join name) l = origin p l := by
  obtain ⟨bs, hbs⟩ := exists_bytes_join p name
  rw [origin, origin, Path.isAbsolute, Path.isAbsolute, hbs, List.head?_append_of_ne_nil _ hne]

/-- What is in a directory is found from the directory on, unless its path cannot be used. -/
theorem find_join (hp : t.find true p = .ok l) (hname : Path.separator ∉ name) :
    (∃ e, ∀ follow, t.find follow (p.join name) = .error e) ∨
      ∃ links, ∀ follow, t.find follow (p.join name) = t.walkFrom anywhere follow links l [name] := by
  rcases t.usable_or_error (p.join name) with hjoin | herror
  · have husable := usable_of_find hp
    rw [find_of_usable husable] at hp
    obtain ⟨base, hbase, hpieces⟩ := p.exists_base
    -- a separator at the end of the path makes no difference
    obtain ⟨rest, hrest, hp⟩ : ∃ rest, (rest = [] ∨ rest = [[]]) ∧
        t.walkFrom anywhere true linkLimit (origin p t.current) (base ++ rest) = .ok l := by
      rcases hbase with ⟨heq, -⟩ | heq
      · exact ⟨[], .inl rfl, by rwa [List.append_nil, ← heq]⟩
      · exact ⟨[[]], .inr rfl, by rwa [← heq]⟩
    obtain ⟨links, l', -, hrest', hall⟩ := walkFrom_append hp
    have hl' : l' = l := by
      rcases hrest with rfl | rfl
      · rw [walkFrom] at hrest'
        exact Except.ok.inj hrest'
      · rw [walkFrom_empty (directory_of_walkFrom hrest')] at hrest'
        exact Except.ok.inj hrest'
    refine .inr ⟨links, fun follow => ?_⟩
    rw [find_of_usable hjoin, origin_join husable.nonempty, hpieces name hname,
      hall follow [name] (List.cons_ne_nil _ _), hl']
  · exact .inl herror

/-- What is found in a directory is found by way of the directory. -/
theorem find_of_join (hne : p.bytes ≠ []) (hname : Path.separator ∉ name)
    (h : t.find true (p.join name) = .ok m) : ∃ l, t.find true p = .ok l := by
  have hjoin := usable_of_find h
  obtain ⟨base, hbase, hpieces⟩ := p.exists_base
  rw [find_of_usable hjoin, origin_join hne, hpieces name hname] at h
  obtain ⟨links, l, hfirst, hrest, hall⟩ := walkFrom_append h
  refine ⟨l, ?_⟩
  rw [find_of_usable (usable_of_join hne hjoin)]
  rcases hbase with ⟨heq, -⟩ | heq
  · rw [heq, hfirst]
  · rw [heq, hall true [[]] (List.cons_ne_nil _ _), walkFrom_empty (directory_of_walkFrom hrest)]

/-- The path of something in a directory leads one place further, unless it cannot be used. -/
theorem find_child (hp : t.find true p = .ok l) (hl : t.get? l = some .directory)
    (hname : IsName name) {entry : Entry} (hentry : t.get? (l ++ [name]) = some entry) :
    (∃ e, ∀ follow, t.find follow (p.join name) = .error e) ∨
      t.find false (p.join name) = .ok (l ++ [name]) ∧
        ((∀ target, entry ≠ .link target) → t.find true (p.join name) = .ok (l ++ [name])) := by
  rcases find_join hp hname.whole with herror | ⟨links, hall⟩
  · exact .inl herror
  · simp only [hall]
    exact (walkFrom_name hl hname hentry).imp (fun ⟨e, he⟩ => ⟨e, he links⟩)
      fun ⟨hfalse, htrue⟩ => ⟨hfalse links, fun h => htrue h links⟩

/-- Without following a link at its end, a path leads to the same place or to the link. -/
theorem find_false_of_find_true (h : t.find true p = .ok l) :
    t.find false p = .ok l ∨ ∃ place target, t.find false p = .ok place ∧
      t.get? place = some (.link target) := by
  have husable := usable_of_find h
  have hpieces := List.dropLast_concat_getLast p.pieces_ne_nil
  rw [find_of_usable husable, ← hpieces] at h
  obtain ⟨links, m, -, hlast, hall⟩ := walkFrom_append h
  rw [find_of_usable husable, ← hpieces, hall false _ (List.cons_ne_nil _ _)]
  exact walkFrom_last hlast

theorem entry?_eq_some_iff {entry : Entry} :
    t.entry? p = some entry ↔ ∃ l, t.find true p = .ok l ∧ t.get? l = some entry := by
  unfold entry?
  cases t.find true p with
  | error e => simp [Except.toOption]
  | ok l => simp [Except.toOption]

/-- What can be read are files. -/
theorem read_eq_ok_iff {content : ByteArray} :
    t.read p = .ok content ↔ t.entry? p = some (.file content) := by
  rw [entry?_eq_some_iff, read]
  cases t.find true p with
  | error e => exact iff_of_false nofun nofun
  | ok l =>
    simp only [bind, Except.bind, Except.ok.injEq, exists_eq_left']
    split
    case h_1 content' hl => simp [hl, pure, Except.pure]
    case h_2 hl => simp [hl, throw, throwThe, MonadExceptOf.throw]
    case h_3 hfile hdirectory => exact iff_of_false nofun fun hl => hfile content hl

/-! ## Paths with the same steps -/

/-- A piece that makes no step stays in the directory where it is. -/
theorem walkFrom_of_stepOf?_eq_none {piece : Bytes} {rest : List Bytes}
    (hpiece : Path.stepOf? piece = none)
    (h : t.walkFrom allowed true links l (piece :: rest) = .ok m) :
    t.walkFrom allowed true links l rest = .ok m := by
  have hstay : (piece == [] || piece == Path.here) = true := by
    by_contra hstay
    rw [Path.stepOf?, if_neg hstay] at hpiece
    split at hpiece <;> cases hpiece
  rwa [walkFrom_cons (directory_of_walkFrom h), if_pos hstay] at h

/-- Pieces that can be followed lead to the same place when some that make no step are left out. -/
theorem walkFrom_of_trims {links : Nat} {l : Location} {pieces kept : List Bytes}
    (htrims : Path.Trims pieces kept) (h : t.walkFrom allowed true links l pieces = .ok m) :
    t.walkFrom allowed true links l kept = .ok m := by
  -- a link makes the row of pieces longer, but leaves fewer links
  induction links using Nat.strongRecOn generalizing l pieces kept with
  | ind links fewer =>
    induction htrims generalizing l with
    | nil => exact h
    | keep piece htrims ih =>
      obtain ⟨links', l', before, hless, -, hstep⟩ := walkFrom_step h
      rw [hstep true _ (.inl rfl)] at h ⊢
      rcases hless with hless | ⟨rfl, rfl⟩
      · exact fewer links' hless (htrims.append_left before) h
      · exact ih h
    | drop hpiece htrims ih => exact ih (walkFrom_of_stepOf?_eq_none hpiece h)

/-- Where a path leads, if it does, is told by its steps. -/
theorem walkFrom_of_find (h : t.find true p = .ok l) :
    t.walkFrom anywhere true linkLimit (if p.steps.head? = some .root then [] else t.current)
      (p.steps.filterMap Path.Step.piece?) = .ok l := by
  rw [find_of_usable (usable_of_find h), origin] at h
  simp only [Path.isAbsolute_iff] at h
  exact walkFrom_of_trims p.trims_pieces h

/-- Paths with the same steps do not lead to different places. -/
theorem find_unique (hsame : p.same q = true) (hp : t.find true p = .ok l)
    (hq : t.find true q = .ok m) : l = m := by
  have hp := walkFrom_of_find hp
  rw [Path.same_iff.mp hsame] at hp
  exact Except.ok.inj (hp.symm.trans (walkFrom_of_find hq))

/-- The same paths lead to the same entries. -/
theorem entry?_unique {entry entry' : Entry} (hsame : p.same q = true)
    (hp : t.entry? p = some entry) (hq : t.entry? q = some entry') : entry = entry' := by
  obtain ⟨l, hp, hl⟩ := entry?_eq_some_iff.mp hp
  obtain ⟨m, hq, hm⟩ := entry?_eq_some_iff.mp hq
  obtain rfl := find_unique hsame hp hq
  exact Option.some.inj (hl.symm.trans hm)

end FileTree

end ContentGrammar
