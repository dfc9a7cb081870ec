import ContentGrammar.Proofs.Files.Tree

/-!
# Names in trees

Whatever is put into a tree, the names in it have no separators and are neither empty nor `.` nor
`..` (`Proper.put`, `Proper.putDirectory`). A tree with one file in the current directory is given for
any names (`single`).
-/

namespace ContentGrammar

open ContentGrammar.Path (IsName)

namespace FileTree

variable {t : FileTree} {p : Path} {l : Location} {name : Bytes} {links : Nat} {content : ByteArray}

/-! ## Trees in which all names can be names -/

/-- Whether all names in a tree, and those on the way to the current directory, can be names. -/
structure Proper (t : FileTree) : Prop where
  entries : ∀ e ∈ t.entries, ∀ name ∈ e.1, IsName name
  current : ∀ name ∈ t.current, IsName name

theorem Proper.isName (ht : t.Proper) (h : name ∈ t.names l) : IsName name := by
  rw [mem_names, get?, if_neg (by simp), ne_eq, Option.map_eq_none_iff] at h
  obtain ⟨e, he⟩ := Option.ne_none_iff_exists'.mp h
  have hplace := List.find?_some he
  refine ht.entries e (List.mem_of_find?_eq_some he) name ?_
  rw [eq_of_beq hplace]
  exact List.mem_append_right _ (List.mem_singleton.mpr rfl)

theorem Proper.addDirectory (ht : t.Proper) (hl : ∀ name ∈ l, IsName name) :
    (t.addDirectory l).Proper := by
  rw [FileTree.addDirectory]
  split
  · exact ht
  · exact ⟨List.forall_mem_cons.mpr ⟨hl, ht.entries⟩, ht.current⟩

theorem isName_of_not_special {piece : Bytes} (hstay : ¬ (piece == [] || piece == Path.here) = true)
    (hup : ¬ (piece == Path.up) = true) (hwhole : Path.separator ∉ piece) : IsName piece := by
  simp only [Bool.or_eq_true, beq_iff_eq, not_or] at hstay hup
  exact ⟨hstay.1, hstay.2, hup, hwhole⟩

/-- A piece that leads further adds a name. -/
theorem isName_concat {piece : Bytes} (hl : ∀ name ∈ l, IsName name)
    (hstay : ¬ (piece == [] || piece == Path.here) = true) (hup : ¬ (piece == Path.up) = true)
    (hwhole : Path.separator ∉ piece) : ∀ name ∈ l ++ [piece], IsName name :=
  List.forall_mem_append.mpr
    ⟨hl, List.forall_mem_singleton.mpr (isName_of_not_special hstay hup hwhole)⟩

theorem isName_origin (hl : ∀ name ∈ l, IsName name) : ∀ name ∈ origin p l, IsName name := by
  rw [origin]
  split
  · exact List.forall_mem_nil _
  · exact hl

/-- Clearing the way of a path adds directories only that have names. -/
theorem Proper.clear (ht : t.Proper) {follow : Bool} {pieces : List Bytes}
    (hl : ∀ name ∈ l, IsName name) (hpieces : ∀ piece ∈ pieces, Path.separator ∉ piece) :
    (t.clear follow links l pieces).1.Proper ∧
      ∀ name ∈ (t.clear follow links l pieces).2, IsName name := by
  induction t, links, l, pieces using FileTree.clear.induct follow with
  | case1 t links l =>
    rw [FileTree.clear]
    exact ⟨ht, hl⟩
  | case2 t links l piece rest hstay ih =>
    rw [FileTree.clear, if_pos hstay]
    exact ih ht hl (List.forall_mem_cons.mp hpieces).2
  | case3 t links l piece rest hstay hup ih =>
    rw [FileTree.clear, if_neg hstay, if_pos hup]
    exact ih ht (fun name hname => hl name (List.dropLast_subset _ hname))
      (List.forall_mem_cons.mp hpieces).2
  | case4 t l piece rest hstay hup next target hfollow htarget =>
    obtain ⟨hpiece, hrest⟩ := List.forall_mem_cons.mp hpieces
    have hnext : ∀ name ∈ next, IsName name := isName_concat hl hstay hup hpiece
    rw [FileTree.clear, if_neg hstay, if_neg hup]
    -- with no link left to follow, the way ends at the link itself
    simp only [hfollow, show t.get? (l ++ [piece]) = some (.link target) from htarget]
    exact ⟨ht, hnext⟩
  | case5 t l piece rest hstay hup next target hfollow htarget links ih =>
    rw [FileTree.clear, if_neg hstay, if_neg hup]
    simp only [hfollow, show t.get? (l ++ [piece]) = some (.link target) from htarget]
    exact ih ht (isName_origin hl) (List.forall_mem_append.mpr
      ⟨target.not_mem_pieces, (List.forall_mem_cons.mp hpieces).2⟩)
  | case6 t links l piece rest hstay hup next hlink ih =>
    obtain ⟨hpiece, hrest⟩ := List.forall_mem_cons.mp hpieces
    have hnext : ∀ name ∈ next, IsName name := isName_concat hl hstay hup hpiece
    -- only the pieces before the last one are made directories
    have htree : (if rest.isEmpty then t else t.addDirectory next).Proper := by
      split
      · exact ht
      · exact ht.addDirectory hnext
    rw [FileTree.clear, if_neg hstay, if_neg hup]
    dsimp only
    split
    case h_1 target htarget hfollow => exact (hlink target htarget hfollow).elim
    case h_2 => exact ih htree hnext hrest

/-- Whatever is put into a tree, all names in it can be names. -/
theorem Proper.put (ht : t.Proper) (p : Path) (entry : Entry) : (t.put p entry).Proper := by
  obtain ⟨htree, hl⟩ := ht.clear (isName_origin ht.current) p.not_mem_pieces
  exact ⟨List.forall_mem_cons.mpr ⟨hl, htree.entries⟩, htree.current⟩

theorem Proper.putDirectory (ht : t.Proper) (p : Path) : (t.putDirectory p).Proper := by
  obtain ⟨htree, hl⟩ := ht.clear (isName_origin ht.current) p.not_mem_pieces
  exact htree.addDirectory hl

theorem proper_empty {current : Location} (h : ∀ name ∈ current, IsName name) :
    (empty current).Proper :=
  Proper.putDirectory ⟨List.forall_mem_nil _, h⟩ _

/-! ## Trees with one file -/

/-- The directories around a place and the one at it. -/
def around (l : Location) : List (Location × Entry) :=
  (l, .directory) :: (List.range l.length).map fun n => (l.take n, .directory)

/-- A tree with a file in the current directory and nothing else but the directories around it. -/
def single (l : Location) (name : Bytes) (content : ByteArray) : FileTree :=
  ⟨(l ++ [name], .file content) :: around l, l⟩

theorem prefix_of_mem_around {e : Location × Entry} (h : e ∈ around l) : e.1 <+: l := by
  rcases List.mem_cons.mp h with rfl | h
  · exact List.prefix_rfl
  · obtain ⟨n, -, rfl⟩ := List.mem_map.mp h
    exact l.take_prefix n

theorem get?_single : (single l name content).get? (l ++ [name]) = some (.file content) := by
  rw [get?, if_neg (by simp), single, List.find?_cons_of_pos (by simp), Option.map_some]

theorem get?_current_single : (single l name content).get? l = some .directory := by
  rw [get?]
  split
  case isTrue => rfl
  case isFalse =>
    rw [single, List.find?_cons_of_neg (by simp), around, List.find?_cons_of_pos (by simp),
      Option.map_some]

theorem names_single : (single l name content).names l = [name] := by
  have haround : ∀ e ∈ around l, (if e.1.dropLast == l then e.1.getLast? else none) = none := by
    intro e he
    split
    case isFalse => rfl
    case isTrue heq =>
      -- only the root is around the directory and in it
      have hlength := congrArg List.length (eq_of_beq heq)
      have hle := (prefix_of_mem_around he).length_le
      rw [List.length_dropLast] at hlength
      rw [List.getLast?_eq_none_iff, ← List.length_eq_zero_iff]
      omega
  rw [names, single, List.filterMap_cons_some (b := name) (by simp),
    List.filterMap_eq_nil_iff.mpr haround, List.mergeSort_singleton]
  rfl

theorem proper_single (hl : ∀ name ∈ l, IsName name) (hname : IsName name) :
    (single l name content).Proper := by
  refine ⟨List.forall_mem_cons.mpr ⟨?_, fun e he name hmem => ?_⟩, hl⟩
  · exact List.forall_mem_append.mpr ⟨hl, List.forall_mem_singleton.mpr hname⟩
  · exact hl name ((prefix_of_mem_around he).subset hmem)

end FileTree

end ContentGrammar
