import Mathlib.Data.List.Nodup
import ContentGrammar.Proofs.Files.Names
import ContentGrammar.Proofs.Results
import ContentGrammar.Scan.Discovery

/-!
# What is met on a walk

A walk that does not follow links goes through real directories only, and meets what is in those that
are not skipped, up to a depth (`Below`). It meets nothing else (`below_of_mem_under`), and of what it
should meet it misses nothing that can be reached by its path (`mem_under`). No path is met twice
(`nodup_under`), and what goes wrong are directories that cannot be opened (`kind_of_mem_under`).

Whether a walk goes into the directory with which it begins is told by `Opens`. If it does not, it
meets nothing at all (`walkAll_of_not_opens`).
-/

namespace ContentGrammar.Scan

open ContentGrammar.Path (IsName)

/-- `Below t l names`: from a directory at `l` on the names lead to something, all but the last of
them being those of real directories that are not skipped. -/
inductive Below (t : FileTree) : Location → List Bytes → Prop
  | here {l name} : t.get? (l ++ [name]) ≠ none → Below t l [name]
  | deeper {l name names} : t.get? (l ++ [name]) = some .directory → name ∉ skippedNames →
      Below t (l ++ [name]) names → Below t l (name :: names)

/-- What a walk meets below a directory that it enters, which it has to open by its path. -/
def under (t : FileTree) (follow : Bool) (depth : Nat) (above : List Ancestor) (p : Path) :
    List Visit :=
  match depth with
  | 0 => []
  | depth + 1 =>
    match t.find true p with
    | .error e => [.error ⟨p, .notWalked e⟩]
    | .ok l => (t.names l).flatMap fun name =>
      walk t follow depth (⟨l, p⟩ :: above) false (p.join name) (t.get? (l ++ [name]))

variable {t : FileTree} {follow isStart : Bool} {depth : Nat} {above : List Ancestor} {p q : Path}
  {l m : Location} {name : Bytes} {names : List Bytes} {entry : Option Entry} {e : FileError}

theorem Below.isName (ht : t.Proper) (h : Below t l names) : ∀ name ∈ names, IsName name := by
  induction h with
  | here hentry => exact List.forall_mem_singleton.mpr (ht.isName (FileTree.mem_names.mpr hentry))
  | deeper hentry _ _ ih =>
    have hne := Option.ne_none_iff_exists'.mpr ⟨_, hentry⟩
    exact List.forall_mem_cons.mpr ⟨ht.isName (FileTree.mem_names.mpr hne), ih⟩

theorem Below.ne_nil (h : Below t l names) : names ≠ [] := by
  cases h <;> exact List.cons_ne_nil _ _

/-! ## Single steps -/

/-- A walk, with what is below a directory taken together. -/
theorem walk_eq : walk t follow depth above isStart p entry =
    match entry with
    | some .directory => if isSkipped p then [] else .ok p :: under t follow depth above p
    | some (.link _) =>
      if follow || isStart then
        match t.find true p with
        | .error e => [.error ⟨p, .notWalked e⟩]
        | .ok l =>
          if (t.get? l).any Entry.isDirectory then
            if !follow then .ok p :: under t follow depth above p
            else match above.find? (·.location == l) with
              | some ancestor => [.error ⟨p, .loop ancestor.path⟩]
              | none => if isSkipped p then [] else .ok p :: under t follow depth above p
          else [.ok p]
      else [.ok p]
    | _ => [.ok p] := by
  cases depth with
  | zero => rfl
  | succ depth => rfl

theorem walk_directory : walk t follow depth above isStart p (some .directory) =
    if isSkipped p then [] else .ok p :: under t follow depth above p := by
  rw [walk_eq]

/-- A link is not followed, and neither is there anything below a file. -/
theorem walk_of_not_directory (hentry : entry ≠ some .directory) :
    walk t false depth above false p entry = [.ok p] := by
  rw [walk_eq]
  split
  case h_1 => exact absurd rfl hentry
  case h_2 => rfl
  case h_3 => rfl

/-- What is under a directory can be told only if its path can be followed. -/
theorem under_of_error (h : t.find true p = .error e) :
    under t follow (depth + 1) above p = [.error ⟨p, .notWalked e⟩] := by
  rw [under, h]

theorem under_of_find (h : t.find true p = .ok l) :
    under t follow (depth + 1) above p = (t.names l).flatMap fun name =>
      walk t follow depth (⟨l, p⟩ :: above) false (p.join name) (t.get? (l ++ [name])) := by
  rw [under, h]

theorem find_of_mem_under (hq : .ok q ∈ under t follow depth above p) :
    ∃ l, t.find true p = .ok l := by
  cases depth with
  | zero => cases hq
  | succ depth =>
    cases hp : t.find true p with
    | ok l => exact ⟨l, rfl⟩
    | error e =>
      rw [under_of_error hp] at hq
      cases List.mem_singleton.mp hq

/-! ## The start of a walk -/

/-- Whether a walk that begins with the path of a directory goes into it. -/
inductive Opens (t : FileTree) (follow : Bool) (p : Path) : Prop
  | named : isSkipped p = false → Opens t follow p
  /-- A link is gone into whatever its name, unless all links are followed. -/
  | link {place : Location} {target : Path} : follow = false → t.find false p = .ok place →
      t.get? place = some (.link target) → Opens t follow p

/-- For a directory that is no link it is the name that counts. -/
theorem opens_iff (h : t.find false p = .ok l) (hl : t.get? l = some .directory) :
    Opens t follow p ↔ isSkipped p = false := by
  refine ⟨fun hopens => ?_, .named⟩
  cases hopens with
  | named hskip => exact hskip
  | link _ hlink htarget =>
    rw [Except.ok.inj (hlink.symm.trans h), hl] at htarget
    cases htarget

/-- At the start a link is followed, so that a walk begins with what its path leads to. -/
theorem walkAll_of_opens (hp : t.find true p = .ok l) (hl : t.get? l = some .directory)
    (hopens : Opens t follow p) : walkAll t follow depth p = .ok p :: under t follow depth [] p := by
  rcases FileTree.find_false_of_find_true hp with h | ⟨place, target, h, hplace⟩
  · have hskip := (opens_iff h hl).mp hopens
    rw [walkAll, h]
    dsimp only
    rw [hl, walk_directory, if_neg (Bool.eq_false_iff.mp hskip)]
  · simp only [walkAll, walk_eq, h, hplace, hp, hl]
    cases follow with
    | false => rfl
    | true =>
      cases hopens with
      | named hskip =>
        simp only [hskip]
        rfl
      | link hfollow _ _ => cases hfollow

/-- Nothing is met if a walk does not go into the directory with which it begins. -/
theorem walkAll_of_not_opens (hp : t.find true p = .ok l) (hl : t.get? l = some .directory)
    (hopens : ¬ Opens t follow p) : walkAll t follow depth p = [] := by
  have hskip : isSkipped p = true := by
    by_contra hskip
    exact hopens (.named (Bool.eq_false_iff.mpr hskip))
  rcases FileTree.find_false_of_find_true hp with h | ⟨place, target, h, hplace⟩
  · rw [walkAll, h]
    dsimp only
    rw [hl, walk_directory, if_pos hskip]
  · simp only [walkAll, walk_eq, h, hplace, hp, hl, hskip]
    cases follow with
    | false => exact absurd (.link rfl h hplace) hopens
    | true => rfl

/-- A walk that begins with something else meets just that. -/
theorem walkAll_of_not_directory (hp : t.find true p = .ok l)
    (hl : t.get? l ≠ some .directory) : walkAll t false depth p = [.ok p] := by
  have hany : (t.get? l).any Entry.isDirectory = false := by
    cases hentry : t.get? l with
    | none => rfl
    | some entry =>
      cases entry with
      | directory => exact absurd hentry hl
      | file content | link target => rfl
  -- a link is met as such, and where it leads is looked at only to see whether to go on
  rcases FileTree.find_false_of_find_true hp with h | ⟨place, target, h, hplace⟩
  · simp only [walkAll, walk_eq, h, hp, hany]
    split
    case h_1 hdirectory => exact absurd hdirectory hl
    case h_2 => rfl
    case h_3 => rfl
  · simp only [walkAll, walk_eq, h, hplace, hp, hany]
    rfl

/-- A walk that cannot begin is an error. -/
theorem walkAll_of_error (h : t.find false p = .error e) :
    walkAll t follow depth p = [.error ⟨p, .notWalked e⟩] := by
  rw [walkAll, h]

/-! ## What is directly under a directory -/

theorem isSkipped_iff : isSkipped p = true ↔ ∃ name ∈ skippedNames, p.fileName? = some name := by
  rw [isSkipped, List.contains_iff_mem]
  cases hp : p.fileName? with
  | some name => simp
  | none =>
    -- a path without a name at its end is not itself one of the names
    have hnone : p.bytes ∉ skippedNames := by
      intro hmem
      obtain ⟨bytes⟩ := p
      simp only [skippedNames, List.map_cons, List.map_nil, List.mem_cons, List.not_mem_nil,
        or_false] at hmem
      rcases hmem with rfl | rfl | rfl <;> revert hp <;> decide
    simp [hnone]

theorem isSkipped_join (h : IsName name) :
    isSkipped (p.join name) = true ↔ name ∈ skippedNames := by
  simp [isSkipped_iff, Path.fileName?_join h]

/-- What becomes of something directly under a directory: it is skipped, it is gone into, or it is no
directory. -/
theorem walk_child (ht : t.Proper) (hname : name ∈ t.names l) :
    (name ∈ skippedNames ∧ t.get? (l ++ [name]) = some .directory ∧
      walk t false depth above false (p.join name) (t.get? (l ++ [name])) = []) ∨
    (name ∉ skippedNames ∧ t.get? (l ++ [name]) = some .directory ∧
      walk t false depth above false (p.join name) (t.get? (l ++ [name])) =
        .ok (p.join name) :: under t false depth above (p.join name)) ∨
    (t.get? (l ++ [name]) ≠ some .directory ∧
      walk t false depth above false (p.join name) (t.get? (l ++ [name])) = [.ok (p.join name)]) := by
  have hskip : isSkipped (p.join name) = true ↔ name ∈ skippedNames :=
    isSkipped_join (ht.isName hname)
  by_cases hdirectory : t.get? (l ++ [name]) = some .directory
  · by_cases hskipped : name ∈ skippedNames
    · refine .inl ⟨hskipped, hdirectory, ?_⟩
      rw [hdirectory, walk_directory, if_pos (hskip.mpr hskipped)]
    · refine .inr (.inl ⟨hskipped, hdirectory, ?_⟩)
      rw [hdirectory, walk_directory, if_neg (mt hskip.mp hskipped)]
  · exact .inr (.inr ⟨hdirectory, walk_of_not_directory hdirectory⟩)

/-- If the path of a directory in a directory leads anywhere, then to the place with its name. -/
theorem find_of_child (ht : t.Proper) (hp : t.find true p = .ok l)
    (hl : t.get? l = some .directory) (hname : name ∈ t.names l)
    (hentry : t.get? (l ++ [name]) = some .directory) (hfound : t.find true (p.join name) = .ok m) :
    t.find true (p.join name) = .ok (l ++ [name]) := by
  rcases FileTree.find_child hp hl (ht.isName hname) hentry with ⟨e, he⟩ | ⟨-, hfound⟩
  · cases hfound.symm.trans (he true)
  · exact hfound nofun

/-! ## All that is met -/

/-- Whatever is met is below the directory, and not too deep. -/
theorem below_of_mem_under (ht : t.Proper) (hp : t.find true p = .ok l)
    (hl : t.get? l = some .directory) (hq : .ok q ∈ under t false depth above p) :
    ∃ names, Below t l names ∧ names.length ≤ depth ∧ q = p.joined names := by
  induction depth generalizing p l above with
  | zero => cases hq
  | succ depth ih =>
    rw [under_of_find hp] at hq
    obtain ⟨name, hname, hq⟩ := List.mem_flatMap.mp hq
    have hhere : Below t l [name] := .here (FileTree.mem_names.mp hname)
    -- a directory of a skipped name, a directory that is gone into, or anything else
    rcases walk_child ht hname with ⟨-, -, hwalk⟩ | ⟨hskip, hentry, hwalk⟩ | ⟨-, hwalk⟩
    · rw [hwalk] at hq
      cases hq
    · rw [hwalk] at hq
      rcases List.mem_cons.mp hq with heq | hq
      · exact ⟨[name], hhere, Nat.succ_le_succ (Nat.zero_le _), Except.ok.inj heq⟩
      · obtain ⟨_, hfound⟩ := find_of_mem_under hq
        have hfound := find_of_child ht hp hl hname hentry hfound
        obtain ⟨names, hbelow, hlength, rfl⟩ := ih hfound hentry hq
        exact ⟨name :: names, .deeper hentry hskip hbelow, Nat.succ_le_succ hlength, rfl⟩
    · rw [hwalk] at hq
      refine ⟨[name], hhere, Nat.succ_le_succ (Nat.zero_le _), ?_⟩
      exact Except.ok.inj (List.mem_singleton.mp hq)

theorem bytes_join_ne (hne : p.bytes ≠ []) (name : Bytes) : (p.join name).bytes ≠ [] := by
  obtain ⟨bs, hbs⟩ := FileTree.exists_bytes_join p name
  rw [hbs]
  exact fun hnil => hne (List.append_eq_nil_iff.mp hnil).1

/-- What is found further on is found by way of where it begins. -/
theorem find_of_joined (hne : p.bytes ≠ []) (hnames : ∀ name ∈ names, IsName name)
    (h : t.find true (p.joined names) = .ok m) : ∃ l, t.find true p = .ok l := by
  induction names generalizing p with
  | nil => exact ⟨m, h⟩
  | cons name names ih =>
    obtain ⟨hname, hnames⟩ := List.forall_mem_cons.mp hnames
    obtain ⟨l, hl⟩ := ih (bytes_join_ne hne name) hnames h
    exact FileTree.find_of_join hne hname.whole hl

/-- All that is below a directory and not too deep is met, if its path leads to something that is not
a directory. -/
theorem mem_under (ht : t.Proper) (hp : t.find true p = .ok l)
    (hl : t.get? l = some .directory) (hbelow : Below t l names) (hlength : names.length ≤ depth)
    (hq : t.find true (p.joined names) = .ok m) (hm : t.get? m ≠ some .directory) :
    .ok (p.joined names) ∈ under t false depth above p := by
  induction hbelow generalizing p depth above with
  | @here l name hentry =>
    obtain ⟨depth, rfl⟩ := Nat.exists_eq_add_one.mpr (Nat.lt_of_lt_of_le Nat.one_pos hlength)
    have hname := FileTree.mem_names.mpr hentry
    rw [under_of_find hp]
    refine List.mem_flatMap.mpr ⟨name, hname, ?_⟩
    by_cases hdirectory : t.get? (l ++ [name]) = some .directory
    · -- the path would lead to the directory
      have hfound := find_of_child ht hp hl hname hdirectory hq
      rw [Except.ok.inj (hq.symm.trans hfound)] at hm
      exact absurd hdirectory hm
    · rw [walk_of_not_directory hdirectory]
      exact List.mem_singleton.mpr rfl
  | @deeper l name names hentry hskip hbelow ih =>
    obtain ⟨depth, rfl⟩ := Nat.exists_eq_add_one.mpr
      (Nat.lt_of_lt_of_le (Nat.succ_pos _) hlength)
    have hname := FileTree.mem_names.mpr (Option.ne_none_iff_exists'.mpr ⟨_, hentry⟩)
    rw [under_of_find hp]
    refine List.mem_flatMap.mpr ⟨name, hname, ?_⟩
    rcases walk_child ht hname with ⟨hskipped, -, -⟩ | ⟨-, -, hwalk⟩ | ⟨hne, -⟩
    · exact absurd hskipped hskip
    · -- the directory in between is reached by its path, as what is below it is
      have hne := bytes_join_ne (FileTree.usable_of_find hp).nonempty name
      obtain ⟨_, hfound⟩ := find_of_joined hne (hbelow.isName ht) hq
      have hfound := find_of_child ht hp hl hname hentry hfound
      rw [hwalk]
      exact List.mem_cons_of_mem _ (ih hfound hentry (Nat.le_of_succ_le_succ hlength) hq)
    · exact absurd hentry hne

/-- The steps of what is met in a directory go on from those of the directory with a name. -/
theorem steps_of_mem_walk (ht : t.Proper) (hp : t.find true p = .ok l)
    (hl : t.get? l = some .directory) (hname : name ∈ t.names l)
    (hq : .ok q ∈ walk t false depth above false (p.join name) (t.get? (l ++ [name]))) :
    ∃ rest, q.steps = p.steps ++ .name name :: rest := by
  have hisName := ht.isName hname
  rcases walk_child ht hname with ⟨-, -, hwalk⟩ | ⟨hskip, hentry, hwalk⟩ | ⟨-, hwalk⟩
  · rw [hwalk] at hq
    cases hq
  · rw [hwalk] at hq
    rcases List.mem_cons.mp hq with heq | hq
    · obtain rfl := Except.ok.inj heq
      exact ⟨[], Path.steps_join hisName⟩
    · obtain ⟨_, hfound⟩ := find_of_mem_under hq
      have hfound := find_of_child ht hp hl hname hentry hfound
      obtain ⟨names, hbelow, -, rfl⟩ := below_of_mem_under ht hfound hentry hq
      refine ⟨names.map .name, ?_⟩
      rw [Path.steps_joined (hbelow.isName ht), Path.steps_join hisName, List.append_assoc,
        List.singleton_append]
  · rw [hwalk] at hq
    obtain rfl := Except.ok.inj (List.mem_singleton.mp hq)
    exact ⟨[], Path.steps_join hisName⟩

/-- No two of the paths that are met are the same. -/
theorem nodup_under (ht : t.Proper) (hp : t.find true p = .ok l)
    (hl : t.get? l = some .directory) :
    ((valuesIn (under t false depth above p)).map Path.steps).Nodup := by
  induction depth generalizing p l above with
  | zero => exact .nil
  | succ depth ih =>
    rw [under_of_find hp, valuesIn_flatMap, List.map_flatMap, List.nodup_flatMap]
    constructor
    · intro name hname
      rcases walk_child ht hname with ⟨-, -, hwalk⟩ | ⟨hskip, hentry, hwalk⟩ | ⟨-, hwalk⟩
      · rw [hwalk]
        exact .nil
      · rw [hwalk]
        show (Path.steps (p.join name) :: (valuesIn _).map Path.steps).Nodup
        rw [List.nodup_cons]
        cases hfound : t.find true (p.join name) with
        | error e =>
          -- nothing is met in a directory that cannot be opened
          have hnone : ∀ q, q ∉ valuesIn (under t false depth (⟨l, p⟩ :: above) (p.join name)) := by
            intro q hq
            obtain ⟨_, hopened⟩ := find_of_mem_under (mem_valuesIn.mp hq)
            cases hfound.symm.trans hopened
          rw [List.eq_nil_iff_forall_not_mem.mpr hnone]
          exact ⟨List.not_mem_nil, .nil⟩
        | ok m =>
          have hfound := find_of_child ht hp hl hname hentry hfound
          refine ⟨fun hmem => ?_, ih hfound hentry⟩
          -- what is below has more steps
          obtain ⟨q, hq, hsteps⟩ := List.mem_map.mp hmem
          obtain ⟨names, hbelow, -, rfl⟩ :=
            below_of_mem_under ht hfound hentry (mem_valuesIn.mp hq)
          rw [Path.steps_joined (hbelow.isName ht)] at hsteps
          exact hbelow.ne_nil (List.map_eq_nil_iff.mp (List.append_right_eq_self.mp hsteps))
      · rw [hwalk]
        exact List.nodup_singleton _
    · refine (t.nodup_names l).imp_of_mem fun hname hname' hne => ?_
      intro steps hsteps hsteps'
      obtain ⟨q, hq, rfl⟩ := List.mem_map.mp hsteps
      obtain ⟨q', hq', hsame⟩ := List.mem_map.mp hsteps'
      -- the steps of both go on from those of the directory with different names
      obtain ⟨rest, hrest⟩ := steps_of_mem_walk ht hp hl hname (mem_valuesIn.mp hq)
      obtain ⟨rest', hrest'⟩ := steps_of_mem_walk ht hp hl hname' (mem_valuesIn.mp hq')
      rw [hrest, hrest'] at hsame
      have hheads := (List.cons.inj (List.append_cancel_left hsame)).1
      exact hne (Path.Step.name.inj hheads).symm

/-- The errors on a walk that does not follow links are those of directories that cannot be opened. -/
theorem kind_of_mem_under (ht : t.Proper) {e : Error} (he : .error e ∈ under t false depth above p) :
    e.kind = "WalkError" := by
  induction depth generalizing p above with
  | zero => cases he
  | succ depth ih =>
    cases hp : t.find true p with
    | error cause =>
      rw [under_of_error hp] at he
      obtain rfl := Except.error.inj (List.mem_singleton.mp he)
      rfl
    | ok l =>
      rw [under_of_find hp] at he
      obtain ⟨name, hname, he⟩ := List.mem_flatMap.mp he
      rcases walk_child ht hname with ⟨-, -, hwalk⟩ | ⟨-, hentry, hwalk⟩ | ⟨-, hwalk⟩
      · rw [hwalk] at he
        cases he
      · rw [hwalk] at he
        rcases List.mem_cons.mp he with heq | he
        · cases heq
        · exact ih he
      · rw [hwalk] at he
        cases List.mem_singleton.mp he

end ContentGrammar.Scan
