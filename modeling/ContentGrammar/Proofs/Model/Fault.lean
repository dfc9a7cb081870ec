import ContentGrammar.Pattern.OfModel
import ContentGrammar.Proofs.Results

/-!
# What keeps a model from being compiled

A model has a site for each of its shapes and for each target of its exclusions. A site can be at
fault by itself: whether it is depends on the known categories and on whether there is a pattern to
inherit, but not on the sites around it.

* `failure?_compile` — a model fails to compile with the fault of its first site that has one, a
  shape coming before what is inside it and the targets of an exclusion before its scope;
* `inherits_iff` — a model inherits just when it has a transparent site.
-/

namespace ContentGrammar

open Category (Sets)

/-- The error of a result, if it is one. -/
def failure? {α : Type} : Except ModelError α → Option ModelError
  | .error e => some e
  | .ok _ => none

theorem failure?_eq_some_iff {α : Type} {x : Except ModelError α} {e : ModelError} :
    failure? x = some e ↔ x = .error e := by
  cases x <;> simp [failure?]

/-- What is done after `x` can fail in one way only, whatever `x` has given. -/
theorem failure?_bind {α β : Type} {x : Except ModelError α} {f : α → Except ModelError β}
    {o : Option ModelError} (h : ∀ a, failure? (f a) = o) :
    failure? (x >>= f) = (failure? x).or o := by
  cases x with
  | error e => rfl
  | ok a => exact h a

/-- What cannot fail does not matter for whether there is an error. -/
theorem failure?_bind_ok {α β : Type} {x : Except ModelError α} {f : α → Except ModelError β}
    (h : ∀ a, failure? (f a) = none) : failure? (x >>= f) = failure? x := by
  rw [failure?_bind h, Option.or_none]

/-- The first in a list is found before what is found in the others. -/
theorem findSome?_cons_or {α β : Type} {f : α → Option β} {a : α} {as : List α} :
    (a :: as).findSome? f = (f a).or (as.findSome? f) := by
  rw [List.findSome?_cons]
  cases f a <;> rfl

namespace Model

/-- Induction over a model, with the claim for all models of a list at once. -/
@[induction_eliminator]
theorem induct {motive : Model → Prop} (any : motive .any) (tag : ∀ name, motive (.tag name))
    (category : ∀ name, motive (.category name)) (text : motive .text)
    (sequence : ∀ ms, (∀ m ∈ ms, motive m) → motive (.sequence ms))
    (choice : ∀ ms, (∀ m ∈ ms, motive m) → motive (.choice ms))
    (optional : ∀ m, motive m → motive (.optional m))
    (repeated : ∀ m least most, motive m → motive (.repeated m least most))
    (transparent : motive .transparent)
    (excluding : ∀ scope targets, motive scope → motive (.excluding scope targets))
    (m : Model) : motive m :=
  match m with
  | .any => any
  | .tag name => tag name
  | .category name => category name
  | .text => text
  | .sequence ms => sequence ms fun n _ =>
    induct any tag category text sequence choice optional repeated transparent excluding n
  | .choice ms => choice ms fun n _ =>
    induct any tag category text sequence choice optional repeated transparent excluding n
  | .optional n => optional n
    (induct any tag category text sequence choice optional repeated transparent excluding n)
  | .repeated n least most => repeated n least most
    (induct any tag category text sequence choice optional repeated transparent excluding n)
  | .transparent => transparent
  | .excluding n targets => excluding n targets
    (induct any tag category text sequence choice optional repeated transparent excluding n)

/-- A place in a model. -/
inductive Site
  | shape (m : Model)
  | target (t : Target)

mutual

/-- The places of a model: each shape before what is inside it, and the targets of an exclusion
before its scope. -/
def sites : Model → List Site
  | .sequence ms => .shape (.sequence ms) :: sitesAll ms
  | .choice ms => .shape (.choice ms) :: sitesAll ms
  | .optional m => .shape (.optional m) :: m.sites
  | .repeated m least most => .shape (.repeated m least most) :: m.sites
  | .excluding m targets =>
    .shape (.excluding m targets) :: (targets.map Site.target ++ m.sites)
  | .any => [.shape .any]
  | .tag name => [.shape (.tag name)]
  | .category name => [.shape (.category name)]
  | .text => [.shape .text]
  | .transparent => [.shape .transparent]

/-- The places of several models, one model after the other. -/
def sitesAll : List Model → List Site
  | [] => []
  | m :: ms => m.sites ++ sitesAll ms

end

theorem mem_sitesAll {ms : List Model} {s : Site} : s ∈ sitesAll ms ↔ ∃ m ∈ ms, s ∈ m.sites := by
  induction ms with
  | nil => simp [sitesAll]
  | cons m ms ih => simp [sitesAll, ih]

/-- Whether a target is a known category that has no members. -/
def forbidsNothing (sets : Sets) : Target → Bool
  | .category name => (sets.get? name).any (·.isEmpty)
  | .text | .selector _ => false

/-- What is wrong with a name as that of a category. -/
def unknown? (sets : Sets) (name : String) : Option ModelError :=
  if (sets.get? name).isNone then some (.unknownCategory name) else none

/-- What is wrong with a place by itself: a category that is not known, a choice without
alternatives, a transparent model without anything to inherit, an exclusion that forbids nothing. -/
def Site.fault? (sets : Sets) (parent : Option Pattern) : Site → Option ModelError
  | .shape (.category name) | .target (.category name) => unknown? sets name
  | .shape (.choice ms) => if ms.isEmpty then some .emptyChoice else none
  | .shape .transparent => if parent.isNone then some .missingInheritance else none
  | .shape (.excluding _ targets) =>
    if targets.all (forbidsNothing sets) then some .emptyForbiddenSet else none
  | _ => none

/-- The fault of the first site that has one. -/
def fault? (sets : Sets) (parent : Option Pattern) (m : Model) : Option ModelError :=
  m.sites.findSome? (Site.fault? sets parent)

variable {sets : Sets} {parent : Option Pattern} {next : Nat}

/-! ## Targets -/

/-- A category fails only if it is unknown. -/
theorem failure?_members {name : String} : failure? (sets.members name) = unknown? sets name := by
  rw [Category.Sets.members, unknown?]
  cases sets.get? name <;> rfl

/-- A target fails only if it is an unknown category. -/
theorem failure?_ofTarget {t : Target} :
    failure? (Forbidden.ofTarget sets t) = (Site.target t).fault? sets parent := by
  cases t with
  | text | selector s => rfl
  | category name =>
    rw [Forbidden.ofTarget]
    exact Eq.trans (failure?_bind_ok fun _ => rfl) failure?_members

/-- Of several targets the first unknown one is at fault. -/
theorem failure?_mapM_ofTarget {targets : List Target} :
    failure? (targets.mapM (Forbidden.ofTarget sets)) =
      (targets.map Site.target).findSome? (Site.fault? sets parent) := by
  induction targets with
  | nil => rfl
  | cons t targets ih =>
    rw [List.mapM_cons, List.map_cons, findSome?_cons_or, ← failure?_ofTarget, ← ih]
    exact failure?_bind fun _ => failure?_bind_ok fun _ => rfl

/-- A target that is all right forbids nothing only if it is a category without members. -/
theorem ofTarget_isEmpty {t : Target} {fs : List Forbidden}
    (h : Forbidden.ofTarget sets t = .ok fs) : fs.isEmpty = forbidsNothing sets t := by
  cases t with
  | text | selector s =>
    obtain rfl := Except.ok.inj h
    rfl
  | category name =>
    rw [Forbidden.ofTarget, Category.Sets.members] at h
    rw [forbidsNothing]
    cases hm : sets.get? name with
    | none =>
      rw [hm] at h
      cases h
    | some members =>
      rw [hm] at h
      obtain rfl := Except.ok.inj h
      exact List.isEmpty_map

/-- Targets that are all right forbid nothing just if each of them does not. -/
theorem mapM_ofTarget_isEmpty {targets : List Target} {fss : List (List Forbidden)}
    (h : targets.mapM (Forbidden.ofTarget sets) = .ok fss) :
    fss.flatten.isEmpty = targets.all (forbidsNothing sets) := by
  induction targets generalizing fss with
  | nil =>
    obtain rfl := Except.ok.inj h
    rfl
  | cons t targets ih =>
    rw [List.mapM_cons] at h
    cases hfs : Forbidden.ofTarget sets t with
    | error e =>
      rw [hfs] at h
      cases h
    | ok fs =>
      cases hrest : targets.mapM (Forbidden.ofTarget sets) with
      | error e =>
        rw [hfs, hrest] at h
        cases h
      | ok rest =>
        rw [hfs, hrest] at h
        obtain rfl := Except.ok.inj h
        rw [List.all_cons, ← ofTarget_isEmpty hfs, ← ih hrest, Bool.eq_iff_iff]
        simp

/-- Where all targets are known categories, none is at fault by itself. -/
theorem fault?_of_forbidsNothing {targets : List Target}
    (h : targets.all (forbidsNothing sets)) :
    (targets.map Site.target).findSome? (Site.fault? sets parent) = none := by
  rw [List.findSome?_eq_none_iff]
  intro s hs
  obtain ⟨t, ht, rfl⟩ := List.mem_map.mp hs
  have hempty := List.all_eq_true.mp h t ht
  cases t with
  | text | selector s => rfl
  | category name =>
    show unknown? sets name = none
    rw [forbidsNothing] at hempty
    rw [unknown?]
    cases hm : sets.get? name with
    | none =>
      rw [hm] at hempty
      cases hempty
    | some members => rfl

/-- What is wrong with an exclusion, apart from its scope. -/
theorem failure?_ofTargets {scope : Model} {targets : List Target} :
    failure? (Forbidden.ofTargets sets targets) =
      (Site.shape (.excluding scope targets) :: targets.map Site.target).findSome?
        (Site.fault? sets parent) := by
  have hall := @failure?_mapM_ofTarget sets parent targets
  rw [Forbidden.ofTargets, findSome?_cons_or, ← hall]
  cases hm : targets.mapM (Forbidden.ofTarget sets) with
  | error e =>
    -- a target that is unknown is no empty category
    rw [hm] at hall
    have hsome : ¬ targets.all (forbidsNothing sets) = true := by
      intro h
      rw [fault?_of_forbidsNothing h] at hall
      cases hall
    show some e = Option.or (if _ then _ else _) _
    rw [if_neg hsome]
    rfl
  | ok fss =>
    show failure? (if fss.flatten.isEmpty then _ else _) = Option.or (if _ then _ else _) _
    rw [mapM_ofTarget_isEmpty hm]
    by_cases h : targets.all (forbidsNothing sets) = true
    · rw [if_pos h, if_pos h]
      rfl
    · rw [if_neg h, if_neg h]
      rfl

/-! ## Models -/

/-- Of several models the first site at fault in any of them counts. -/
theorem failure?_compileAllFrom {ms : List Model}
    (h : ∀ m ∈ ms, ∀ next, failure? (m.compileFrom sets parent next) = m.fault? sets parent) :
    failure? (compileAllFrom sets parent next ms) =
      (sitesAll ms).findSome? (Site.fault? sets parent) := by
  induction ms generalizing next with
  | nil => rfl
  | cons m ms ih =>
    rw [compileAllFrom, sitesAll, List.findSome?_append, ← fault?, ← h m List.mem_cons_self next]
    refine failure?_bind ?_
    rintro ⟨p, after⟩
    refine Eq.trans (failure?_bind_ok fun _ => rfl) ?_
    exact ih fun n hn => h n (List.mem_cons_of_mem _ hn)

/-- A model fails to compile with the fault of its first site that has one. -/
theorem failure?_compileFrom (m : Model) (next : Nat) :
    failure? (m.compileFrom sets parent next) = m.fault? sets parent := by
  induction m generalizing next with
  | any | tag name | text => rfl
  | category name =>
    rw [compileFrom, fault?, sites, List.findSome?_singleton]
    exact Eq.trans (failure?_bind_ok fun _ => rfl) failure?_members
  | sequence ms ih =>
    rw [compileFrom, fault?, sites]
    exact Eq.trans (failure?_bind_ok fun _ => rfl) (failure?_compileAllFrom ih)
  | choice ms ih =>
    rw [compileFrom, fault?, sites, findSome?_cons_or]
    cases ms with
    | nil => rfl
    | cons m ms =>
      exact Eq.trans (failure?_bind_ok fun _ => rfl) (failure?_compileAllFrom ih)
  | optional m ih | repeated m least most ih =>
    rw [compileFrom]
    exact Eq.trans (failure?_bind_ok fun _ => rfl) (ih next)
  | transparent => cases parent <;> rfl
  | excluding scope targets ih =>
    -- the targets are looked at before the scope
    rw [compileFrom, fault?, sites, ← List.cons_append, List.findSome?_append,
      ← failure?_ofTargets]
    refine failure?_bind fun forbidden => ?_
    exact Eq.trans (failure?_bind_ok fun _ => rfl) (ih (next + 1))

/-- A model is not compiled if one of its sites is at fault, and the first one gives the error. -/
theorem failure?_compile (m : Model) :
    failure? (m.compile sets parent) = m.fault? sets parent := by
  rw [compile]
  exact Eq.trans (failure?_bind_ok fun _ => rfl) (failure?_compileFrom m _)

theorem compile_eq_error_iff {m : Model} {e : ModelError} :
    m.compile sets parent = .error e ↔ m.fault? sets parent = some e := by
  rw [← failure?_compile, failure?_eq_some_iff]

/-! ## Transparent models -/

theorem anyInherits_iff {ms : List Model}
    (h : ∀ m ∈ ms, m.inherits = true ↔ Site.shape .transparent ∈ m.sites) :
    anyInherits ms = true ↔ Site.shape .transparent ∈ sitesAll ms := by
  induction ms with
  | nil => simp [anyInherits, sitesAll]
  | cons m ms ih =>
    rw [anyInherits, sitesAll, Bool.or_eq_true, List.mem_append, h m List.mem_cons_self,
      ih fun n hn => h n (List.mem_cons_of_mem _ hn)]

/-- A model depends on that of the parent element just when it has a transparent site. -/
theorem inherits_iff (m : Model) : m.inherits = true ↔ Site.shape .transparent ∈ m.sites := by
  induction m with
  | any | tag name | category name | text | transparent => simp [inherits, sites]
  | sequence ms ih | choice ms ih =>
    rw [inherits, anyInherits_iff ih, sites]
    simp
  | optional m ih | repeated m least most ih =>
    rw [inherits, ih, sites]
    simp
  | excluding scope targets ih =>
    rw [inherits, ih, sites]
    simp

end Model

end ContentGrammar
