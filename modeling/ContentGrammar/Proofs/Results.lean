import Mathlib.Data.List.Forall2
import ContentGrammar.Results

/-!
# Results one after the other

What comes of a row of results is told by the single ones. If what is done one after the other
succeeds, each part of it has succeeded, and if it fails, the first part that fails does so with the
same error (`ok_of_bind`, `error_of_bind`, and for lists `forall₂_of_mapM`, `exists_error_of_mapM`).
Each of several results is a value or an error of them (`length_valuesIn_add_errorsIn`).
-/

namespace ContentGrammar

variable {ε α β : Type}

/-! ## What is done one after the other -/

/-- What has succeeded has succeeded up to any point. -/
theorem ok_of_bind {x : Except ε α} {f : α → Except ε β} {b : β} (h : x >>= f = .ok b) :
    ∃ a, x = .ok a ∧ f a = .ok b := by
  cases x with
  | error e => cases h
  | ok a => exact ⟨a, rfl, h⟩

/-- What has failed has failed before a point or after it. -/
theorem error_of_bind {x : Except ε α} {f : α → Except ε β} {e : ε} (h : x >>= f = .error e) :
    x = .error e ∨ ∃ a, x = .ok a ∧ f a = .error e := by
  cases x with
  | error e' => exact .inl (congrArg Except.error (Except.error.inj h))
  | ok a => exact .inr ⟨a, rfl, h⟩

/-- What has been made of a list has been made of each of its items. -/
theorem forall₂_of_mapM {f : α → Except ε β} {as : List α} {bs : List β} (h : as.mapM f = .ok bs) :
    List.Forall₂ (fun a b => f a = .ok b) as bs := by
  induction as generalizing bs with
  | nil =>
    rw [List.mapM_nil] at h
    obtain rfl := Except.ok.inj h
    exact .nil
  | cons a as ih =>
    rw [List.mapM_cons] at h
    obtain ⟨b, hb, h⟩ := ok_of_bind h
    obtain ⟨bs, hbs, h⟩ := ok_of_bind h
    obtain rfl := Except.ok.inj h
    exact .cons hb (ih hbs)

/-- What is wrong with all of a list is wrong with one of its items. -/
theorem exists_error_of_mapM {f : α → Except ε β} {as : List α} {e : ε}
    (h : as.mapM f = .error e) : ∃ a ∈ as, f a = .error e := by
  induction as with
  | nil => cases h
  | cons a as ih =>
    rw [List.mapM_cons] at h
    rcases error_of_bind h with ha | ⟨_, -, h⟩
    · exact ⟨a, List.mem_cons_self, ha⟩
    rcases error_of_bind h with has | ⟨_, -, h⟩
    · obtain ⟨b, hb, hfb⟩ := ih has
      exact ⟨b, List.mem_cons_of_mem _ hb, hfb⟩
    · cases h

/-! ## Values and errors -/

variable {rs : List (Except ε α)} {a : α} {e : ε}

theorem mem_valuesIn : a ∈ valuesIn rs ↔ .ok a ∈ rs := by
  rw [valuesIn, List.mem_filterMap]
  constructor
  · rintro ⟨r, hr, ha⟩
    cases r with
    | error e => cases ha
    | ok b => exact Option.some.inj ha ▸ hr
  · intro ha
    exact ⟨_, ha, rfl⟩

theorem mem_errorsIn : e ∈ errorsIn rs ↔ .error e ∈ rs := by
  rw [errorsIn, List.mem_filterMap]
  constructor
  · rintro ⟨r, hr, he⟩
    cases r with
    | error e' => exact Option.some.inj he ▸ hr
    | ok a => cases he
  · intro he
    exact ⟨_, he, rfl⟩

theorem valuesIn_append (rs rs' : List (Except ε α)) :
    valuesIn (rs ++ rs') = valuesIn rs ++ valuesIn rs' := List.filterMap_append

theorem errorsIn_append (rs rs' : List (Except ε α)) :
    errorsIn (rs ++ rs') = errorsIn rs ++ errorsIn rs' := List.filterMap_append

theorem valuesIn_flatMap (as : List β) (f : β → List (Except ε α)) :
    valuesIn (as.flatMap f) = as.flatMap fun a => valuesIn (f a) := List.filterMap_flatMap ..

theorem errorsIn_flatMap (as : List β) (f : β → List (Except ε α)) :
    errorsIn (as.flatMap f) = as.flatMap fun a => errorsIn (f a) := List.filterMap_flatMap ..

/-- Each result is either a value or an error. -/
theorem length_valuesIn_add_errorsIn (rs : List (Except ε α)) :
    (valuesIn rs).length + (errorsIn rs).length = rs.length := by
  induction rs with
  | nil => rfl
  | cons r rs ih =>
    cases r with
    | error e =>
      show (valuesIn rs).length + ((errorsIn rs).length + 1) = rs.length + 1
      omega
    | ok a =>
      show (valuesIn rs).length + 1 + (errorsIn rs).length = rs.length + 1
      omega

end ContentGrammar
