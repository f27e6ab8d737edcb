import Mathlib

/-!
# Steps that may fail

What the success of several steps in turn says about each of them, and what
their failure says.
-/

set_option autoImplicit false

namespace Starlark.Outcome

variable {ε α β : Type}

/-- Two steps in turn succeed when each does. -/
theorem bind_eq_ok {x : Except ε α} {f : α → Except ε β} {b : β} :
    x >>= f = .ok b ↔ ∃ a, x = .ok a ∧ f a = .ok b := by
  cases x with
  | error e =>
      constructor
      · intro same
        cases same
      · rintro ⟨a, same, _⟩
        cases same
  | ok a =>
      constructor
      · intro same
        exact ⟨a, rfl, same⟩
      · rintro ⟨a, same, ends⟩
        cases same
        exact ends

theorem map_eq_ok {f : α → β} {x : Except ε α} {b : β} :
    f <$> x = .ok b ↔ ∃ a, x = .ok a ∧ f a = b := by
  rw [map_eq_pure_bind, bind_eq_ok]
  simp [pure, Except.pure]

/-- A step for each of some values succeeds when all of them do. -/
theorem mapM_cons_eq_ok {f : α → Except ε β} {x : α} {xs : List α} {ys : List β} :
    (x :: xs).mapM f = .ok ys ↔
      ∃ z zs, f x = .ok z ∧ xs.mapM f = .ok zs ∧ ys = z :: zs := by
  rw [List.mapM_cons, bind_eq_ok]
  constructor
  · rintro ⟨z, first, rest⟩
    obtain ⟨zs, others, same⟩ := bind_eq_ok.mp rest
    cases same
    exact ⟨z, zs, first, others, rfl⟩
  · rintro ⟨z, zs, first, others, rfl⟩
    exact ⟨z, first, bind_eq_ok.mpr ⟨zs, others, rfl⟩⟩

theorem exists_eq_ok {x : Except ε α} (succeeds : x.isOk = true) : ∃ a, x = .ok a := by
  cases x with
  | error e => cases succeeds
  | ok a => exact ⟨a, rfl⟩

/-- Two steps in turn fail when the first does, or else the second. -/
theorem bind_eq_error {x : Except ε α} {f : α → Except ε β} {e : ε} :
    x >>= f = .error e ↔ x = .error e ∨ ∃ a, x = .ok a ∧ f a = .error e := by
  cases x with
  | error e' =>
      constructor
      · intro same
        cases same
        exact .inl rfl
      · rintro (same | ⟨a, same, _⟩)
        · cases same
          rfl
        · cases same
  | ok a =>
      constructor
      · intro same
        exact .inr ⟨a, rfl, same⟩
      · rintro (same | ⟨a, same, fails⟩)
        · cases same
        · cases same
          exact fails

theorem map_eq_error {f : α → β} {x : Except ε α} {e : ε} :
    f <$> x = .error e ↔ x = .error e := by
  rw [map_eq_pure_bind, bind_eq_error]
  simp [pure, Except.pure]

/-- When a step for each of some values fails, it fails for one of them. -/
theorem exists_of_mapM_eq_error {f : α → Except ε β} {xs : List α} {e : ε}
    (fails : xs.mapM f = .error e) : ∃ x ∈ xs, f x = .error e := by
  induction xs with
  | nil => cases fails
  | cons x xs ih =>
      rw [List.mapM_cons, bind_eq_error] at fails
      obtain first | ⟨y, _, later⟩ := fails
      · exact ⟨x, List.mem_cons_self, first⟩
      · obtain others | ⟨ys, _, done⟩ := bind_eq_error.mp later
        · obtain ⟨z, member, here⟩ := ih others
          exact ⟨z, List.mem_cons_of_mem x member, here⟩
        · cases done

end Starlark.Outcome
