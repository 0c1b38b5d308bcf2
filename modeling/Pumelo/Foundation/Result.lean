import Mathlib.Tactic.Common

/-!
# Computations that may fail

Inversion and introduction rules for `Except` binds, so that a successful run
of a do block can be taken apart one call at a time.
-/

namespace Foundation

universe u v

variable {ε : Type u} {α β : Type v}

theorem bind_eq_ok {first : Except ε α} {rest : α → Except ε β} {result : β} :
    (first >>= rest) = .ok result ↔ ∃ value, first = .ok value ∧ rest value = .ok result := by
  cases first with
  | error failure => exact ⟨fun equal => (nomatch equal), fun ⟨_, equal, _⟩ => (nomatch equal)⟩
  | ok value => exact ⟨fun equal => ⟨value, rfl, equal⟩,
      fun ⟨_, equal, run⟩ => by cases equal; exact run⟩

theorem bind_ok {first : Except ε α} {rest : α → Except ε β} {value : α}
    (run : first = .ok value) : (first >>= rest) = rest value := by
  rw [run]; rfl

theorem bind_error {first : Except ε α} {rest : α → Except ε β} {failure : ε}
    (run : first = .error failure) : (first >>= rest) = .error failure := by
  rw [run]; rfl

theorem bind_eq_error {first : Except ε α} {rest : α → Except ε β} {failure : ε} :
    (first >>= rest) = .error failure ↔
      first = .error failure ∨ ∃ value, first = .ok value ∧ rest value = .error failure := by
  cases first with
  | error other =>
      exact ⟨fun equal => .inl (by cases equal; rfl), fun cases => by
        rcases cases with equal | ⟨_, equal, _⟩
        · cases equal; rfl
        · cases equal⟩
  | ok value =>
      exact ⟨fun equal => .inr ⟨value, rfl, equal⟩, fun cases => by
        rcases cases with equal | ⟨_, equal, run⟩
        · cases equal
        · cases equal; exact run⟩

theorem map_eq_ok {run : Except ε α} {f : α → β} {result : β} :
    run.map f = .ok result ↔ ∃ value, run = .ok value ∧ f value = result := by
  cases run with
  | error failure => exact ⟨fun equal => (nomatch equal), fun ⟨_, equal, _⟩ => (nomatch equal)⟩
  | ok value => exact ⟨fun equal => ⟨value, rfl, Except.ok.inj equal⟩,
      fun ⟨_, equal, same⟩ => by cases equal; exact congrArg Except.ok same⟩

theorem map_eq_error {run : Except ε α} {f : α → β} {failure : ε} :
    run.map f = .error failure ↔ run = .error failure := by
  cases run with
  | error other => exact ⟨fun equal => by cases equal; rfl, fun equal => by cases equal; rfl⟩
  | ok value => exact ⟨fun equal => (nomatch equal), fun equal => (nomatch equal)⟩

theorem map_bind {γ : Type v} (first : Except ε α) (rest : α → Except ε β) (f : β → γ) :
    (first >>= rest).map f = first >>= fun value => (rest value).map f := by
  cases first <;> rfl

theorem bind_map {γ : Type v} (first : Except ε α) (f : α → β) (rest : β → Except ε γ) :
    (first.map f >>= rest) = first >>= fun value => rest (f value) := by
  cases first <;> rfl

theorem ite_map (condition : Prop) [Decidable condition] {first second : Except ε α}
    {first' second' : Except ε β} {f : α → β} (pos : condition → first' = first.map f)
    (neg : ¬ condition → second' = second.map f) :
    (if condition then first' else second') = (if condition then first else second).map f := by
  split
  · next holds => exact pos holds
  · next fails => exact neg fails

/-- A run with fuel that all large amounts are enough for. -/
def Returns (run : Nat → Except ε α) (result : α) : Prop :=
  ∃ enough, ∀ fuel, enough ≤ fuel → run fuel = .ok result

section Returns

variable {run : Nat → Except ε α} {result result' : α}

theorem Returns.unique (first : Returns run result) (second : Returns run result') :
    result = result' := by
  obtain ⟨enough, all⟩ := first
  obtain ⟨enough', all'⟩ := second
  have same := (all _ (Nat.le_max_left enough enough')).symm.trans
    (all' _ (Nat.le_max_right enough enough'))
  exact Except.ok.inj same

theorem Returns.bind {rest : α → Nat → Except ε β} {last : β} (first : Returns run result)
    (second : Returns (rest result) last) :
    Returns (fun fuel => run fuel >>= fun value => rest value fuel) last := by
  obtain ⟨enough, all⟩ := first
  obtain ⟨enough', all'⟩ := second
  refine ⟨max enough enough', fun fuel le => ?_⟩
  refine (bind_ok (all fuel (Nat.le_trans (Nat.le_max_left ..) le))).trans ?_
  exact all' fuel (Nat.le_trans (Nat.le_max_right ..) le)

theorem Returns.congr {run' : Nat → Except ε α} (returns : Returns run' result)
    (same : ∀ fuel, run fuel = run' fuel) : Returns run result := by
  obtain ⟨enough, all⟩ := returns
  exact ⟨enough, fun fuel le => (same fuel).trans (all fuel le)⟩

theorem returns_of_eq (all : ∀ fuel, run fuel = .ok result) : Returns run result :=
    ⟨0, fun fuel _ => all fuel⟩

end Returns

@[simp] theorem pure_eq_ok {value : α} : (pure value : Except ε α) = .ok value := rfl

end Foundation
