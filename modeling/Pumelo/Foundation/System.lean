import Mathlib.Logic.Relation

/-!
# Transition systems

Reachable states and the two induction rules that carry a property from one
step to a whole run.
-/

namespace Foundation

/-- A state machine, given by its initial states and its step relation. -/
structure System (σ : Type*) where
  init : σ → Prop
  step : σ → σ → Prop

namespace System

variable {σ : Type*} (system : System σ)

/-- States some run of the system visits. -/
inductive Reachable : σ → Prop where
  | init {state : σ} : system.init state → Reachable state
  | step {state next : σ} : Reachable state → system.step state next → Reachable next

/-- The same system with its steps restricted to those that meet a condition
on the state before and after. -/
def restrict (condition : σ → σ → Prop) : System σ where
  init := system.init
  step state next := system.step state next ∧ condition state next

variable {system}

/-- A weaker condition allows more. -/
theorem Reachable.mono {condition weaker : σ → σ → Prop}
    (implies : ∀ state next, condition state next → weaker state next) {state : σ}
    (reachable : (system.restrict condition).Reachable state) :
    (system.restrict weaker).Reachable state := by
  induction reachable with
  | init initial => exact .init initial
  | step _ taken ih => exact .step ih ⟨taken.1, implies _ _ taken.2⟩

/-- A restricted run is a run. -/
theorem Reachable.of_restrict {condition : σ → σ → Prop} {state : σ}
    (reachable : (system.restrict condition).Reachable state) : system.Reachable state := by
  induction reachable with
  | init initial => exact .init initial
  | step _ taken ih => exact .step ih taken.1

/-- An invariant holds initially and is kept by every step; then it holds in
every reachable state. -/
theorem Reachable.invariant {property : σ → Prop}
    (base : ∀ state, system.init state → property state)
    (preserved : ∀ state next, property state → system.step state next → property next)
    {state : σ} (reachable : system.Reachable state) : property state := by
  induction reachable with
  | init initial => exact base _ initial
  | step _ taken ih => exact preserved _ _ ih taken

end System

end Foundation
