import Mathlib.Data.Finset.Card
import Pumelo.Foundation.RoundRobin

/-!
# Requests by priority

A server with requests that wait, of which it takes the least.  A request waits for those
below it: the ones that wait already, and the ones that come in the meantime.
-/

namespace Foundation

namespace Run

variable {ℓ κ σ τ : Type*} {step : ℓ → σ → σ → Prop} {labels : List ℓ} {first last : σ}

/-- What holds of every label is kept with the steps. -/
theorem restrict {condition : ℓ → Prop} (run : Run step labels first last)
    (every : ∀ label ∈ labels, condition label) :
    Run (fun label state next => step label state next ∧ condition label) labels first last := by
  induction run with
  | refl => exact .refl _
  | step _ taken ih =>
      exact (ih fun label member => every label (List.mem_append_left _ member)).step
        ⟨taken, every _ (by simp)⟩

/-- A run of one machine is followed by a run of another, label by label. -/
theorem simulate {abstract : κ → τ → τ → Prop} {relates : σ → τ → Prop} {label' : ℓ → κ}
    (follows : ∀ label state next other, relates state other → step label state next →
      ∃ other', abstract (label' label) other other' ∧ relates next other')
    (run : Run step labels first last) {other : τ} (start : relates first other) :
    ∃ other', Run abstract (labels.map label') other other' ∧ relates last other' := by
  induction run with
  | refl => exact ⟨other, .refl _, start⟩
  | step _ taken ih =>
      obtain ⟨between, before, related⟩ := ih start
      obtain ⟨other', taken', related'⟩ := follows _ _ _ _ related taken
      refine ⟨other', ?_, related'⟩
      rw [List.map_append]
      exact before.step taken'

end Run

/-- What happens at the server. -/
inductive ServerLabel (ι : Type*) where
  | request (item : ι)
  | take (item : ι)
  | silent
  deriving DecidableEq

namespace ServerLabel

variable {ι : Type*} [LinearOrder ι]

/-- The requests that wait, before and after. -/
def Does : ServerLabel ι → Finset ι → Finset ι → Prop
  | .request item, waiting, next => next = insert item waiting
  | .take item, waiting, next =>
      item ∈ waiting ∧ (∀ other ∈ waiting, item ≤ other) ∧ next = waiting.erase item
  | .silent, waiting, next => next = waiting

/-- A request is taken. -/
def takes : ServerLabel ι → Bool
  | .take _ => true
  | _ => false

/-- A request comes in front of `item`. -/
def passes (item : ι) : ServerLabel ι → Bool
  | .request other => decide (other < item)
  | _ => false

/-- The requests in front of `item`. -/
def inFront (item : ι) (waiting : Finset ι) : Finset ι := waiting.filter (· < item)

/-- One step, while `item` waits. -/
theorem Does.account {label : ServerLabel ι} {waiting next : Finset ι} {item : ι}
    (does : label.Does waiting next) (other : label ≠ .take item) (waits : item ∈ waiting) :
    item ∈ next ∧ (inFront item next).card + label.takes.toNat ≤
      (inFront item waiting).card + (label.passes item).toNat := by
  cases label with
  | silent =>
      obtain rfl : next = waiting := does
      exact ⟨waits, le_rfl⟩
  | request came =>
      obtain rfl : next = insert came waiting := does
      refine ⟨Finset.mem_insert_of_mem waits, ?_⟩
      simp only [inFront, takes, passes, Finset.filter_insert]
      by_cases front : came < item
      · simpa [front] using Finset.card_insert_le came (waiting.filter (· < item))
      · simp [front]
  | take taken =>
      obtain ⟨member, least, rfl⟩ := does
      have different : taken ≠ item := fun same => other (congrArg _ same)
      have lower : taken < item := lt_of_le_of_ne (least item waits) different
      have counted : taken ∈ inFront item waiting := Finset.mem_filter.mpr ⟨member, lower⟩
      refine ⟨Finset.mem_erase.mpr ⟨different.symm, waits⟩, ?_⟩
      have one : inFront item (waiting.erase taken) = (inFront item waiting).erase taken :=
        Finset.filter_erase _ _ _
      simp only [takes, passes, one, Bool.toNat_true, Bool.toNat_false, add_zero]
      exact (Finset.card_erase_add_one counted).le

/-- A request that waits is taken, or each request that was taken instead waited in front of it or
came in front of it. -/
theorem taken_or_waits {labels : List (ServerLabel ι)} {waiting last : Finset ι} {item : ι}
    (run : Run Does labels waiting last) (waits : item ∈ waiting) :
    .take item ∈ labels ∨ item ∈ last ∧ labels.countP takes ≤
      (inFront item waiting).card + labels.countP (passes item) := by
  have counts : ∀ (property : ServerLabel ι → Bool) (labels : List (ServerLabel ι)),
      (labels.map fun label => (property label).toNat).sum = labels.countP property := by
    intro property labels
    induction labels with
    | nil => rfl
    | cons label labels ih =>
        rw [List.map_cons, List.sum_cons, ih, List.countP_cons]
        cases property label <;> simp [Nat.add_comm]
  by_cases taken : .take item ∈ labels
  · exact .inl taken
  · have others := run.restrict fun label member => (fun same => taken (same ▸ member) :
      label ≠ .take item)
    have paid : ∀ label state next have', item ∈ state ∧ have' = (inFront item state).card →
        Does label state next ∧ label ≠ .take item →
          ∃ left, (item ∈ next ∧ left = (inFront item next).card) ∧
            left + label.takes.toNat ≤ have' + (label.passes item).toNat := by
      rintro label state next have' ⟨waits, rfl⟩ ⟨does, other⟩
      obtain ⟨waits', paid⟩ := does.account other waits
      exact ⟨_, ⟨waits', rfl⟩, paid⟩
    obtain ⟨left, ⟨waits', -⟩, counted⟩ := others.account paid ⟨waits, rfl⟩
    rw [counts, counts] at counted
    exact .inr ⟨waits', by omega⟩

end ServerLabel

end Foundation
