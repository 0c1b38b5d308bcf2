import Mathlib.Algebra.BigOperators.Group.List.Basic
import Mathlib.Algebra.Ring.Nat
import Pumelo.Foundation.Dispatcher
import Pumelo.Foundation.System

/-!
# Round robin

A thread runs until its ticks are used up, and for one tick more; then it is queued behind
the others.  A ready thread waits for what the running one has left, and for the threads in
front of it in the queue.  The account of a labelled run bounds how long that is.
-/

namespace Foundation

/-- A run, with the labels of its steps. -/
inductive Run {ℓ σ : Type*} (step : ℓ → σ → σ → Prop) : List ℓ → σ → σ → Prop where
  | refl (state : σ) : Run step [] state state
  | step {labels : List ℓ} {label : ℓ} {first state next : σ} : Run step labels first state →
      step label state next → Run step (labels ++ [label]) first next

/-- Steps with the states that they lead to. -/
def traced {ℓ σ : Type*} (step : ℓ → σ → σ → Prop) (taken : ℓ × σ) (state next : σ) : Prop :=
  step taken.1 state next ∧ taken.2 = next

namespace Run

variable {ℓ σ : Type*} {step : ℓ → σ → σ → Prop} {labels : List ℓ} {label : ℓ} {first last : σ}

theorem of_nil (run : Run step [] first last) : last = first := by
  generalize none : [] = all at run
  cases run with
  | refl => rfl
  | step => simp at none

/-- The last step of a run. -/
theorem of_append (run : Run step (labels ++ [label]) first last) :
    ∃ state, Run step labels first state ∧ step label state last := by
  generalize whole : labels ++ [label] = all at run
  cases run with
  | refl => simp at whole
  | step run taken =>
      obtain ⟨rfl, same⟩ := List.append_inj' whole rfl
      cases same
      exact ⟨_, run, taken⟩

/-- A run with the states that it comes to. -/
theorem exists_traced (run : Run step labels first last) :
    ∃ trace, Run (traced step) trace first last ∧ trace.map Prod.fst = labels := by
  induction run with
  | refl => exact ⟨[], .refl _, rfl⟩
  | @step labels label first state next run taken ih =>
      obtain ⟨trace, before, same⟩ := ih
      refine ⟨trace ++ [(label, next)], before.step ⟨taken, rfl⟩, ?_⟩
      rw [List.map_append, same]
      rfl

/-- A run comes by a state, or all that it comes to are others. -/
theorem visits_or {trace : List (ℓ × σ)} (run : Run (traced step) trace first last)
    (goal : σ → Prop) :
    (∃ taken ∈ trace, goal taken.2) ∨
      Run (fun label state next => step label state next ∧ ¬goal next) (trace.map Prod.fst)
        first last := by
  induction run with
  | refl => exact .inr (.refl _)
  | @step trace pair first state next run taken ih =>
      rcases ih with ⟨seen, member, reached⟩ | others
      · exact .inl ⟨seen, List.mem_append_left _ member, reached⟩
      · by_cases reached : goal next
        · exact .inl ⟨pair, List.mem_append_right _ (List.mem_singleton_self _),
            taken.2 ▸ reached⟩
        · rw [List.map_append]
          exact .inr (others.step ⟨taken.1, reached⟩)

/-- Where each step is paid for by what it takes from a measure, or by what it is granted, the
run is paid for by the measure and the grants. -/
theorem account {measure : σ → Nat → Prop} {cost grant : ℓ → Nat}
    (paid : ∀ label state next have', measure state have' → step label state next →
      ∃ left, measure next left ∧ left + cost label ≤ have' + grant label)
    (run : Run step labels first last) {start : Nat} (holds : measure first start) :
    ∃ left, measure last left ∧
      left + (labels.map cost).sum ≤ start + (labels.map grant).sum := by
  induction run with
  | refl => exact ⟨start, holds, by simp⟩
  | step _ taken ih =>
      obtain ⟨left, held, paidBefore⟩ := ih holds
      obtain ⟨left', held', paidNow⟩ := paid _ _ _ _ held taken
      refine ⟨left', held', ?_⟩
      simp only [List.map_append, List.sum_append, List.map_singleton, List.sum_singleton]
      omega

end Run

namespace Dispatcher

variable {τ κ : Type*} [DecidableEq τ] {d : Dispatcher τ κ} {idle thread other : τ}
  {left left' : τ → Nat} {reason : κ}

/-- The threads that run before this one. -/
def before (d : Dispatcher τ κ) (thread : τ) : List τ :=
  d.running :: d.ready.takeWhile (· ≠ thread)

/-- The ticks for which they run. -/
def wait (d : Dispatcher τ κ) (left : τ → Nat) (thread : τ) : Nat :=
  ((d.before thread).map fun other => left other + 1).sum

theorem wait_eq (d : Dispatcher τ κ) (left : τ → Nat) (thread : τ) :
    d.wait left thread = left d.running + 1 +
      ((d.ready.takeWhile (· ≠ thread)).map fun other => left other + 1).sum := by
  rw [wait, before, List.map_cons, List.sum_cons]

/-- The running thread has its last tick still to come. -/
theorem wait_pos (d : Dispatcher τ κ) (left : τ → Nat) (thread : τ) : 0 < d.wait left thread := by
  rw [wait_eq]
  omega

/-- The threads in front of one do not depend on what is behind it. -/
theorem takeWhile_ne_append {list : List τ} (member : thread ∈ list) (more : List τ) :
    (list ++ more).takeWhile (· ≠ thread) = list.takeWhile (· ≠ thread) := by
  induction list with
  | nil => cases member
  | cons head list ih =>
      by_cases same : head = thread
      · simp [same]
      · have inside : thread ∈ list := (List.mem_cons.mp member).resolve_left (Ne.symm same)
        simpa [same] using ih inside

/-- In a queue that is written out. -/
theorem takeWhile_ne_split {front back : List τ} (absent : thread ∉ front) :
    (front ++ thread :: back).takeWhile (· ≠ thread) = front := by
  rw [List.takeWhile_append_of_pos fun other member => by
    simpa using fun same : other = thread => absent (same ▸ member)]
  simp

/-- What the threads behind it have left does not matter. -/
theorem wait_congr (same : ∀ other ∈ d.before thread, left' other = left other) :
    d.wait left' thread = d.wait left thread := by
  rw [wait, wait, List.map_congr_left fun other member => by rw [same other member]]

/-- A tick of the running thread is one that the others need not wait for. -/
theorem wait_tick (used : left' d.running + 1 = left d.running)
    (same : ∀ other ∈ d.ready, left' other = left other) :
    d.wait left' thread + 1 = d.wait left thread := by
  have queued : ∀ other ∈ d.ready.takeWhile (· ≠ thread), left' other + 1 = left other + 1 :=
    fun other member => by rw [same other (List.takeWhile_subset _ member)]
  rw [wait_eq, wait_eq, List.map_congr_left queued]
  omega

/-- The next thread has waited for the running one only. -/
theorem wait_next (ready : thread ∈ d.ready) (next : d.next idle = thread) :
    d.wait left thread = left d.running + 1 := by
  rw [wait_eq]
  rw [Dispatcher.next] at next
  cases queue : d.ready with
  | nil =>
      rw [queue] at ready
      cases ready
  | cons head rest =>
      rw [queue, List.headD_cons] at next
      simp [next]

/-- The threads behind the next one no longer wait for the one that ran. -/
theorem wait_dispatch (ready : thread ∈ d.ready) (other : d.next idle ≠ thread)
    (same : ∀ other ∈ d.ready.takeWhile (· ≠ thread), left' other = left other) :
    (d.dispatch idle).wait left' thread + (left d.running + 1) = d.wait left thread := by
  rw [wait_eq, wait_eq]
  rw [Dispatcher.next] at other
  cases queue : d.ready with
  | nil =>
      rw [queue] at ready
      cases ready
  | cons head rest =>
      rw [queue, List.headD_cons] at other
      have front : (head :: rest).takeWhile (· ≠ thread) = head :: rest.takeWhile (· ≠ thread) := by
        simp [other]
      rw [queue, front] at same
      have queued : ∀ other ∈ rest.takeWhile (· ≠ thread), left' other + 1 = left other + 1 :=
        fun other member => by rw [same other (List.mem_cons_of_mem _ member)]
      have kept : left' head = left head := same head (List.mem_cons_self ..)
      simp only [dispatch, Dispatcher.next, queue, List.headD_cons, List.tail_cons,
        List.map_congr_left queued, front, List.map_cons, List.sum_cons, kept]
      omega

/-- A thread queued behind it is not waited for. -/
theorem wait_enqueue (ready : thread ∈ d.ready) :
    (d.enqueue other).wait left thread = d.wait left thread := by
  rw [wait_eq, wait_eq]
  simp only [enqueue, takeWhile_ne_append ready]
  rfl

/-- Nor is a new one. -/
theorem wait_start (ready : thread ∈ d.ready) :
    (d.start other).wait left thread = d.wait left thread :=
  wait_enqueue ready

/-- A thread that is woken goes in front of it. -/
theorem wait_wake (different : other ≠ thread) :
    (d.wake other).wait left thread = d.wait left thread + (left other + 1) := by
  rw [wait_eq, wait_eq]
  simp only [wake, List.takeWhile_cons, ne_eq, different, not_false_iff, decide_true, if_true,
    List.map_cons, List.sum_cons]
  simp only [setPhase]
  omega

omit [DecidableEq τ] in
/-- Another thread than the next one stays in the queue. -/
theorem mem_dispatch [DecidableEq τ] (ready : thread ∈ d.ready) (other : d.next idle ≠ thread) :
    thread ∈ (d.dispatch idle).ready := by
  rw [Dispatcher.next] at other
  cases queue : d.ready with
  | nil =>
      rw [queue] at ready
      cases ready
  | cons head rest =>
      rw [queue] at ready other
      simp only [dispatch, queue, List.tail_cons]
      exact (List.mem_cons.mp ready).resolve_left (Ne.symm other)

end Dispatcher

end Foundation
