import Pumelo.KernelSteps

/-!
# Where a thread begins

A thread that `thread_start` has made runs for the first time when `switch_to` returns
into `kernel_thread_entry`.  Neither of the two touches the interrupt flag, so that the
function of the thread begins with the flag as `schedule` left it.
-/

namespace Pumelo

open Foundation

/-- `kernel_thread_entry`, up to the first instruction of `func`: it does nothing but
call it. -/
def kernelThreadEntry (m : Machine) : Machine := m

/-- A kernel, the threads that were started and have not run yet, and those that have,
with the interrupt flag that their functions began with. -/
structure Starts where
  kernel : Kernel
  fresh : List Nat
  begun : List (Nat × IntrStatus)

namespace Starts

/-- The machine where the function of the running thread begins. -/
def entered (s : Starts) : Machine := kernelThreadEntry s.kernel.machine

/-- The steps of the kernel, and the first one of a thread that was started. -/
inductive Step (first : Nat → Nat) : Starts → Starts → Prop where
  | kernel {s : Starts} {next : Kernel} : s.kernel.machine.running ∉ s.fresh →
      Kernel.Step first False s.kernel next →
      Step first s { s with
        kernel := next
        fresh := s.fresh ++ next.threads.drop s.kernel.threads.length }
  | begin {s : Starts} : s.kernel.machine.running ∈ s.fresh →
      Step first s
        { kernel := { s.kernel with machine := s.entered }
          fresh := s.fresh.filter fun thread => thread ≠ s.kernel.machine.running
          begun := (s.kernel.machine.running, getIntrStatus s.entered) :: s.begun }

/-- After `kthread_init` the idle thread has been started. -/
def Initial (s : Starts) : Prop :=
  s.kernel.Initial ∧ s.fresh = [s.kernel.machine.idleThread] ∧ s.begun = []

end Starts

/-- Threads from their start on; `first` is what each semaphore is initialised to. -/
def startSystem (first : Nat → Nat) : System Starts where
  init := Starts.Initial
  step := Starts.Step first

/-- The functions of all threads begin with interrupts on. -/
def StartsPreemptible : Prop :=
  ∀ first : Nat → Nat, (∀ sema, first sema ≤ 1) → ∀ s, (startSystem first).Reachable s →
    ∀ thread status, (thread, status) ∈ s.begun → status = .on

namespace Starts

variable {s next : Starts} {first : Nat → Nat}

/-- A step that starts no thread. -/
theorem Step.same {kernel : Kernel} (notFresh : s.kernel.machine.running ∉ s.fresh)
    (taken : Kernel.Step first False s.kernel kernel)
    (threads : kernel.threads = s.kernel.threads) :
    Step first s { s with kernel := kernel } := by
  have step := Step.kernel notFresh taken
  rwa [threads, List.drop_length, List.append_nil] at step

/-- What every run keeps: a thread that is to begin has interrupts off, and so had those
that have begun. -/
structure Inv (first : Nat → Nat) (s : Starts) : Prop where
  refines : ∃ semas, s.kernel.Refines first semas
  off : s.kernel.machine.running ∈ s.fresh → s.kernel.machine.intr = .off
  begun : ∀ thread status, (thread, status) ∈ s.begun → status = .off

theorem Initial.inv (binary : ∀ sema, first sema ≤ 1) (initial : s.Initial) : s.Inv first := by
  obtain ⟨kernel, fresh, begun⟩ := initial
  obtain ⟨main, different, refines⟩ := kernel.refines binary
  refine ⟨⟨_, refines⟩, fun member => ?_, by simp [begun]⟩
  rw [fresh, List.mem_singleton, refines.running] at member
  exact absurd member.symm different

theorem Inv.step (inv : s.Inv first) (taken : Step first s next) : next.Inv first := by
  obtain ⟨semas, refines⟩ := inv.refines
  cases taken with
  | @kernel next notFresh taken =>
      refine ⟨refines.step taken, fun member => ?_, inv.begun⟩
      by_cases switched : next.machine.running = s.kernel.machine.running
      · -- the thread that goes on has begun, and is not a new one
        obtain ⟨started, threads, new⟩ := taken.started_new
        simp only [switched, threads, List.drop_left, List.mem_append] at member
        obtain fresh | isNew := member
        · exact absurd fresh notFresh
        · exact absurd refines.running_mem (new _ isNew)
      · exact taken.switched_off switched
  | begin fresh =>
      refine ⟨⟨semas, refines⟩, fun member => ?_, fun thread status member => ?_⟩
      · exact absurd rfl (of_decide_eq_true (List.mem_filter.mp member).2)
      · obtain begins | before := List.mem_cons.mp member
        · cases begins
          exact inv.off fresh
        · exact inv.begun thread status before

end Starts

/-- The main thread turns interrupts on and yields: the idle thread begins. -/
theorem Starts.Initial.begins {s : Starts} {first : Nat → Nat}
    (binary : ∀ sema, first sema ≤ 1) (initial : s.Initial) :
    ∃ next, (startSystem first).Reachable next ∧
      (s.kernel.machine.idleThread, IntrStatus.off) ∈ next.begun := by
  obtain ⟨booted, fresh, -⟩ := id initial
  obtain ⟨main, different, refines⟩ := booted.refines binary
  have outside : ∀ thread, s.kernel.spot thread = .outside := by
    obtain ⟨-, -, -, -, -, -, -, -, -, -, spot, -⟩ := booted
    exact spot
  have notFresh : s.kernel.machine.running ∉ s.fresh := by
    rw [fresh, List.mem_singleton, refines.running]
    exact different.symm
  -- `intr_enable()`
  let enabled : Kernel := { s.kernel with machine := { s.kernel.machine with intr := .on } }
  have refines₁ : enabled.Refines first _ := refines.compute .on fun query _ => rfl
  have step₁ : Kernel.Step first False s.kernel enabled :=
    .compute s.kernel.machine.mem .on (outside _) fun _ _ => rfl
  -- the ready list holds the idle thread only
  obtain ⟨m', run, runs, -⟩ := threadYield_runs refines₁.holds.runs refines₁.inv.sound
  have step₂ : Kernel.Step first False enabled (enabled.goto m' (.returns .on)) :=
    .yield .on m' (outside _) run
  have running : m'.running = s.kernel.machine.idleThread := runs.running
  have reached₁ : (startSystem first).Reachable { s with kernel := enabled } :=
    .step (.init initial) (Starts.Step.same notFresh step₁ rfl)
  have reached₂ : (startSystem first).Reachable
      { s with kernel := enabled.goto m' (.returns .on) } :=
    .step reached₁ (Starts.Step.same notFresh step₂ rfl)
  have begins : m'.running ∈ s.fresh := by
    rw [fresh, running]
    exact List.mem_singleton_self _
  refine ⟨_, .step reached₂ (.begin begins), List.mem_cons.mpr (.inl ?_)⟩
  refine Prod.ext running.symm ?_
  exact (threadYield_leaves run).1.off.symm

/-- In no run does the function of a thread begin with interrupts on. -/
theorem starts_off {first : Nat → Nat} (binary : ∀ sema, first sema ≤ 1) {s : Starts}
    (reachable : (startSystem first).Reachable s) {thread : Nat} {status : IntrStatus}
    (begun : (thread, status) ∈ s.begun) : ¬ status = .on := by
  have preserved (state next : Starts) (inv : state.Inv first)
      (taken : (startSystem first).step state next) : next.Inv first := inv.step taken
  have base (state : Starts) (initial : state.Initial) : state.Inv first := initial.inv binary
  have inv := reachable.invariant base preserved
  rw [inv.begun thread status begun]
  exact nofun

theorem startSystem_booted : ∃ s : Starts, s.Initial := by
  obtain ⟨k, initial, -⟩ := Kernel.initial_booted
  exact ⟨⟨k, [k.machine.idleThread], []⟩, initial, rfl, rfl⟩

theorem starts_off_idle :
    ∃ (s : Starts) (thread : Nat) (status : IntrStatus), (thread, status) ∈ s.begun ∧
      ¬ status = .on := by
  have binary : ∀ sema : Nat, (fun _ => 0) sema ≤ 1 := fun _ => Nat.zero_le 1
  obtain ⟨s, initial⟩ := startSystem_booted
  obtain ⟨next, reachable, begun⟩ := initial.begins binary
  exact ⟨next, _, _, begun, starts_off binary reachable begun⟩

/-- The idle thread begins with interrupts off after the main thread has turned them on. -/
theorem not_startsPreemptible : ¬StartsPreemptible := by
  intro always
  have binary : ∀ sema : Nat, (fun _ => 0) sema ≤ 1 := fun _ => Nat.zero_le 1
  obtain ⟨s, initial⟩ := startSystem_booted
  obtain ⟨next, reachable, begun⟩ := initial.begins binary
  cases always _ binary next reachable _ _ begun

end Pumelo
