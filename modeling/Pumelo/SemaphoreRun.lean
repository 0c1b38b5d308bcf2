import Pumelo.Foundation.System
import Pumelo.Semaphore

/-!
# Threads that share semaphores

Runs from `kthread_init` on: threads are started, preempted, yield, block and wake each
other, and go down and up on any number of semaphores, themselves or in an interrupt
handler that runs on their stack.  Interrupts are off from the first instruction of
`sema_down` to its last and while another thread is dispatched, so one step is a call up
to where another thread runs, or what is left of it when the thread runs again.
-/

namespace Pumelo

open Foundation

/-- Where a thread goes on when it runs: in code of its own, at the end of a call that
gave up the processor, or in the loop of `sema_down`; the latter two set the interrupt
flag before they return. -/
inductive Spot where
  | outside
  | returns (oldStatus : IntrStatus)
  | looks (sema : Nat) (oldStatus : IntrStatus)
  deriving DecidableEq, Repr

/-- The semaphore whose value a thread is to look at. -/
def Spot.sema : Spot → Option Nat
  | looks sema _ => some sema
  | _ => none

/-- The machine, its threads and semaphores so far, and the calls that were completed. -/
structure Kernel where
  machine : Machine
  threads : List Nat
  semas : List Nat
  spot : Nat → Spot
  downs : Nat → Nat
  ups : Nat → Nat

namespace Kernel

/-- The spot of the running thread. -/
def here (k : Kernel) : Spot := k.spot k.machine.running

/-- The running thread is at a new spot, in a machine where it may run no more. -/
def goto (k : Kernel) (machine : Machine) (spot : Spot) : Kernel :=
  { k with
    machine := machine
    spot := Function.update k.spot k.machine.running spot }

/-- What the loop of `sema_down` leaves: the call is over, or waits. -/
def afterTry (k : Kernel) (sema : Nat) (oldStatus : IntrStatus) : Bool × Machine → Kernel
  | (true, m) => { k.goto (setIntrStatus m oldStatus).2 .outside with
      downs := Function.update k.downs sema (k.downs sema + 1) }
  | (false, m) => k.goto m (.looks sema oldStatus)

/-- Bytes that code of the threads' own does not write: those of the lists, of the
semaphores and of what the scheduler relies on in a thread structure. -/
def Reserved (k : Kernel) (query : Nat) : Prop :=
  (k.machine.image.threadReadyList ≤ query ∧ query < k.machine.image.threadReadyList + 16) ∨
    (k.machine.image.threadListAll ≤ query ∧ query < k.machine.image.threadListAll + 16) ∨
    (∃ sema ∈ k.semas, sema ≤ query ∧ query < sema + 20) ∨
    ∃ thread ∈ k.threads, (thread + 4 ≤ query ∧ query < thread + 8) ∨
      (thread + 92 ≤ query ∧ query < thread + 108) ∨ (thread + 308 ≤ query ∧ query < thread + 312)

/-- A thread sleeps that is in no loop of `sema_down`. -/
def SleepsPlainly (k : Kernel) (thread : Nat) : Prop :=
  thread ∈ k.threads ∧ (k.spot thread).sema = none ∧
    ∃ reason : Asleep, statusOf k.machine.mem thread = reason.status.code

/-- The steps.  `sema_up` is called with a value of 0 only; `idleWaits` says whether
`sema_down` may be called on the stack of the idle thread. -/
inductive Step (first : Nat → Nat) (idleWaits : Prop) : Kernel → Kernel → Prop where
  | init {k : Kernel} (sema : Nat) (value : UInt8) : k.here = .outside → sema ∉ k.semas →
      SemaPlaced k.machine.image k.threads sema →
      (∀ other ∈ k.semas, sema + 20 ≤ other ∨ other + 20 ≤ sema) → value.toNat = first sema →
      Step first idleWaits k { k with
        machine := semaInit k.machine sema value
        semas := sema :: k.semas }
  | down {k : Kernel} (sema : Nat) (result : Bool × Machine) : k.here = .outside →
      sema ∈ k.semas → k.machine.running ≠ k.machine.idleThread ∨ idleWaits →
      semaTry (intrDisable k.machine).2 sema = .ok result →
      Step first idleWaits k (k.afterTry sema k.machine.intr result)
  | again {k : Kernel} (sema : Nat) (oldStatus : IntrStatus) (result : Bool × Machine) :
      k.here = .looks sema oldStatus →
      semaTry (setIntrStatus k.machine .off).2 sema = .ok result →
      Step first idleWaits k (k.afterTry sema oldStatus result)
  | up {k : Kernel} (sema : Nat) (machine : Machine) : k.here = .outside → sema ∈ k.semas →
      k.machine.mem sema = 0 → semaUp k.machine sema = .ok machine →
      Step first idleWaits k { k with
        machine := machine
        ups := Function.update k.ups sema (k.ups sema + 1) }
  | timer {k : Kernel} (machine : Machine) : k.here = .outside → k.machine.intr = .on →
      timerIntrHandler { k.machine with intr := .off } = .ok machine →
      Step first idleWaits k (k.goto machine (.returns .on))
  | yield {k : Kernel} (oldStatus : IntrStatus) (machine : Machine) : k.here = .outside →
      threadYield k.machine = .ok (oldStatus, machine) →
      Step first idleWaits k (k.goto machine (.returns oldStatus))
  | block {k : Kernel} (reason : Asleep) (oldStatus : IntrStatus) (machine : Machine) :
      k.here = .outside → threadBlock k.machine reason.status = .ok (oldStatus, machine) →
      Step first idleWaits k (k.goto machine (.returns oldStatus))
  | resume {k : Kernel} (oldStatus : IntrStatus) : k.here = .returns oldStatus →
      Step first idleWaits k (k.goto (setIntrStatus k.machine oldStatus).2 .outside)
  | unblock {k : Kernel} (thread : Nat) (machine : Machine) : k.here = .outside →
      k.SleepsPlainly thread → threadUnblock k.machine thread = .ok machine →
      Step first idleWaits k { k with machine := machine }
  | start {k : Kernel} (thread : Nat) (start : Start) (machine : Machine) : k.here = .outside →
      ThreadPage thread → thread ∉ k.threads → NameFits start.name →
      (∀ sema ∈ k.semas, sema + 20 ≤ thread ∨ thread + 4096 ≤ sema) →
      threadStart k.machine thread start = .ok machine →
      Step first idleWaits k { k with
        machine := machine
        threads := k.threads ++ [thread] }
  | compute {k : Kernel} (mem : Bytes) (intr : IntrStatus) : k.here = .outside →
      (∀ query, k.Reserved query → mem query = k.machine.mem query) →
      Step first idleWaits k { k with
        machine := { k.machine with
          mem := mem
          intr := intr } }

/-- After `kthread_init`, with no semaphore yet. -/
def Initial (k : Kernel) : Prop :=
  ∃ (m : Machine) (page entry idle : Nat), ThreadPage m.running ∧ ThreadPage page ∧
    page ≠ m.running ∧ kthreadInit m page entry idle = .ok k.machine ∧
    k.threads = [m.running, page] ∧ k.semas = [] ∧ (∀ thread, k.spot thread = .outside) ∧
    (∀ sema, k.downs sema = 0) ∧ ∀ sema, k.ups sema = 0

end Kernel

/-- Threads and semaphores, where `first` is what each semaphore is initialised to. -/
def semaphoreSystem (first : Nat → Nat) (idleWaits : Prop) : System Kernel where
  init := Kernel.Initial
  step := Kernel.Step first idleWaits

namespace Kernel

/-- The waiters of a semaphore, in order. -/
def Waiters (k : Kernel) (sema : Nat) (waiters : List Nat) : Prop :=
  ListAt k.machine.mem (waitersOf sema) (waiters.map generalTag)

/-- A thread is in the ready list. -/
def Ready (k : Kernel) (thread : Nat) : Prop :=
  listFind k.machine.mem k.machine.image.threadReadyList (generalTag thread) = .ok true

/-- A thread in the loop of `sema_down` that has been woken: it is ready, or runs and is
about to look at the value. -/
def Woken (k : Kernel) (sema thread : Nat) : Prop :=
  (k.spot thread).sema = some sema ∧
    (statusOf k.machine.mem thread = TaskStatus.ready.code ∧ k.Ready thread ∨
      thread = k.machine.running)

/-- What a semaphore keeps. -/
structure Binary (k : Kernel) (first : Nat) (sema : Nat) (waiters : List Nat) : Prop where
  binary : (k.machine.mem sema).toNat ≤ 1
  count : k.downs sema + (k.machine.mem sema).toNat = first + k.ups sema
  waiting : k.Waiters sema waiters
  once : waiters.Nodup
  blocked : ∀ thread ∈ waiters, (k.spot thread).sema = some sema ∧
    statusOf k.machine.mem thread = TaskStatus.blocked.code ∧ ¬k.Ready thread
  others : ∀ thread, (k.spot thread).sema = some sema → thread ∉ waiters → k.Woken sema thread
  noLoss : (k.machine.mem sema).toNat = 1 → waiters ≠ [] → ∃ thread, k.Woken sema thread

/-- No assertion fails and nothing panics in the next call. -/
structure CallsReturn (k : Kernel) (idleWaits : Prop) : Prop where
  down : ∀ sema ∈ k.semas, k.here = .outside →
    k.machine.running ≠ k.machine.idleThread ∨ idleWaits →
    ∃ result, semaTry (intrDisable k.machine).2 sema = .ok result
  again : ∀ sema oldStatus, k.here = .looks sema oldStatus →
    ∃ result, semaTry (setIntrStatus k.machine .off).2 sema = .ok result
  up : ∀ sema ∈ k.semas, k.here = .outside → k.machine.mem sema = 0 →
    ∃ machine, semaUp k.machine sema = .ok machine
  unblock : ∀ thread, k.here = .outside → k.SleepsPlainly thread →
    ∃ machine, threadUnblock k.machine thread = .ok machine
  yield : k.here = .outside → ∃ result, threadYield k.machine = .ok result
  block : ∀ reason : Asleep, k.here = .outside →
    ∃ result, threadBlock k.machine reason.status = .ok result
  timer : k.here = .outside →
    ∃ machine, timerIntrHandler { k.machine with intr := .off } = .ok machine

end Kernel

/-! ## The refinement -/

/-- The abstract semaphores that a kernel holds.  One that is not initialised yet has the
value that it will be given. -/
structure Kernel.Refines (k : Kernel) (first : Nat → Nat) (s : Semaphores Nat Asleep Nat) :
    Prop where
  holds : k.machine.Holds s k.semas
  inv : k.machine.Guards first s
  threads : s.threads.born = k.threads
  main : k.machine.mainThread ∈ k.threads
  spot : ∀ thread, s.spot thread = (k.spot thread).sema
  known : ∀ thread sema, s.spot thread = some sema → thread ∈ k.threads ∧ sema ∈ k.semas
  dormant : ∀ sema, sema ∉ k.semas → s.waiters sema = [] ∧ s.value sema = first sema
  downs : s.downs = k.downs
  ups : s.ups = k.ups

namespace Kernel.Refines

variable {k : Kernel} {s : Semaphores Nat Asleep Nat} {first : Nat → Nat} {sema thread : Nat}
  {m : Machine}

theorem running (refines : k.Refines first s) : k.machine.running = s.threads.running :=
  refines.holds.runs.running

/-- What the running thread is to look at. -/
theorem here (refines : k.Refines first s) : s.spot s.threads.running = k.here.sema := by
  rw [refines.spot, ← refines.running]
  rfl

/-- The idle thread is in no loop of `sema_down`. -/
theorem notIdle (refines : k.Refines first s) (spot : s.spot s.threads.running = some sema) :
    k.machine.running ≠ k.machine.idleThread := by
  intro equal
  rw [← refines.running, equal, refines.inv.idle] at spot
  cases spot

/-- The machine changes as the abstract threads do, and the running thread goes on
elsewhere. -/
theorem goto (refines : k.Refines first s) {threads : Dispatcher Nat Asleep}
    (agrees : k.machine.Agrees m) (holds : m.Holds (s.withThreads threads) k.semas)
    (inv : m.Guards first (s.withThreads threads)) (born : threads.born = k.threads) {spot : Spot}
    (free : k.here.sema = none) (free' : spot.sema = none) :
    (k.goto m spot).Refines first (s.withThreads threads) := by
  refine ⟨holds, inv, born, ?_, fun thread => ?_, refines.known, refines.dormant, refines.downs,
    refines.ups⟩
  · rw [show (k.goto m spot).machine.mainThread = k.machine.mainThread from agrees.mainThread]
    exact refines.main
  · rw [show (k.goto m spot).spot = Function.update k.spot k.machine.running spot from rfl]
    by_cases self : thread = k.machine.running
    · subst self
      rw [Function.update_self, free']
      exact (refines.spot _).trans free
    · rw [Function.update_of_ne self]
      exact refines.spot thread

/-- The loop of `sema_down` with a value of 0, in a thread that is not the idle thread. -/
theorem tries_wait (refines : k.Refines first s) (live : sema ∈ k.semas) (looks : s.Looks sema)
    (notIdle : k.machine.running ≠ k.machine.idleThread) (zero : s.value sema = 0)
    (oldStatus : IntrStatus) :
    ∃ m', semaTry { k.machine with intr := .off } sema = .ok (false, m') ∧
      (k.afterTry sema oldStatus (false, m')).Refines first
        (s.wait k.machine.idleThread .blocked sema) := by
  have off := refines.holds.setIntr .off
  have running := refines.running
  obtain ⟨m', run, agrees, holds⟩ := off.semaTry_wait refines.inv live (running ▸ notIdle) zero
  refine ⟨m', run, holds, ?_, refines.threads, ?_, fun thread => ?_,
    fun thread other spot => ?_, fun other fresh => ?_, refines.downs, refines.ups⟩
  · have inv := refines.inv.wait looks (running ▸ notIdle) zero
    rwa [Machine.Guards, show ((k.afterTry sema oldStatus (false, m')).machine.idleThread) =
      k.machine.idleThread from agrees.idleThread]
  · rw [show (k.afterTry sema oldStatus (false, m')).machine.mainThread =
      k.machine.mainThread from agrees.mainThread]
    exact refines.main
  · simp only [Semaphores.wait, afterTry, Kernel.goto, ← running, Function.update_apply]
    split
    · rfl
    · exact refines.spot thread
  · simp only [Semaphores.wait, Function.update_apply] at spot
    split at spot
    · next self =>
        cases spot
        refine ⟨?_, live⟩
        rw [self]
        exact refines.threads ▸ Machine.Holds.moved_born refines.inv (by simp)
    · exact refines.known thread other spot
  · have different : other ≠ sema := fun equal => fresh (equal ▸ live)
    simp only [Semaphores.wait, Function.update_of_ne different]
    exact refines.dormant other fresh

/-- The loop of `sema_down` with a value of 1 ends. -/
theorem tries_take (refines : k.Refines first s) (live : sema ∈ k.semas) (looks : s.Looks sema)
    (nonzero : s.value sema ≠ 0) (oldStatus : IntrStatus) :
    ∃ m', semaTry { k.machine with intr := .off } sema = .ok (true, m') ∧
      (k.afterTry sema oldStatus (true, m')).Refines first (s.take sema) := by
  have running := refines.running
  obtain ⟨mem, run, holds⟩ :=
    (refines.holds.setIntr .off).semaTry_take refines.inv live nonzero
  refine ⟨_, run, ?_, ?_, refines.threads, ?_, fun thread => ?_,
    fun thread other spot => ?_, fun other fresh => ?_, ?_, refines.ups⟩
  · simp only [afterTry, Kernel.goto, setIntrStatus_eq]
    exact holds.setIntr oldStatus
  · simp only [Machine.Guards, afterTry, Kernel.goto, setIntrStatus_eq]
    exact refines.inv.take looks nonzero
  · simp only [afterTry, Kernel.goto, setIntrStatus_eq]
    exact refines.main
  · simp only [Semaphores.take, afterTry, Kernel.goto, ← running, Function.update_apply]
    split
    · rfl
    · exact refines.spot thread
  · simp only [Semaphores.take, Function.update_apply] at spot
    split at spot
    · cases spot
    · exact refines.known thread other spot
  · have different : other ≠ sema := fun equal => fresh (equal ▸ live)
    simp only [Semaphores.take, Function.update_of_ne different]
    exact refines.dormant other fresh
  · simp only [Semaphores.take, afterTry, refines.downs]

/-- The loop of `sema_down` in a thread that is not the idle thread. -/
theorem tries (refines : k.Refines first s) (live : sema ∈ k.semas) (looks : s.Looks sema)
    (notIdle : k.machine.running ≠ k.machine.idleThread) (oldStatus : IntrStatus) :
    ∃ result s', semaTry { k.machine with intr := .off } sema = .ok result ∧
      (k.afterTry sema oldStatus result).Refines first s' ∧
      (s' = s.take sema ∨ s' = s.wait k.machine.idleThread .blocked sema) := by
  by_cases zero : s.value sema = 0
  · obtain ⟨m', run, refined⟩ := refines.tries_wait live looks notIdle zero oldStatus
    exact ⟨_, _, run, refined, .inr rfl⟩
  · obtain ⟨m', run, refined⟩ := refines.tries_take live looks zero oldStatus
    exact ⟨_, _, run, refined, .inl rfl⟩

/-- `sema_up` with a value of 0. -/
theorem up (refines : k.Refines first s) (live : sema ∈ k.semas) (free : k.here.sema = none)
    (zero : k.machine.mem sema = 0) :
    ∃ m', semaUp k.machine sema = .ok m' ∧
      Kernel.Refines { k with
        machine := m'
        ups := Function.update k.ups sema (k.ups sema + 1) } first (s.up sema) := by
  have zero := (refines.holds.byte_zero live).mp zero
  obtain ⟨m', run, agrees, -, holds⟩ := refines.holds.semaUp_holds refines.inv live zero
  refine ⟨m', run, holds, ?_, ?_, ?_, refines.spot, refines.known, fun other fresh => ?_,
    refines.downs, ?_⟩
  · have inv := refines.inv.step (.up sema (refines.here.trans free) zero)
    rwa [Machine.Guards, agrees.idleThread]
  · rw [← refines.threads, Semaphores.up]
    cases s.waiters sema <;> rfl
  · rw [agrees.mainThread]
    exact refines.main
  · have different : other ≠ sema := fun equal => fresh (equal ▸ live)
    simp only [Semaphores.up, Function.update_of_ne different]
    exact refines.dormant other fresh
  · simp only [Semaphores.up, refines.ups]

/-- The timer, wherever the running thread has interrupts on. -/
theorem timer (refines : k.Refines first s) (free : k.here.sema = none) :
    ∃ m' threads, timerIntrHandler { k.machine with intr := .off } = .ok m' ∧
      (k.goto m' (.returns .on)).Refines first (s.withThreads threads) ∧
      (threads = s.threads ∨
        threads = (s.threads.enqueue s.threads.running).dispatch k.machine.idleThread) := by
  have off := refines.holds.setIntr .off
  obtain ⟨m', d', run, runs, which, keeps⟩ :=
    timerIntrHandler_runs off.runs refines.inv.sound rfl
  have agrees := keeps.agrees
  have agrees : k.machine.Agrees m' := ⟨agrees.image, agrees.mainThread, agrees.idleThread⟩
  have born : d'.born = s.threads.born := by
    rcases which with rfl | rfl <;> rfl
  refine ⟨m', _, run, refines.goto agrees (off.keeps refines.inv keeps runs born) ?_
    (born.trans refines.threads) free rfl, which⟩
  rw [Machine.Guards, agrees.idleThread]
  rcases which with rfl | rfl
  · exact refines.inv
  · exact refines.inv.step (.yield (refines.here.trans free))

/-- `thread_yield` -/
theorem yield (refines : k.Refines first s) (free : k.here.sema = none) :
    ∃ m', threadYield k.machine = .ok (k.machine.intr, m') ∧
      (k.goto m' (.returns k.machine.intr)).Refines first (s.withThreads
        ((s.threads.enqueue s.threads.running).dispatch k.machine.idleThread)) := by
  obtain ⟨m', run, runs, keeps⟩ := threadYield_runs refines.holds.runs refines.inv.sound
  refine ⟨m', run, refines.goto keeps.agrees
    (refines.holds.keeps refines.inv keeps runs rfl) ?_ refines.threads free rfl⟩
  rw [Machine.Guards, keeps.idleThread]
  exact refines.inv.step (.yield (refines.here.trans free))

/-- `thread_block` outside `sema_down`. -/
theorem block (refines : k.Refines first s) (free : k.here.sema = none) (reason : Asleep) :
    ∃ m', threadBlock k.machine reason.status = .ok (k.machine.intr, m') ∧
      k.machine.Agrees m' ∧ (k.goto m' (.returns k.machine.intr)).Refines first
        (s.withThreads ((s.threads.sleep reason).dispatch k.machine.idleThread)) := by
  obtain ⟨m', run, runs, keeps⟩ := threadBlock_runs refines.holds.runs refines.inv.sound reason
  have subset : ∀ thread ∈ k.machine.idleThread :: s.threads.ready,
      thread ∈ k.machine.idleThread :: s.threads.running :: s.threads.ready := by
    intro thread moved
    simp only [List.mem_cons] at moved ⊢
    tauto
  have keeps := keeps.mono subset
  refine ⟨m', run, keeps.agrees, refines.goto keeps.agrees
    (refines.holds.keeps refines.inv keeps runs rfl) ?_ refines.threads free rfl⟩
  rw [Machine.Guards, keeps.idleThread]
  exact refines.inv.step (.sleep reason (refines.here.trans free))

/-- The end of a call that gave up the processor. -/
theorem resume (refines : k.Refines first s) (free : k.here.sema = none)
    (oldStatus : IntrStatus) :
    (k.goto (setIntrStatus k.machine oldStatus).2 .outside).Refines first s := by
  rw [setIntrStatus_eq]
  have holds : ({ k.machine with intr := oldStatus } : Machine).Holds (s.withThreads s.threads)
      k.semas := refines.holds.setIntr oldStatus
  exact refines.goto (m := { k.machine with intr := oldStatus }) ⟨rfl, rfl, rfl⟩ holds refines.inv
    refines.threads free rfl

/-- What sleeps plainly sleeps at no semaphore. -/
theorem sleeps (refines : k.Refines first s) (sleeps : k.SleepsPlainly thread) :
    s.spot thread = none ∧ ∃ reason, s.threads.phase thread = .asleep reason := by
  obtain ⟨member, plain, reason, status⟩ := sleeps
  refine ⟨(refines.spot thread).trans plain, reason, ?_⟩
  rw [refines.holds.runs.status thread (refines.threads ▸ member)] at status
  exact statusIn_eq_asleep.mp (TaskStatus.code_injective status)

/-- `thread_unblock` for a thread that sleeps plainly. -/
theorem unblock (refines : k.Refines first s) (free : k.here.sema = none)
    (plain : k.SleepsPlainly thread) :
    ∃ m', threadUnblock k.machine thread = .ok m' ∧
      Kernel.Refines { k with machine := m' } first
        (s.withThreads (s.threads.wake thread)) := by
  obtain ⟨spot, reason, asleep⟩ := refines.sleeps plain
  obtain ⟨m', run, runs, keeps, -⟩ :=
    threadUnblock_runs refines.holds.runs refines.inv.sound.toQueued asleep
  have holds := refines.holds.moves keeps runs rfl (fun other moved => by
      rcases List.mem_cons.mp moved with rfl | ready
      · exact (refines.inv.sound.born other).mpr (by simp [asleep])
      · exact refines.holds.runs.queued other ready) fun sema waiter waits moved => by
    rcases List.mem_cons.mp moved with rfl | ready
    · rw [(refines.inv.waiting sema waiter waits).1] at spot
      cases spot
    · exact Machine.Holds.waiter_rests refines.inv waits (by simp [ready])
  refine ⟨m', run, holds, ?_, refines.threads, ?_, refines.spot, refines.known,
    refines.dormant, refines.downs, refines.ups⟩
  · rw [Machine.Guards, keeps.idleThread]
    exact refines.inv.step (.wake thread reason (refines.here.trans free) asleep spot)
  · rw [keeps.agrees.mainThread]
    exact refines.main

/-- `thread_start` on a fresh page. -/
theorem start (refines : k.Refines first s) (free : k.here.sema = none) (page : ThreadPage thread)
    (fresh : thread ∉ k.threads) (start : Start) (fits : NameFits start.name)
    (clear : ∀ sema ∈ k.semas, sema + 20 ≤ thread ∨ thread + 4096 ≤ sema) :
    ∃ m', threadStart k.machine thread start = .ok m' ∧
      Kernel.Refines { k with
        machine := m'
        threads := k.threads ++ [thread] } first
          (s.withThreads (s.threads.start thread)) := by
  have absent : s.threads.phase thread = .absent := by
    by_contra present
    exact fresh (refines.threads ▸ (refines.inv.sound.born thread).mpr present)
  have notMain : thread ≠ k.machine.mainThread := fun equal => fresh (equal ▸ refines.main)
  obtain ⟨mem, run, holds⟩ := refines.holds.start refines.inv page absent start fits notMain clear
  have inv : k.machine.Guards first (s.withThreads (s.threads.start thread)) :=
    refines.inv.step (.start thread (refines.here.trans free) absent)
  refine ⟨_, run, holds, inv, ?_, List.mem_append_left _ refines.main, refines.spot,
    fun other sema spot => (refines.known other sema spot).imp_left (List.mem_append_left _),
    refines.dormant, refines.downs, refines.ups⟩
  rw [← refines.threads]
  rfl

/-- Code of the threads' own. -/
theorem compute (refines : k.Refines first s) {mem : Bytes} (intr : IntrStatus)
    (agree : ∀ query, k.Reserved query → mem query = k.machine.mem query) :
    Kernel.Refines { k with
      machine := { k.machine with
        mem := mem
        intr := intr } } first s := by
  refine ⟨refines.holds.congr rfl rfl (fun query inside => agree query ?_)
    (fun query lower upper => agree query (.inr (.inl ⟨lower, upper⟩)))
    (fun thread member query lower upper => agree query (.inr (.inr (.inr
      ⟨thread, refines.threads ▸ member, .inr (.inl ⟨lower, upper⟩)⟩))))
    (fun sema live query lower upper => agree query (.inr (.inr (.inl
      ⟨sema, live, lower, upper⟩)))), refines.inv, refines.threads, refines.main, refines.spot,
    refines.known, refines.dormant, refines.downs, refines.ups⟩
  rcases inside with (inside | ⟨thread, ready, lower, upper⟩) | ⟨thread, member, inside⟩
  · exact .inl inside
  · exact .inr (.inr (.inr ⟨thread, refines.threads ▸ refines.holds.runs.queued thread ready,
      .inr (.inl ⟨lower, by omega⟩)⟩))
  · exact .inr (.inr (.inr ⟨thread, refines.threads ▸ member, inside.imp_right .inr⟩))

/-- `sema_init` -/
theorem init (refines : k.Refines first s) (fresh : sema ∉ k.semas)
    (placed : SemaPlaced k.machine.image k.threads sema)
    (apart : ∀ other ∈ k.semas, sema + 20 ≤ other ∨ other + 20 ≤ sema) {value : UInt8}
    (count : value.toNat = first sema) :
    Kernel.Refines { k with
      machine := semaInit k.machine sema value
      semas := sema :: k.semas } first s := by
  obtain ⟨empty, dormant⟩ := refines.dormant sema fresh
  refine ⟨refines.holds.init (refines.threads ▸ placed) apart (dormant.trans count.symm) empty,
    refines.inv, refines.threads, refines.main, refines.spot, fun thread other spot =>
      (refines.known thread other spot).imp_right (List.mem_cons_of_mem _), fun other fresh' =>
      refines.dormant other fun live => fresh' (List.mem_cons_of_mem _ live),
    refines.downs, refines.ups⟩

end Kernel.Refines

namespace Kernel

variable {k next : Kernel} {first : Nat → Nat}

/-- The main thread runs, the idle thread is ready, and all semaphores are still to be
initialised. -/
def booted (main page : Nat) (first : Nat → Nat) : Semaphores Nat Asleep Nat where
  threads := (Dispatcher.boot main).start page
  value := first
  waiters _ := []
  spot _ := none
  downs _ := 0
  ups _ := 0

/-- That is the state after `kthread_init`. -/
theorem Initial.refines (binary : ∀ sema, first sema ≤ 1) (initial : k.Initial) :
    ∃ main, k.machine.idleThread ≠ main ∧
      k.Refines first (booted main k.machine.idleThread first) := by
  obtain ⟨m, page, entry, idle, main, fresh, different, run, threads, semas, spot, downs, ups⟩ :=
    initial
  obtain ⟨mem, run', runs, all⟩ := kthreadInit_runs main fresh different entry idle
  have machine := Except.ok.inj (run.symm.trans run')
  have sound : ((Dispatcher.boot m.running : Dispatcher Nat Asleep).start page).Sound page :=
    ((Dispatcher.boot_sound m.running).start (Dispatcher.boot_of_ne different)).appoint
      (List.mem_append_right _ (List.mem_singleton.mpr rfl))
  refine ⟨m.running, ?_⟩
  rw [show k.machine.idleThread = page by rw [machine]]
  refine ⟨different, ⟨?_, ?_, ?_, ?_⟩, ?_, threads.symm, ?_, ?_, nofun,
    fun _ _ => ⟨rfl, rfl⟩, ?_, ?_⟩
  · rw [machine]
    exact runs
  · rw [machine]
    exact all
  · simp [semas]
  · simp [semas]
  · rw [Machine.Guards, machine]
    exact ⟨sound, binary, fun sema => by simp [booted, add_comm], nofun, nofun,
      fun _ => List.nodup_nil, rfl, fun _ _ filled => absurd rfl filled⟩
  · rw [machine, threads]
    exact List.mem_cons_self
  · intro thread
    rw [spot]
    rfl
  · funext sema
    exact (downs sema).symm
  · funext sema
    exact (ups sema).symm

/-- Every step refines steps of the abstract semaphores, and what sleeps at no semaphore
sleeps on unless it is unblocked; the idle thread is woken by `schedule` too. -/
theorem Refines.step_rests {s : Semaphores Nat Asleep Nat} (refines : k.Refines first s)
    (taken : Step first False k next) :
    ∃ s', next.Refines first s' ∧ ∀ thread reason, s.Rests thread reason →
      thread ≠ k.machine.idleThread →
      s'.Rests thread reason ∨ threadUnblock k.machine thread = .ok next.machine := by
  have free : ∀ {spot : Spot}, k.here = spot → spot.sema = none → k.here.sema = none :=
    fun here none => here ▸ none
  have tried : ∀ {s' : Semaphores Nat Asleep Nat} {sema thread : Nat} {reason : Asleep},
      s' = s.take sema ∨ s' = s.wait k.machine.idleThread .blocked sema →
      s.Rests thread reason → thread ≠ k.machine.idleThread → s'.Rests thread reason := by
    rintro s' sema thread reason (rfl | rfl) rests notIdle
    · exact rests.take refines.inv
    · exact rests.wait refines.inv notIdle
  cases taken with
  | init sema value here fresh placed apart count =>
      exact ⟨s, refines.init fresh placed apart count, fun _ _ rests _ => .inl rests⟩
  | down sema result here live notIdle run =>
      have looks : s.Looks sema := .inl (refines.here.trans (free here rfl))
      obtain ⟨result', s', run', refined, which⟩ :=
        refines.tries live looks (notIdle.resolve_right id) k.machine.intr
      rw [intrDisable_eq] at run
      cases run.symm.trans run'
      exact ⟨s', refined, fun _ _ rests notIdle => .inl (tried which rests notIdle)⟩
  | again sema oldStatus result here run =>
      have spot : s.spot s.threads.running = some sema := by
        rw [refines.here, here]
        rfl
      obtain ⟨result', s', run', refined, which⟩ :=
        refines.tries (refines.known _ sema spot).2 (.inr spot) (refines.notIdle spot) oldStatus
      rw [setIntrStatus_eq] at run
      cases run.symm.trans run'
      exact ⟨s', refined, fun _ _ rests notIdle => .inl (tried which rests notIdle)⟩
  | up sema machine here live zero run =>
      obtain ⟨m', run', refined⟩ := refines.up live (free here rfl) zero
      cases run.symm.trans run'
      exact ⟨_, refined, fun _ _ rests _ => .inl (rests.up refines.inv)⟩
  | timer machine here on run =>
      obtain ⟨m', threads, run', refined, which⟩ := refines.timer (free here rfl)
      cases run.symm.trans run'
      refine ⟨_, refined, fun _ _ rests notIdle => .inl ?_⟩
      obtain rfl | rfl := which
      · exact rests
      · exact rests.yield refines.inv notIdle
  | yield oldStatus machine here run =>
      obtain ⟨m', run', refined⟩ := refines.yield (free here rfl)
      cases run.symm.trans run'
      exact ⟨_, refined, fun _ _ rests notIdle => .inl (rests.yield refines.inv notIdle)⟩
  | block reason oldStatus machine here run =>
      obtain ⟨m', run', -, refined⟩ := refines.block (free here rfl) reason
      cases run.symm.trans run'
      exact ⟨_, refined, fun _ _ rests notIdle => .inl (rests.sleep refines.inv notIdle reason)⟩
  | resume oldStatus here =>
      exact ⟨s, refines.resume (free here rfl) oldStatus, fun _ _ rests _ => .inl rests⟩
  | unblock woken machine here plain run =>
      obtain ⟨m', run', refined⟩ := refines.unblock (free here rfl) plain
      cases run.symm.trans run'
      refine ⟨_, refined, fun thread _ rests _ => ?_⟩
      by_cases same : thread = woken
      · exact .inr (same ▸ run)
      · exact .inl (rests.wake same)
  | start started start machine here page fresh fits clear run =>
      obtain ⟨m', run', refined⟩ := refines.start (free here rfl) page fresh start fits clear
      cases run.symm.trans run'
      have absent : s.threads.phase started = .absent := by
        by_contra present
        exact fresh (refines.threads ▸ (refines.inv.sound.born started).mpr present)
      exact ⟨_, refined, fun _ _ rests _ => .inl (rests.start absent)⟩
  | compute mem intr here agree =>
      exact ⟨s, refines.compute intr agree, fun _ _ rests _ => .inl rests⟩

theorem Refines.step {s : Semaphores Nat Asleep Nat} (refines : k.Refines first s)
    (taken : Step first False k next) : ∃ s, next.Refines first s := by
  obtain ⟨s', refined, -⟩ := refines.step_rests taken
  exact ⟨s', refined⟩

/-- Every reachable kernel refines the abstract semaphores. -/
theorem refines_of_reachable (binary : ∀ sema, first sema ≤ 1)
    (reachable : (semaphoreSystem first False).Reachable k) : ∃ s, k.Refines first s := by
  induction reachable with
  | init initial =>
      obtain ⟨main, -, refines⟩ := initial.refines binary
      exact ⟨_, refines⟩
  | step _ taken ih =>
      obtain ⟨s, refines⟩ := ih
      exact refines.step taken

namespace Refines

variable {s : Semaphores Nat Asleep Nat} {sema thread : Nat}

/-- The ready list holds the ready threads. -/
theorem ready_iff (refines : k.Refines first s) (thread : Nat) :
    k.Ready thread ↔ s.threads.phase thread = .ready := by
  rw [Kernel.Ready, refines.holds.runs.find, ← refines.inv.sound.ready]
  simp

/-- What a kernel that refines the abstract semaphores keeps. -/
theorem binary (refines : k.Refines first s) (live : sema ∈ k.semas) :
    k.Binary (first sema) sema (s.waiters sema) := by
  have at' := refines.holds.semas sema live
  have inv := refines.inv
  have count := at'.count
  have status : ∀ thread ∈ k.threads, statusOf k.machine.mem thread =
      (statusIn (s.threads.phase thread)).code := fun thread member =>
    refines.holds.runs.status thread (refines.threads ▸ member)
  have woken : ∀ thread, s.spot thread = some sema →
      s.threads.phase thread = .ready ∨ thread = s.threads.running → k.Woken sema thread := by
    intro thread spot phase
    refine ⟨(refines.spot thread).symm.trans spot, phase.imp (fun ready => ?_) fun running => ?_⟩
    · refine ⟨?_, (refines.ready_iff thread).mpr ready⟩
      rw [status thread (refines.known thread sema spot).1, ready]
      rfl
    · rw [running, refines.running]
  refine ⟨by rw [count]; exact inv.binary sema, ?_, at'.list, inv.nodup sema,
    fun thread waits => ?_, fun thread spot absent => ?_, fun one filled => ?_⟩
  · rw [count, ← refines.downs, ← refines.ups]
    exact inv.count sema
  · obtain ⟨spot, asleep⟩ := inv.waiting sema thread waits
    refine ⟨(refines.spot thread).symm.trans spot, ?_, fun ready => ?_⟩
    · rw [status thread (refines.known thread sema spot).1, asleep]
      rfl
    · rw [refines.ready_iff, asleep] at ready
      cases ready
  · rw [← refines.spot] at spot
    have member := (refines.known thread sema spot).1
    refine woken thread spot ?_
    cases phase : s.threads.phase thread with
    | absent =>
        exact absurd phase ((inv.sound.born thread).mp (refines.threads ▸ member))
    | running => exact .inr ((inv.sound.running thread).mp phase)
    | ready => exact .inl rfl
    | asleep reason => exact absurd (inv.asleep sema thread reason spot phase) absent
  · rw [count] at one
    obtain ⟨thread, spot, phase⟩ := inv.woken sema one filled
    exact ⟨thread, woken thread spot phase⟩

/-- Every call that may be made returns. -/
theorem callsReturn (refines : k.Refines first s) : k.CallsReturn False := by
  have free : ∀ {spot : Spot}, k.here = spot → spot.sema = none → k.here.sema = none :=
    fun here none => here ▸ none
  refine ⟨fun sema live here notIdle => ?_, fun sema oldStatus here => ?_,
    fun sema live here zero => ?_, fun thread here plain => ?_, fun here => ?_,
    fun reason here => ?_, fun here => ?_⟩
  · obtain ⟨result, -, run, -⟩ := refines.tries live (.inl (refines.here.trans (free here rfl)))
      (notIdle.resolve_right id) .on
    rw [intrDisable_eq]
    exact ⟨result, run⟩
  · have spot : s.spot s.threads.running = some sema := by
      rw [refines.here, here]
      rfl
    obtain ⟨result, -, run, -⟩ := refines.tries (refines.known _ sema spot).2 (.inr spot)
      (refines.notIdle spot) .on
    rw [setIntrStatus_eq]
    exact ⟨result, run⟩
  · obtain ⟨m', run, -⟩ := refines.up live (free here rfl) zero
    exact ⟨m', run⟩
  · obtain ⟨m', run, -⟩ := refines.unblock (free here rfl) plain
    exact ⟨m', run⟩
  · obtain ⟨m', run, -⟩ := refines.yield (free here rfl)
    exact ⟨_, run⟩
  · obtain ⟨m', run, -⟩ := refines.block (free here rfl) reason
    exact ⟨_, run⟩
  · obtain ⟨m', -, run, -⟩ := refines.timer (free here rfl)
    exact ⟨_, run⟩

end Refines

end Kernel

/-- Semaphores that start with 0 or 1 are binary semaphores in every run in which
`sema_down` is not called on the stack of the idle thread. -/
theorem binarySemaphores {first : Nat → Nat} (binary : ∀ sema, first sema ≤ 1) {k : Kernel}
    (reachable : (semaphoreSystem first False).Reachable k) :
    (∀ sema ∈ k.semas, ∃ waiters, k.Binary (first sema) sema waiters) ∧ k.CallsReturn False := by
  obtain ⟨s, refines⟩ := Kernel.refines_of_reachable binary reachable
  exact ⟨fun sema live => ⟨s.waiters sema, refines.binary live⟩, refines.callsReturn⟩

/-- A machine on which the idle thread is started at `0xc0100000`. -/
theorem Kernel.initial_booted :
    ∃ k : Kernel, k.Initial ∧ k.machine.image = Machine.blank.image ∧
      k.threads = [Machine.blank.running, 0xc0100000] := by
  have main : ThreadPage Machine.blank.running := ⟨by decide, by decide, by decide⟩
  have page : ThreadPage 0xc0100000 := ⟨by decide, by decide, by decide⟩
  obtain ⟨mem, run, -, -⟩ := kthreadInit_runs main page (by decide) 0 0
  let k : Kernel :=
    { machine := { Machine.blank with
        mem := mem
        mainThread := Machine.blank.running
        idleThread := 0xc0100000 }
      threads := [Machine.blank.running, 0xc0100000]
      semas := []
      spot := fun _ => .outside
      downs := fun _ => 0
      ups := fun _ => 0 }
  exact ⟨k, ⟨Machine.blank, 0xc0100000, 0, 0, main, page, by decide, run, rfl, rfl,
    fun _ => rfl, fun _ => rfl, fun _ => rfl⟩, rfl, rfl⟩

/-- The main thread initialises a semaphore to 0. -/
theorem Kernel.exists_first_sema (idleWaits : Prop) :
    ∃ k main, (semaphoreSystem (fun _ => 0) idleWaits).Reachable k ∧
      k.Refines (fun _ => 0) (booted main k.machine.idleThread (fun _ => 0)) ∧
      0xc0020000 ∈ k.semas ∧ k.machine.idleThread ≠ main ∧
      (∀ thread, k.spot thread = .outside) ∧ k.ups 0xc0020000 = 0 := by
  obtain ⟨k, initial, image, threads⟩ := Kernel.initial_booted
  have placed : SemaPlaced k.machine.image k.threads 0xc0020000 := by
    rw [image, threads]
    refine ⟨by decide, by decide, by decide, fun thread member => ?_⟩
    rcases List.mem_pair.mp member with rfl | rfl <;> decide
  obtain ⟨outside, none, ups⟩ : (∀ thread, k.spot thread = .outside) ∧ k.semas = [] ∧
      ∀ sema, k.ups sema = 0 := by
    obtain ⟨-, -, -, -, -, -, -, -, -, semas, spot, -, ups⟩ := initial
    exact ⟨spot, semas, ups⟩
  obtain ⟨main, different, refines⟩ := initial.refines fun _ => Nat.zero_le 1
  have fresh : 0xc0020000 ∉ k.semas := by simp [none]
  have apart : ∀ other ∈ k.semas, 0xc0020000 + 20 ≤ other ∨ other + 20 ≤ 0xc0020000 := by
    simp [none]
  have count : (0 : UInt8).toNat = (fun _ : Nat => 0) 0xc0020000 := rfl
  exact ⟨_, main, .step (.init initial) (.init _ 0 (outside _) fresh placed apart count),
    refines.init fresh placed apart count, List.mem_cons_self, different, outside, ups _⟩

/-- The main thread waits at a semaphore, and the idle thread wakes it with `sema_up`. -/
theorem binarySemaphores_woken : ∃ (k : Kernel) (main sema : Nat) (waiters : List Nat),
    k.ups sema = 1 ∧ (k.spot main).sema = some sema ∧ k.Binary 0 sema waiters ∧
      k.CallsReturn False := by
  obtain ⟨k, main, reachable, refines, live, different, outside, ups⟩ :=
    Kernel.exists_first_sema False
  have notIdle : k.machine.running ≠ k.machine.idleThread := by
    rw [refines.running]
    exact different.symm
  -- the main thread waits, and the idle thread runs
  obtain ⟨m, run, waits⟩ :=
    refines.tries_wait live (.inl rfl) notIdle rfl k.machine.intr
  have reachable₁ := reachable.step (.down _ (false, m) (outside _) live (.inl notIdle)
    (by rw [intrDisable_eq]; exact run))
  have idle : m.running = k.machine.idleThread := waits.running
  have here : (k.afterTry 0xc0020000 k.machine.intr (false, m)).here = .outside := by
    have away : m.running ≠ k.machine.running := idle ▸ notIdle.symm
    exact (Function.update_of_ne away ..).trans (outside _)
  -- which goes up
  have zero := (waits.holds.byte_zero live).mpr rfl
  obtain ⟨m', run', woken⟩ := waits.up live (here ▸ rfl) zero
  have reachable₂ := reachable₁.step (.up _ m' here live zero run')
  obtain ⟨binary, returns⟩ := binarySemaphores (fun _ => Nat.zero_le 1) reachable₂
  obtain ⟨waiters, binary⟩ := binary _ live
  refine ⟨_, k.machine.running, _, waiters, ?_, ?_, binary, returns⟩
  · have once : Function.update k.ups 0xc0020000 (k.ups 0xc0020000 + 1) 0xc0020000 = 1 := by
      rw [Function.update_self, ups]
    exact once
  · have spot : (k.afterTry 0xc0020000 k.machine.intr (false, m)).spot k.machine.running =
        .looks 0xc0020000 k.machine.intr := Function.update_self ..
    exact congrArg Spot.sema spot

/-- When no other thread is ready, `sema_down` on the stack of the idle thread has it
woken out of the list of waiters: it runs, and the list still begins with it. -/
theorem Kernel.Refines.idle_waits {k : Kernel} {s : Semaphores Nat Asleep Nat}
    {first : Nat → Nat} {sema : Nat} (refines : k.Refines first s) (live : sema ∈ k.semas)
    (zero : s.value sema = 0) (empty : s.waiters sema = [])
    (idle : s.threads.running = k.machine.idleThread) (alone : s.threads.ready = []) :
    ∃ m', semaTry { k.machine with intr := .off } sema = .ok (false, m') ∧
      ∀ oldStatus value waiters,
        ¬(k.afterTry sema oldStatus (false, m')).Binary value sema waiters := by
  have off := refines.holds.setIntr .off
  have hung := off.hang refines.inv live
  obtain ⟨m', run, runs, keeps⟩ := off.semaTry_zero refines.inv live zero
  have at' := hung.semas sema live
  have placed := at'.placed
  have image := m'.image.ready_placed
  have born : s.threads.running ∈ s.threads.born := idle ▸ refines.inv.sound.idle
  have page := off.runs.pages _ born
  -- the dispatcher has come back to the idle thread
  have phase : ((s.threads.sleep .blocked).dispatch k.machine.idleThread).phase
      s.threads.running = .running := by
    rw [Dispatcher.dispatch_phase, Dispatcher.next,
      show (s.threads.sleep Asleep.blocked).ready = [] from alone, List.headD_nil, idle,
      Dispatcher.setPhase_self]
  have status : statusOf m'.mem s.threads.running = TaskStatus.running.code := by
    rw [runs.status _ born, phase]
    rfl
  -- the header of the list has not changed since
  have header : nextOf m'.mem (waitersOf sema) = generalTag s.threads.running := by
    have list := at'.list
    simp only [Function.update_self, empty, List.nil_append, List.map_singleton] at list
    rw [← list.next_cons]
    refine Bytes.read32_congr fun query lower upper => keeps.bytes query ?_
    have fits := placed.fits
    have ready := placed.ready
    simp only [waitersOf] at lower upper
    refine ⟨by omega, fun other isBorn => ?_, fun other isBorn => ?_, fun other moved => ?_⟩
    · have away := placed.threads other isBorn
      omega
    · have away := placed.threads other isBorn
      omega
    · rw [alone, List.mem_singleton] at moved
      have away := placed.threads other (moved ▸ idle ▸ born)
      omega
  refine ⟨m', run, fun oldStatus value waiters binary => ?_⟩
  have waiting : ListAt m'.mem (waitersOf sema) (waiters.map generalTag) := binary.waiting
  cases waiters with
  | nil =>
      have next := waiting.listEmpty_iff.mpr rfl
      rw [listEmpty, header] at next
      have away := placed.threads _ born
      simp only [generalTag, tailer, waitersOf] at next
      omega
  | cons head rest =>
      have next := waiting.next_cons
      rw [header] at next
      obtain rfl := generalTag_injective next
      have blocked := (binary.blocked _ List.mem_cons_self).2.1
      rw [show (k.afterTry sema oldStatus (false, m')).machine.mem = m'.mem from rfl, status]
        at blocked
      cases blocked

/-- The main thread initialises a semaphore to 0 and blocks; then `sema_down` is called on
the stack of the idle thread. -/
theorem not_binarySemaphores_idle :
    ¬∀ first : Nat → Nat, (∀ sema, first sema ≤ 1) →
      ∀ k, (semaphoreSystem first True).Reachable k →
        (∀ sema ∈ k.semas, ∃ waiters, k.Binary (first sema) sema waiters) ∧
          k.CallsReturn True := by
  intro correct
  obtain ⟨k, main, reachable, refines, live, different, outside, -⟩ :=
    Kernel.exists_first_sema True
  -- the main thread blocks, and the idle thread runs
  have here : k.here = .outside := outside _
  obtain ⟨m, run, agrees, refines₁⟩ := refines.block (here ▸ rfl) .blocked
  have reachable₁ := reachable.step (.block .blocked _ _ here run)
  have running : m.running = k.machine.idleThread := refines₁.running
  have here₁ : (k.goto m (.returns k.machine.intr)).here = .outside := by
    have away : m.running ≠ k.machine.running := by
      rw [running, refines.running]
      exact different
    exact (Function.update_of_ne away ..).trans (outside _)
  -- the value is still 0, and no other thread is ready
  obtain ⟨m', run', broken⟩ := refines₁.idle_waits live rfl rfl agrees.idleThread.symm rfl
  have reachable₂ := reachable₁.step (.down _ (false, m') here₁ live (.inr trivial)
    (by rw [intrDisable_eq]; exact run'))
  obtain ⟨holds, -⟩ := correct (fun _ => 0) (fun _ => Nat.zero_le 1) _ reachable₂
  obtain ⟨waiters, binary⟩ := holds _ live
  exact broken _ 0 waiters binary

end Pumelo
