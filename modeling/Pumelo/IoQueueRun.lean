import Pumelo.IoQueue
import Pumelo.KernelSteps

/-!
# A producer and a consumer

Runs of the kernel in which one thread calls `ioqueue_putchar` and another one
`ioqueue_getchar` on the same queue.  A step is a call up to where it returns or blocks;
a thread that has blocked goes on behind `thread_block`, releases the lock, and only
then looks at the queue again, since the timer may come in between.
-/

namespace Pumelo

open Foundation

/-- The two operations. -/
inductive QueueCall where
  | get
  | put (c : UInt8)
  deriving DecidableEq, Repr

/-- Where a call that has blocked is: behind `thread_block`, or behind `lock_release`. -/
inductive Stage where
  | waits
  | checks
  deriving DecidableEq, Repr

/-- A kernel, a queue, the calls that have blocked, and what has been returned and
stored. -/
structure QueueRun where
  kernel : Kernel
  queue : IoQueue
  pending : Nat → Option (QueueCall × Stage)
  got : List UInt8
  put : List UInt8

namespace QueueRun

/-- The call of the running thread. -/
def call (s : QueueRun) : Option (QueueCall × Stage) := s.pending s.kernel.machine.running

/-- The call of the running thread changes. -/
def setCall (s : QueueRun) (call : Option (QueueCall × Stage)) :
    Nat → Option (QueueCall × Stage) :=
  Function.update s.pending s.kernel.machine.running call

/-- What `ioqueue_getchar` leaves. -/
def afterGet (s : QueueRun) : Called UInt8 × Machine × IoQueue → QueueRun
  | (.returns c, m, queue) => { s with
      kernel := s.kernel.goto m .outside
      queue := queue
      pending := s.setCall none
      got := s.got ++ [c] }
  | (.waits oldStatus, m, queue) => { s with
      kernel := s.kernel.goto m (.returns oldStatus)
      queue := queue
      pending := s.setCall (some (.get, .waits)) }

/-- What `ioqueue_putchar` leaves. -/
def afterPut (s : QueueRun) (c : UInt8) : Called Unit × Machine × IoQueue → QueueRun
  | (.returns (), m, queue) => { s with
      kernel := s.kernel.goto m .outside
      queue := queue
      pending := s.setCall none
      put := s.put ++ [c] }
  | (.waits oldStatus, m, queue) => { s with
      kernel := s.kernel.goto m (.returns oldStatus)
      queue := queue
      pending := s.setCall (some (.put c, .waits)) }

/-- The steps, where `consumer` and `producer` are the two threads.  Nobody else unblocks
a thread that waits in one of the calls. -/
inductive Step (first : Nat → Nat) (consumer producer : Nat) : QueueRun → QueueRun → Prop where
  | getchar {s : QueueRun} {result : Called UInt8 × Machine × IoQueue} : s.call = none →
      s.kernel.machine.running = consumer → s.kernel.here = .outside →
      ioqueueGetchar s.kernel.machine s.queue = .ok result →
      Step first consumer producer s (s.afterGet result)
  | putchar {s : QueueRun} (c : UInt8) {result : Called Unit × Machine × IoQueue} :
      s.call = none → s.kernel.machine.running = producer → s.kernel.here = .outside →
      ioqueuePutchar s.kernel.machine s.queue c = .ok result →
      Step first consumer producer s (s.afterPut c result)
  | release {s : QueueRun} {call : QueueCall} {oldStatus : IntrStatus} {lock : Lock}
      {m : Machine} : s.call = some (call, .waits) → s.kernel.here = .returns oldStatus →
      lockRelease (setIntrStatus s.kernel.machine oldStatus).2 s.queue.lock = .ok (lock, m) →
      Step first consumer producer s { s with
        kernel := s.kernel.goto m .outside
        queue := { s.queue with lock := lock }
        pending := s.setCall (some (call, .checks)) }
  | timer {s : QueueRun} {call : QueueCall} {m : Machine} : s.call = some (call, .checks) →
      s.kernel.here = .outside → s.kernel.machine.intr = .on →
      timerIntrHandler { s.kernel.machine with intr := .off } = .ok m →
      Step first consumer producer s { s with kernel := s.kernel.goto m (.returns .on) }
  | resume {s : QueueRun} {call : QueueCall} {oldStatus : IntrStatus} :
      s.call = some (call, .checks) → s.kernel.here = .returns oldStatus →
      Step first consumer producer s { s with
        kernel := s.kernel.goto (setIntrStatus s.kernel.machine oldStatus).2 .outside }
  | getAgain {s : QueueRun} {result : Called UInt8 × Machine × IoQueue} :
      s.call = some (.get, .checks) → s.kernel.here = .outside →
      getLoop s.kernel.machine s.queue = .ok result →
      Step first consumer producer s (s.afterGet result)
  | putAgain {s : QueueRun} {c : UInt8} {result : Called Unit × Machine × IoQueue} :
      s.call = some (.put c, .checks) → s.kernel.here = .outside →
      putLoop s.kernel.machine s.queue c = .ok result →
      Step first consumer producer s (s.afterPut c result)
  | other {s : QueueRun} {next : Kernel} : s.call = none →
      Kernel.Step first False s.kernel next →
      (∀ thread, s.pending thread ≠ none →
        threadUnblock s.kernel.machine thread ≠ .ok next.machine) →
      Step first consumer producer s { s with kernel := next }

/-- Any kernel with an empty queue, and no call so far. -/
def Initial (first : Nat → Nat) (consumer producer : Nat) (s : QueueRun) : Prop :=
  (semaphoreSystem first False).Reachable s.kernel ∧ consumer ≠ producer ∧
    consumer ≠ s.kernel.machine.idleThread ∧ producer ≠ s.kernel.machine.idleThread ∧
    s.queue = ioqueueInit s.queue ∧ (∀ thread, s.pending thread = none) ∧ s.got = [] ∧ s.put = []

end QueueRun

/-- A producer and a consumer over semaphores that are initialised to `first`. -/
def queueSystem (first : Nat → Nat) (consumer producer : Nat) : System QueueRun where
  init := QueueRun.Initial first consumer producer
  step := QueueRun.Step first consumer producer

section

variable {m m' : Machine} {ioq ioq' : IoQueue}

/-- The body of a loop: the lock is taken, and the thread waits. -/
structure Waits (m m' : Machine) (waiter : Nat) (lock lock' : Lock) (oldStatus : IntrStatus) :
    Prop where
  free : waiter = 0
  blocks : ∃ locked, lockAcquire m lock = .ok (lock', locked) ∧
    threadBlock locked .blocked = .ok (oldStatus, m')

/-- Behind a loop: the other side is woken if it waits. -/
def Wakes (m m' : Machine) (waiter : Nat) : Prop :=
  waiter = 0 ∧ m' = m ∨ waiter ≠ 0 ∧ threadUnblock m waiter = .ok m'

/-- Nobody else takes a lock that is held. -/
theorem lockAcquire_taken {holder : Nat} (other : holder ≠ m.running) :
    lockAcquire m (Lock.heldBy holder) = .error (.panic "acquire") := by
  have other : (Lock.heldBy holder).holder ≠ m.runningThread := other
  simp only [lockAcquire, if_pos other]
  rfl

theorem ioqueueWait_eq_ok {waiter waiter' : Nat} {oldStatus : IntrStatus}
    (run : ioqueueWait m waiter = .ok (waiter', oldStatus, m')) :
    waiter = 0 ∧ threadBlock m .blocked = .ok (oldStatus, m') ∧ waiter' = m.running := by
  simp only [ioqueueWait, bind_eq_ok] at run
  obtain ⟨_, free, ⟨status, next⟩, blocked, run⟩ := run
  cases run
  exact ⟨assert_eq_ok.mp free, blocked, rfl⟩

theorem ioqueueWakeup_eq_ok {waiter waiter' : Nat}
    (run : ioqueueWakeup m waiter = .ok (waiter', m')) :
    waiter' = 0 ∧ threadUnblock m waiter = .ok m' := by
  simp only [ioqueueWakeup, bind_eq_ok] at run
  obtain ⟨_, -, next, woken, run⟩ := run
  cases run
  exact ⟨rfl, woken⟩

/-- The loop of `ioqueue_getchar` waits in an empty queue, and takes a character out of
any other one. -/
theorem getLoop_eq_ok {called : Called UInt8}
    (run : getLoop m ioq = .ok (called, m', ioq')) :
    m.intr = .off ∧
      ((∃ lock oldStatus, ioq.head = ioq.tail ∧ Waits m m' ioq.consumer ioq.lock lock oldStatus ∧
          called = .waits oldStatus ∧ ioq' = { ioq with lock := lock, consumer := m.running }) ∨
        ioq.head ≠ ioq.tail ∧ Wakes m m' ioq.producer ∧
          called = .returns (ioq.buf ioq.tail.toNat) ∧
          ioq' = { ioq with tail := nextPos ioq.tail, producer := 0 }) := by
  simp only [getLoop, ioqueueEmpty, bind_eq_ok] at run
  obtain ⟨empty, ⟨_, off, emptyEq⟩, run⟩ := run
  refine ⟨assert_eq_ok.mp off, ?_⟩
  cases emptyEq
  split at run
  · next empty =>
      simp only [bind_eq_ok] at run
      obtain ⟨⟨lock, locked⟩, acquired, ⟨consumer, oldStatus, next⟩, waited, run⟩ := run
      obtain ⟨free, blocked, rfl⟩ := ioqueueWait_eq_ok waited
      have running : locked.running = m.running := by rw [lockAcquire_machine acquired]
      cases run
      exact .inl ⟨lock, oldStatus, of_decide_eq_true empty, ⟨free, locked, acquired, blocked⟩, rfl,
        by rw [running]⟩
  · next filled =>
      simp only [bind_eq_ok] at run
      obtain ⟨-, -, run⟩ := run
      refine .inr ⟨fun empty => filled (decide_eq_true empty), ?_⟩
      split at run
      · next waiter =>
          simp only [bind_eq_ok] at run
          obtain ⟨⟨producer, next⟩, woken, run⟩ := run
          obtain ⟨rfl, unblocked⟩ := ioqueueWakeup_eq_ok woken
          cases run
          exact ⟨.inr ⟨waiter, unblocked⟩, rfl, rfl⟩
      · next none' =>
          cases run
          have none' : ioq.producer = 0 := not_not.mp none'
          exact ⟨.inl ⟨none', rfl⟩, rfl, by rw [← none']⟩

/-- The loop of `ioqueue_putchar` waits in a full queue, and stores the character in any
other one. -/
theorem putLoop_eq_ok {c : UInt8} {called : Called Unit}
    (run : putLoop m ioq c = .ok (called, m', ioq')) :
    m.intr = .off ∧
      ((∃ lock oldStatus, nextPos ioq.head = ioq.tail ∧
          Waits m m' ioq.producer ioq.lock lock oldStatus ∧
          called = .waits oldStatus ∧ ioq' = { ioq with lock := lock, producer := m.running }) ∨
        nextPos ioq.head ≠ ioq.tail ∧ Wakes m m' ioq.consumer ∧ called = .returns () ∧
          ioq' = { ioq with
            buf := Function.update ioq.buf ioq.head.toNat c
            head := nextPos ioq.head
            consumer := 0 }) := by
  simp only [putLoop, ioqueueFull, bind_eq_ok] at run
  obtain ⟨full, ⟨_, off, fullEq⟩, run⟩ := run
  refine ⟨assert_eq_ok.mp off, ?_⟩
  cases fullEq
  split at run
  · next full =>
      simp only [bind_eq_ok] at run
      obtain ⟨⟨lock, locked⟩, acquired, ⟨producer, oldStatus, next⟩, waited, run⟩ := run
      obtain ⟨free, blocked, rfl⟩ := ioqueueWait_eq_ok waited
      have running : locked.running = m.running := by rw [lockAcquire_machine acquired]
      cases run
      exact .inl ⟨lock, oldStatus, of_decide_eq_true full, ⟨free, locked, acquired, blocked⟩, rfl,
        by rw [running]⟩
  · next room =>
      simp only [bind_eq_ok] at run
      obtain ⟨-, -, run⟩ := run
      refine .inr ⟨fun full => room (decide_eq_true full), ?_⟩
      split at run
      · next waiter =>
          simp only [bind_eq_ok] at run
          obtain ⟨⟨consumer, next⟩, woken, run⟩ := run
          obtain ⟨rfl, unblocked⟩ := ioqueueWakeup_eq_ok woken
          cases run
          exact ⟨.inr ⟨waiter, unblocked⟩, rfl, rfl⟩
      · next none' =>
          cases run
          have none' : ioq.consumer = 0 := not_not.mp none'
          exact ⟨.inl ⟨none', rfl⟩, rfl, by rw [← none']⟩

end

/-! ## The invariant -/

/-- The field that a call that blocks stores its thread in. -/
def QueueCall.record (ioq : IoQueue) (thread : Nat) : QueueCall → IoQueue
  | get => { ioq with consumer := thread }
  | put _ => { ioq with producer := thread }

namespace QueueRun

/-- The thread that makes a call. -/
def side (consumer producer : Nat) : QueueCall → Nat
  | .get => consumer
  | .put _ => producer

/-- A thread that the queue keeps in order to wake it. -/
def Recorded (s : QueueRun) (thread : Nat) : Prop :=
  thread ≠ 0 ∧ (thread = s.queue.consumer ∨ thread = s.queue.producer)

/-- Where a call that has blocked goes on: with interrupts off behind `thread_block`, and
with interrupts on behind `lock_release`. -/
def Stage.At (s : QueueRun) (thread : Nat) : Stage → Prop
  | .waits => s.kernel.spot thread = .returns .off
  | .checks => s.kernel.spot thread = .returns .on ∨
      thread = s.kernel.machine.running ∧ s.kernel.here = .outside ∧ s.kernel.machine.intr = .on

/-- The lock is free, or held by the one thread that waits. -/
def LockKept (s : QueueRun) : Prop :=
  (s.queue.lock = lockInit ∧ ∀ thread call, s.pending thread ≠ some (call, .waits)) ∨
    ∃ holder, s.queue.lock = Lock.heldBy holder ∧ s.pending holder ≠ none ∧
      ∀ thread call, s.pending thread = some (call, .waits) → thread = holder

/-- What every run keeps. -/
structure Inv (first : Nat → Nat) (consumer producer : Nat) (s : QueueRun) : Prop where
  different : consumer ≠ producer
  idle : consumer ≠ s.kernel.machine.idleThread ∧ producer ≠ s.kernel.machine.idleThread
  kernel : ∃ semas, s.kernel.Refines first semas ∧
    ∀ thread, s.Recorded thread → semas.Rests thread .blocked
  getter : s.queue.consumer ≠ 0 → s.queue.consumer = consumer ∧ s.pending consumer ≠ none
  putter : s.queue.producer ≠ 0 → s.queue.producer = producer ∧ s.pending producer ≠ none
  owner : ∀ thread call stage, s.pending thread = some (call, stage) →
    thread = side consumer producer call
  stages : ∀ thread call stage, s.pending thread = some (call, stage) → Stage.At s thread stage
  lock : s.LockKept
  range : s.queue.InRange
  fifo : s.got ++ s.queue.contents = s.put

variable {s : QueueRun} {first : Nat → Nat} {consumer producer : Nat}

theorem setCall_apply (s : QueueRun) (call : Option (QueueCall × Stage)) (thread : Nat) :
    s.setCall call thread =
      if thread = s.kernel.machine.running then call else s.pending thread :=
  Function.update_apply ..

/-- Who is in a call stays in one. -/
theorem setCall_ne_none {call : QueueCall × Stage} {thread : Nat}
    (pending : s.pending thread ≠ none) : s.setCall (some call) thread ≠ none := by
  rw [setCall_apply]
  split
  · exact nofun
  · exact pending

theorem Initial.inv (binary : ∀ sema, first sema ≤ 1)
    (initial : s.Initial first consumer producer) :
    s.Inv first consumer producer := by
  obtain ⟨kernel, different, notIdle, notIdle', queue, none, got, put⟩ := initial
  obtain ⟨semas, refines⟩ := Kernel.refines_of_reachable binary kernel
  have consumerZero : s.queue.consumer = 0 := by rw [queue]; rfl
  have producerZero : s.queue.producer = 0 := by rw [queue]; rfl
  refine ⟨different, ⟨notIdle, notIdle'⟩, ⟨semas, refines, fun thread recorded => ?_⟩,
    fun some => absurd consumerZero some, fun some => absurd producerZero some,
    fun thread call stage pending => ?_, fun thread call stage pending => ?_,
    .inl ⟨?_, fun thread call => ?_⟩, ?_, ?_⟩
  · obtain ⟨some, equal⟩ := recorded
    rw [consumerZero, producerZero, or_self] at equal
    exact absurd equal some
  · rw [none] at pending
    cases pending
  · rw [none] at pending
    cases pending
  · rw [queue]
    rfl
  · rw [none]
    exact nofun
  · rw [queue]
    exact ⟨⟨le_refl 0, by simp [ioqueueInit]⟩, ⟨le_refl 0, by simp [ioqueueInit]⟩⟩
  · rw [got, put, queue]
    rfl

namespace Inv

/-- A thread that the queue keeps is one of the two. -/
theorem ne_idle (inv : s.Inv first consumer producer) {thread : Nat}
    (recorded : s.Recorded thread) :
    thread ≠ s.kernel.machine.idleThread := by
  obtain ⟨some, rfl | rfl⟩ := recorded
  · rw [(inv.getter some).1]
    exact inv.idle.1
  · rw [(inv.putter some).1]
    exact inv.idle.2

/-- A thread that does not run stays at its stage. -/
theorem stage_of_ne {t : QueueRun} {thread : Nat} {stage : Stage}
    (here : Stage.At s thread stage) (other : thread ≠ s.kernel.machine.running)
    (spot : t.kernel.spot thread = s.kernel.spot thread) : Stage.At t thread stage := by
  cases stage with
  | waits => exact spot.trans here
  | checks => exact .inl (spot.trans (here.resolve_right fun running => other running.1))

/-- A call of the running thread blocks. -/
theorem blocks (inv : s.Inv first consumer producer) (fresh : s.call = none)
    (here : s.kernel.here = .outside) (off : s.kernel.machine.intr = .off) (call : QueueCall)
    (running : s.kernel.machine.running = side consumer producer call) {waiter : Nat}
    {lock : Lock} {oldStatus : IntrStatus} {m : Machine}
    (waits : Waits s.kernel.machine m waiter s.queue.lock lock oldStatus) :
    Inv first consumer producer { s with
      kernel := s.kernel.goto m (.returns oldStatus)
      queue := call.record { s.queue with lock := lock } s.kernel.machine.running
      pending := s.setCall (some (call, .waits)) } := by
  obtain ⟨semas, refines, rests⟩ := inv.kernel
  obtain ⟨locked, acquired, blocked⟩ := waits.blocks
  have real : s.kernel.machine.running ≠ 0 := by
    have page := refines.holds.runs.pages _ (refines.threads ▸ refines.running_mem)
    have low := page.low
    omega
  -- a thread that holds the lock does not run
  have free : s.queue.lock = lockInit := by
    obtain ⟨free, -⟩ | ⟨holder, held, pending, -⟩ := inv.lock
    · exact free
    · have other : holder ≠ s.kernel.machine.running := by
        rintro rfl
        exact pending fresh
      rw [held, lockAcquire_taken other] at acquired
      cases acquired
  have none : ∀ thread call, s.pending thread ≠ some (call, .waits) := by
    obtain ⟨-, none⟩ | ⟨holder, held, -⟩ := inv.lock
    · exact none
    · rw [free] at held
      cases held
  have same : ({ s.kernel.machine with intr := .off } : Machine) = s.kernel.machine := by
    rw [← off]
  rw [free, lockAcquire_free real, same] at acquired
  cases acquired
  have plain : s.kernel.here.sema = .none := here ▸ rfl
  obtain ⟨m', run, agrees, refined⟩ := refines.block plain .blocked
  cases run.symm.trans blocked
  rw [off] at refined ⊢
  have notIdle : semas.threads.running ≠ s.kernel.machine.idleThread := by
    rw [← refines.running, running]
    cases call with
    | get => exact inv.idle.1
    | put c => exact inv.idle.2
  have own : s.setCall (some (call, .waits)) (side consumer producer call) ≠ .none := by
    rw [setCall_apply, if_pos running.symm]
    exact nofun
  refine ⟨inv.different, agrees.idleThread ▸ inv.idle, ⟨_, refined, fun thread recorded => ?_⟩,
    fun some => ?_, fun some => ?_, fun thread call' stage pending => ?_,
    fun thread call' stage pending => ?_, .inr ⟨s.kernel.machine.running, ?_, ?_, ?_⟩, ?_, ?_⟩
  · by_cases self : thread = s.kernel.machine.running
    · have rests' := Semaphores.Rests.of_running refines.inv (refines.here.trans plain) notIdle
        Asleep.blocked
      rwa [← refines.running, ← self] at rests'
    · have before : s.Recorded thread := by
        obtain ⟨real, equal⟩ := recorded
        cases call with
        | get => exact ⟨real, .inr (equal.resolve_left self)⟩
        | put c => exact ⟨real, .inl (equal.resolve_right self)⟩
      exact (rests thread before).sleep refines.inv (inv.ne_idle before) .blocked
  · cases call with
    | get => exact ⟨running, own⟩
    | put c => exact (inv.getter some).imp_right setCall_ne_none
  · cases call with
    | get => exact (inv.putter some).imp_right setCall_ne_none
    | put c => exact ⟨running, own⟩
  · simp only [setCall_apply] at pending
    split at pending
    · next self =>
        cases pending
        rw [self, running]
    · exact inv.owner thread call' stage pending
  · simp only [setCall_apply] at pending
    split at pending
    · next self =>
        cases pending
        rw [self]
        exact Kernel.goto_spot_self ..
    · next other =>
        exact stage_of_ne (inv.stages thread call' stage pending) other
          (Kernel.goto_spot_of_ne _ _ _ other)
  · cases call <;> rfl
  · simp [setCall_apply]
  · intro thread call' pending
    simp only [setCall_apply] at pending
    split at pending
    · next self => exact self
    · exact absurd pending (none thread call')
  · cases call <;> exact ⟨inv.range.head, inv.range.tail⟩
  · cases call <;> exact inv.fifo

/-- A call of the running thread returns, and wakes the other side. -/
theorem returns (inv : s.Inv first consumer producer) (fresh : s.call = none)
    (here : s.kernel.here = .outside) {waiter : Nat} {m : Machine}
    (wakes : Wakes s.kernel.machine m waiter)
    (slot : waiter = s.queue.consumer ∨ waiter = s.queue.producer) {queue : IoQueue}
    (range : queue.InRange) (lock : queue.lock = s.queue.lock) (consumerZero : queue.consumer = 0)
    (producerZero : queue.producer = 0) {got put : List UInt8}
    (fifo : got ++ queue.contents = put) :
    Inv first consumer producer
      { kernel := s.kernel.goto m .outside
        queue := queue
        pending := s.setCall none
        got := got
        put := put } := by
  obtain ⟨semas, refines, rests⟩ := inv.kernel
  have refined : ∃ semas, Kernel.Refines { s.kernel with machine := m } first semas ∧
      m.idleThread = s.kernel.machine.idleThread := by
    obtain ⟨-, rfl⟩ | ⟨some, woken⟩ := wakes
    · exact ⟨semas, refines, rfl⟩
    · have sleeps := (refines.sleepsPlainly (rests waiter ⟨some, slot⟩)).1
      obtain ⟨m', run, refined⟩ := refines.unblock (here ▸ rfl) sleeps
      cases run.symm.trans woken
      exact ⟨_, refined, (threadUnblock_stays woken).1.idleThread⟩
  obtain ⟨semas', refined, idle⟩ := refined
  have pending : s.setCall none = s.pending :=
    (congrArg (Function.update s.pending _) fresh.symm).trans (Function.update_eq_self ..)
  rw [Kernel.goto_here _ _ here, pending]
  refine ⟨inv.different, idle ▸ inv.idle, ⟨_, refined, fun thread recorded => ?_⟩,
    fun some => absurd consumerZero some, fun some => absurd producerZero some, inv.owner,
    fun thread call stage pending => ?_, ?_, range, fifo⟩
  · obtain ⟨some, equal⟩ := recorded
    rw [consumerZero, producerZero, or_self] at equal
    exact absurd equal some
  · refine stage_of_ne (inv.stages thread call stage pending) ?_ rfl
    rintro rfl
    cases fresh.symm.trans pending
  · rw [LockKept, lock]
    exact inv.lock

/-- The loops go on with interrupts on. -/
theorem checks_on (inv : s.Inv first consumer producer) {call : QueueCall}
    (pending : s.call = some (call, .checks)) (here : s.kernel.here = .outside) :
    s.kernel.machine.intr = .on := by
  obtain spot | ⟨-, -, on⟩ := inv.stages _ _ _ pending
  · cases here.symm.trans spot
  · exact on

/-- The slot of a running thread is empty. -/
theorem consumer_eq_zero (inv : s.Inv first consumer producer) (fresh : s.call = none)
    (running : s.kernel.machine.running = consumer) : s.queue.consumer = 0 := by
  by_contra some
  exact (inv.getter some).2 (running ▸ fresh)

theorem producer_eq_zero (inv : s.Inv first consumer producer) (fresh : s.call = none)
    (running : s.kernel.machine.running = producer) : s.queue.producer = 0 := by
  by_contra some
  exact (inv.putter some).2 (running ▸ fresh)

theorem getchar (inv : s.Inv first consumer producer) (fresh : s.call = none)
    (running : s.kernel.machine.running = consumer) (here : s.kernel.here = .outside)
    {result : Called UInt8 × Machine × IoQueue}
    (run : ioqueueGetchar s.kernel.machine s.queue = .ok result) :
    (s.afterGet result).Inv first consumer producer := by
  obtain ⟨called, m, ioq⟩ := result
  simp only [ioqueueGetchar, bind_eq_ok] at run
  obtain ⟨-, -, run⟩ := run
  obtain ⟨off, ⟨lock, oldStatus, -, waits, rfl, rfl⟩ | ⟨filled, wakes, rfl, rfl⟩⟩ :=
    getLoop_eq_ok run
  · exact inv.blocks fresh here off .get running waits
  · obtain ⟨range, contents⟩ := inv.range.take filled 0
    refine inv.returns fresh here wakes (.inr rfl) range rfl
      (inv.consumer_eq_zero fresh running) rfl ?_
    rw [← inv.fifo, contents, List.append_assoc, List.singleton_append]

theorem putchar (inv : s.Inv first consumer producer) (fresh : s.call = none)
    (running : s.kernel.machine.running = producer) (here : s.kernel.here = .outside) {c : UInt8}
    {result : Called Unit × Machine × IoQueue}
    (run : ioqueuePutchar s.kernel.machine s.queue c = .ok result) :
    (s.afterPut c result).Inv first consumer producer := by
  obtain ⟨called, m, ioq⟩ := result
  simp only [ioqueuePutchar, bind_eq_ok] at run
  obtain ⟨-, -, run⟩ := run
  obtain ⟨off, ⟨lock, oldStatus, -, waits, rfl, rfl⟩ | ⟨room, wakes, rfl, rfl⟩⟩ :=
    putLoop_eq_ok run
  · exact inv.blocks fresh here off (.put c) running waits
  · obtain ⟨range, contents⟩ := inv.range.store room c 0
    refine inv.returns fresh here wakes (.inl rfl) range rfl rfl
      (inv.producer_eq_zero fresh running) ?_
    rw [contents, ← List.append_assoc, inv.fifo]

/-- Behind `thread_block` the lock is released, which turns interrupts on. -/
theorem release (inv : s.Inv first consumer producer) {call : QueueCall}
    {oldStatus : IntrStatus} {lock : Lock} {m : Machine}
    (waiting : s.call = some (call, .waits)) (here : s.kernel.here = .returns oldStatus)
    (run : lockRelease (setIntrStatus s.kernel.machine oldStatus).2 s.queue.lock =
      .ok (lock, m)) :
    Inv first consumer producer { s with
      kernel := s.kernel.goto m .outside
      queue := { s.queue with lock := lock }
      pending := s.setCall (some (call, .checks)) } := by
  obtain ⟨semas, refines, rests⟩ := inv.kernel
  obtain ⟨-, none⟩ | ⟨holder, held, -, only⟩ := inv.lock
  · exact absurd waiting (none _ _)
  · obtain rfl : s.kernel.machine.running = holder := only _ _ waiting
    have run' := lockRelease_heldBy { s.kernel.machine with intr := oldStatus }
    rw [setIntrStatus_eq, held] at run
    cases run'.symm.trans run
    have refined := refines.resume (here ▸ rfl) .on
    rw [setIntrStatus_eq] at refined
    refine ⟨inv.different, inv.idle, ⟨semas, refined, rests⟩,
      fun some => (inv.getter some).imp_right setCall_ne_none,
        fun some => (inv.putter some).imp_right setCall_ne_none,
      fun thread call' stage pending => ?_, fun thread call' stage pending => ?_,
      .inl ⟨rfl, fun thread call' pending => ?_⟩, ⟨inv.range.head, inv.range.tail⟩, inv.fifo⟩
    · simp only [setCall_apply] at pending
      split at pending
      · next self =>
          cases pending
          exact self ▸ inv.owner _ _ _ waiting
      · exact inv.owner thread call' stage pending
    · simp only [setCall_apply] at pending
      split at pending
      · next self =>
          cases pending
          exact .inr ⟨self, Kernel.goto_spot_self .., rfl⟩
      · next other =>
          exact stage_of_ne (inv.stages thread call' stage pending) other
            (Kernel.goto_spot_of_ne _ _ _ other)
    · simp only [setCall_apply] at pending
      split at pending
      · cases pending
      · next other => exact other (only thread call' pending)

/-- A step of the kernel that leaves the queue alone. -/
theorem withKernel (inv : s.Inv first consumer producer) {next : Kernel}
    (agrees : s.kernel.machine.Agrees next.machine)
    (kernel : ∃ semas, next.Refines first semas ∧
      ∀ thread, s.Recorded thread → semas.Rests thread .blocked)
    (stages : ∀ thread call stage, s.pending thread = some (call, stage) →
      Stage.At { s with kernel := next } thread stage) :
    Inv first consumer producer { s with kernel := next } :=
  ⟨inv.different, agrees.idleThread ▸ inv.idle, kernel, inv.getter, inv.putter, inv.owner, stages,
    inv.lock, inv.range, inv.fifo⟩

/-- The timer, in a loop with interrupts on. -/
theorem timer (inv : s.Inv first consumer producer) {call : QueueCall} {m : Machine}
    (checks : s.call = some (call, .checks)) (here : s.kernel.here = .outside)
    (run : timerIntrHandler { s.kernel.machine with intr := .off } = .ok m) :
    Inv first consumer producer { s with kernel := s.kernel.goto m (.returns .on) } := by
  obtain ⟨semas, refines, rests⟩ := inv.kernel
  obtain ⟨m', threads, run', refined, which⟩ := refines.timer (here ▸ rfl)
  cases run.symm.trans run'
  have agrees : s.kernel.machine.Agrees m := by
    obtain ⟨stays, -⟩ | left := timerIntrHandler_stays run
    · exact ⟨stays.image, stays.mainThread, stays.idleThread⟩
    · exact ⟨left.image, left.mainThread, left.idleThread⟩
  refine inv.withKernel agrees ⟨_, refined, fun thread recorded => ?_⟩
    fun thread call' stage pending => ?_
  · obtain rfl | rfl := which
    · exact rests thread recorded
    · exact (rests thread recorded).yield refines.inv (inv.ne_idle recorded)
  · by_cases self : thread = s.kernel.machine.running
    · rw [self] at pending ⊢
      cases checks.symm.trans pending
      exact .inl (Kernel.goto_spot_self ..)
    · exact stage_of_ne (inv.stages thread call' stage pending) self
        (Kernel.goto_spot_of_ne _ _ _ self)

theorem resume (inv : s.Inv first consumer producer) {call : QueueCall} {oldStatus : IntrStatus}
    (checks : s.call = some (call, .checks)) (here : s.kernel.here = .returns oldStatus) :
    Inv first consumer producer { s with
      kernel := s.kernel.goto (setIntrStatus s.kernel.machine oldStatus).2 .outside } := by
  obtain ⟨semas, refines, rests⟩ := inv.kernel
  have refined := refines.resume (here ▸ rfl) oldStatus
  rw [setIntrStatus_eq] at refined ⊢
  refine inv.withKernel ⟨rfl, rfl, rfl⟩ ⟨semas, refined, rests⟩ fun thread call' stage pending => ?_
  by_cases self : thread = s.kernel.machine.running
  · rw [self] at pending ⊢
    cases checks.symm.trans pending
    obtain spot | ⟨-, outside, -⟩ := inv.stages _ _ _ checks
    · cases here.symm.trans spot
      exact .inr ⟨rfl, Kernel.goto_spot_self .., rfl⟩
    · cases here.symm.trans outside
  · exact stage_of_ne (inv.stages thread call' stage pending) self
      (Kernel.goto_spot_of_ne _ _ _ self)

theorem other (inv : s.Inv first consumer producer) {next : Kernel} (fresh : s.call = none)
    (taken : Kernel.Step first False s.kernel next)
    (alone : ∀ thread, s.pending thread ≠ none →
      threadUnblock s.kernel.machine thread ≠ .ok next.machine) :
    Inv first consumer producer { s with kernel := next } := by
  obtain ⟨semas, refines, rests⟩ := inv.kernel
  obtain ⟨semas', refined, rested⟩ := refines.step_rests taken
  refine inv.withKernel taken.agrees ⟨semas', refined, fun thread recorded => ?_⟩
    fun thread call stage pending => ?_
  · have rests' := rested thread .blocked (rests thread recorded) (inv.ne_idle recorded)
    refine rests'.resolve_right (alone thread ?_)
    obtain ⟨some, rfl | rfl⟩ := recorded
    · obtain ⟨equal, pending⟩ := inv.getter some
      rwa [equal]
    · obtain ⟨equal, pending⟩ := inv.putter some
      rwa [equal]
  · have other : thread ≠ s.kernel.machine.running := by
      rintro rfl
      cases fresh.symm.trans pending
    exact stage_of_ne (inv.stages thread call stage pending) other (taken.spot_of_ne other)

/-- A loop that goes on with interrupts on fails the assertion of its condition. -/
theorem getLoop_on {m : Machine} (on : m.intr = .on) (ioq : IoQueue) :
    getLoop m ioq = .error (.panic "assertion failed: get_intr_status() == INTR_OFF") := by
  simp only [getLoop, ioqueueEmpty, getIntrStatus, on, assert]
  rfl

theorem putLoop_on {m : Machine} (on : m.intr = .on) (ioq : IoQueue) (c : UInt8) :
    putLoop m ioq c = .error (.panic "assertion failed: get_intr_status() == INTR_OFF") := by
  simp only [putLoop, ioqueueFull, getIntrStatus, on, assert]
  rfl

theorem step (inv : s.Inv first consumer producer) {next : QueueRun}
    (taken : Step first consumer producer s next) : next.Inv first consumer producer := by
  cases taken with
  | getchar fresh running here run => exact inv.getchar fresh running here run
  | putchar c fresh running here run => exact inv.putchar fresh running here run
  | release waiting here run => exact inv.release waiting here run
  | timer checks here on run => exact inv.timer checks here run
  | resume checks here => exact inv.resume checks here
  | getAgain checks here run =>
      rw [getLoop_on (inv.checks_on checks here)] at run
      cases run
  | putAgain checks here run =>
      rw [putLoop_on (inv.checks_on checks here)] at run
      cases run
  | other fresh taken alone => exact inv.other fresh taken alone

end Inv

theorem inv_of_reachable (binary : ∀ sema, first sema ≤ 1)
    (reachable : (queueSystem first consumer producer).Reachable s) :
    s.Inv first consumer producer := by
  have preserved (state next : QueueRun) (inv : state.Inv first consumer producer)
      (taken : (queueSystem first consumer producer).step state next) :
      next.Inv first consumer producer := inv.step taken
  have base (state : QueueRun) (initial : state.Initial first consumer producer) :
      state.Inv first consumer producer := initial.inv binary
  exact reachable.invariant base preserved

end QueueRun

end Pumelo
