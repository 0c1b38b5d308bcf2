import Mathlib.Logic.Relation
import Pumelo.IoQueueRun

/-!
# Characters in order, and calls that never return

The queue passes the characters on in order for as long as nothing fails.  A call that
has blocked does not get that far: `lock_release` turns interrupts on, and the loop then
asserts that they are off.
-/

namespace Pumelo

open Foundation

namespace QueueRun

variable {s : QueueRun} {first : Nat → Nat} {consumer producer : Nat}

/-- The other side has put a character, or taken one. -/
def Served (s : QueueRun) : QueueCall → Prop
  | .get => s.queue.head ≠ s.queue.tail
  | .put _ => nextPos s.queue.head ≠ s.queue.tail

/-- A step that gives the processor away unblocks nobody. -/
theorem other_alone {m next : Machine} (switched : next.running ≠ m.running) (thread : Nat) :
    threadUnblock m thread ≠ .ok next :=
  fun run => switched (threadUnblock_stays run).1.running

/-- `ioqueue_getchar` on an empty queue. -/
theorem getchar_waits {semas : Semaphores Nat Asleep Nat} (refines : s.kernel.Refines first semas)
    (here : s.kernel.here = .outside) (off : s.kernel.machine.intr = .off)
    (empty : s.queue.head = s.queue.tail) (free : s.queue.lock = lockInit)
    (nobody : s.queue.consumer = 0) :
    ∃ m, ioqueueGetchar s.kernel.machine s.queue = .ok (.waits .off, m, { s.queue with
        lock := Lock.heldBy s.kernel.machine.running
        consumer := s.kernel.machine.running }) ∧
      s.kernel.machine.Agrees m ∧ m.intr = .off ∧
      (s.kernel.goto m (.returns .off)).Refines first (semas.withThreads
        ((semas.threads.sleep .blocked).dispatch s.kernel.machine.idleThread)) := by
  have real : s.kernel.machine.running ≠ 0 := by
    have page := refines.holds.runs.pages _ (refines.threads ▸ refines.running_mem)
    have low := page.low
    omega
  obtain ⟨m, run, agrees, refined⟩ := refines.block (here ▸ rfl) .blocked
  have same : ({ s.kernel.machine with intr := .off } : Machine) = s.kernel.machine := by
    rw [← off]
  have acquired := lockAcquire_free real
  rw [same] at acquired
  rw [off] at run refined
  refine ⟨m, ?_, agrees, (threadBlock_leaves run).1.off, refined⟩
  have waits : ioqueueWait s.kernel.machine s.queue.consumer =
      .ok (s.kernel.machine.running, .off, m) := by
    have blocked : threadBlock s.kernel.machine .blocked = .ok (.off, m) := run
    rw [ioqueueWait, bind_ok (assert_of nobody _), bind_ok blocked]
    rfl
  have status : getIntrStatus s.kernel.machine = .off := off
  rw [ioqueueGetchar, bind_ok (assert_of status _), getLoop, ioqueueEmpty,
    bind_ok (assert_of status _), free]
  simp only [empty, decide_true, pure_bind, if_true, bind_ok acquired, bind_ok waits]
  rfl

/-- `ioqueue_putchar` wakes a consumer. -/
theorem putchar_wakes {semas : Semaphores Nat Asleep Nat} (refines : s.kernel.Refines first semas)
    (here : s.kernel.here = .outside) (off : s.kernel.machine.intr = .off)
    (range : s.queue.InRange) (room : nextPos s.queue.head ≠ s.queue.tail)
    (waiter : s.queue.consumer ≠ 0) (sleeps : s.kernel.SleepsPlainly s.queue.consumer)
    (c : UInt8) :
    ∃ m, ioqueuePutchar s.kernel.machine s.queue c = .ok (.returns (), m, { s.queue with
        buf := Function.update s.queue.buf s.queue.head.toNat c
        head := nextPos s.queue.head
        consumer := 0 }) ∧
      m.intr = .off ∧ Kernel.Refines { s.kernel with machine := m } first
        (semas.withThreads (semas.threads.wake s.queue.consumer)) := by
  obtain ⟨m, run, refined⟩ := refines.unblock (here ▸ rfl) sleeps
  refine ⟨m, ?_, (threadUnblock_stays run).2.trans off, refined⟩
  have wakes : ioqueueWakeup s.kernel.machine s.queue.consumer = .ok (0, m) := by
    rw [ioqueueWakeup, bind_ok (assert_of waiter _), bind_ok run]
    rfl
  have inside : checkPos s.queue.head = .ok () := if_pos range.head
  have status : getIntrStatus s.kernel.machine = .off := off
  rw [ioqueuePutchar, bind_ok (assert_of status _), putLoop, ioqueueFull,
    bind_ok (assert_of status _)]
  simp only [room, decide_false, pure_bind, Bool.false_eq_true, if_false, bind_ok inside,
    waiter, ne_eq, not_false_eq_true, if_true, bind_ok wakes]
  rfl

/-- A queue that is empty, with a consumer that runs and a producer that is ready behind
the idle thread. -/
theorem exists_initial : ∃ (s : QueueRun) (consumer producer : Nat)
    (semas : Semaphores Nat Asleep Nat), s.Initial (fun _ => 0) consumer producer ∧
      s.kernel.Refines (fun _ => 0) semas ∧ s.kernel.machine.intr = .off ∧
      (∀ thread, s.kernel.spot thread = .outside) ∧ semas.threads.running = consumer ∧
      semas.threads.ready = [s.kernel.machine.idleThread, producer] := by
  obtain ⟨k, initial, image, threads⟩ := Kernel.initial_booted
  obtain ⟨main, different, refines⟩ := initial.refines fun _ => Nat.zero_le 1
  obtain ⟨-, -, -, -, -, -, -, -, -, semas, spot, -⟩ := id initial
  have page : ThreadPage 0xc0101000 := ⟨by decide, by decide, by decide⟩
  have fresh : 0xc0101000 ∉ k.threads := by
    rw [threads]
    decide
  have clear : ∀ sema ∈ k.semas, sema + 20 ≤ 0xc0101000 ∨ 0xc0101000 + 4096 ≤ sema := by
    simp [semas]
  -- the producer is started
  obtain ⟨m, run, refined⟩ := refines.start (congrArg Spot.sema (spot _)) page fresh
    ⟨[], 31, 0, 0, 0⟩ (by decide) clear
  let started : Kernel := { k with
    machine := m
    threads := k.threads ++ [0xc0101000] }
  have step₁ : Kernel.Step (fun _ => 0) False k started :=
    .start _ _ m (spot _) page fresh (by decide) clear run
  -- `intr_disable()`
  let off : Machine := { m with intr := .off }
  have refined' : Kernel.Refines { started with machine := off } _ _ :=
    refined.compute .off fun query _ => rfl
  have step₂ : Kernel.Step (fun _ => 0) False started { started with machine := off } :=
    .compute m.mem .off (spot _) fun _ _ => rfl
  have idle : off.idleThread = k.machine.idleThread := (threadStart_stays run).idleThread
  have consumerMem : main ∈ k.threads := by
    have member := refines.running_mem
    rwa [refines.running] at member
  have idleMem : k.machine.idleThread ∈ k.threads := refines.threads ▸ refines.inv.sound.idle
  have notProducer : ∀ thread ∈ k.threads, thread ≠ 0xc0101000 := by
    rintro thread member rfl
    exact fresh member
  refine ⟨⟨_, ioqueueInit ⟨lockInit, 0, 0, fun _ => 0, 0, 0⟩, fun _ => none, [], []⟩, main,
    0xc0101000, _, ⟨.step (.step (.init initial) step₁) step₂, notProducer main consumerMem, ?_, ?_,
      rfl, fun _ => rfl, rfl, rfl⟩, refined', rfl, spot, rfl, ?_⟩
  · rw [idle]
    exact different.symm
  · rw [idle]
    exact (notProducer _ idleMem).symm
  · rw [idle]
    rfl

/-- A thread that is in no call yields to the first thread that is ready. -/
theorem yields (consumer producer : Nat) {semas : Semaphores Nat Asleep Nat}
    (refines : s.kernel.Refines first semas) (here : s.kernel.here = .outside)
    (fresh : s.call = none) {head : Nat} {tail : List Nat}
    (ready : semas.threads.ready = head :: tail)
    (different : head ≠ s.kernel.machine.running) :
    ∃ m semas', Step first consumer producer s { s with
        kernel := s.kernel.goto m (.returns s.kernel.machine.intr) } ∧
      (s.kernel.goto m (.returns s.kernel.machine.intr)).Refines first semas' ∧
      m.running = head ∧ m.intr = .off ∧
      semas'.threads.ready = tail ++ [s.kernel.machine.running] := by
  obtain ⟨m, run, refined⟩ := refines.yield (here ▸ rfl)
  have queue : (semas.threads.enqueue semas.threads.running).ready =
      head :: (tail ++ [semas.threads.running]) := congrArg (· ++ [semas.threads.running]) ready
  rw [Dispatcher.dispatch_cons queue] at refined
  have running : m.running = head := refined.running
  have switched : m.running ≠ s.kernel.machine.running := by
    rwa [running]
  refine ⟨m, _, .other fresh (.yield _ m here run) fun thread _ => other_alone switched thread,
    refined, running, (threadYield_leaves run).1.off, ?_⟩
  rw [refines.running]
  rfl

/-- The consumer waits in an empty queue, and the producer is to run. -/
structure ToServe (s : QueueRun) (consumer producer : Nat) (semas : Semaphores Nat Asleep Nat) :
    Prop where
  reachable : (queueSystem (fun _ => 0) consumer producer).Reachable s
  refines : s.kernel.Refines (fun _ => 0) semas
  off : s.kernel.machine.intr = .off
  waits : s.pending consumer = some (.get, .waits)
  spot : s.kernel.spot consumer = .returns .off
  free : s.pending producer = none ∧ s.kernel.spot producer = .outside
  record : s.queue.consumer = consumer
  empty : s.queue.head = 0 ∧ s.queue.tail = 0
  apart : consumer ≠ producer
  real : consumer ≠ 0

theorem exists_waits : ∃ (s : QueueRun) (consumer producer : Nat)
    (semas : Semaphores Nat Asleep Nat), s.ToServe consumer producer semas ∧
      semas.threads.ready = [producer] ∧ s.kernel.here = .outside ∧ s.call = none ∧
      producer ≠ s.kernel.machine.running ∧ consumer ≠ s.kernel.machine.running := by
  obtain ⟨s, consumer, producer, semas, initial, refines, off, outside, running, ready⟩ :=
    exists_initial
  obtain ⟨-, different, notIdle, notIdle', queue, fresh, -, -⟩ := id initial
  obtain rfl : s.kernel.machine.running = consumer := refines.running.trans running
  obtain ⟨m, run, agrees, off', refined⟩ := getchar_waits refines (outside _) off
    (by rw [queue]; rfl) (by rw [queue]; rfl) (by rw [queue]; rfl)
  have queue' : (semas.threads.sleep .blocked).ready = [s.kernel.machine.idleThread, producer] :=
    ready
  rw [Dispatcher.dispatch_cons queue'] at refined
  have runs : m.running = s.kernel.machine.idleThread := refined.running
  refine ⟨s.afterGet _, _, producer, _,
    ⟨.step (.init initial) (.getchar (fresh _) rfl (outside _) run), refined, off',
      Function.update_self .., Kernel.goto_spot_self .., ⟨?_, ?_⟩, rfl, ⟨?_, ?_⟩, different, ?_⟩,
    rfl, ?_, ?_, ?_, ?_⟩
  · exact (Function.update_of_ne different.symm ..).trans (fresh _)
  · exact (Kernel.goto_spot_of_ne _ _ _ different.symm).trans (outside _)
  · exact congrArg IoQueue.head queue
  · exact congrArg IoQueue.tail queue
  · have page := refines.holds.runs.pages _ (refines.threads ▸ refines.running_mem)
    have low := page.low
    omega
  · have spot := (Kernel.goto_spot_of_ne s.kernel m (.returns .off) notIdle.symm).trans (outside _)
    rwa [← runs] at spot
  · have pending := (Function.update_of_ne notIdle.symm (some (QueueCall.get, Stage.waits))
      s.pending).trans (fresh _)
    rwa [← runs] at pending
  · rwa [← runs] at notIdle'
  · rwa [← runs] at notIdle

/-- The idle thread yields. -/
theorem exists_turn : ∃ (s : QueueRun) (consumer producer : Nat)
    (semas : Semaphores Nat Asleep Nat), s.ToServe consumer producer semas ∧
      s.kernel.machine.running = producer := by
  obtain ⟨s, consumer, producer, semas, waiting, ready, here, fresh, notIdle, notIdle'⟩ :=
    exists_waits
  obtain ⟨m, semas', step, refines, running, off, -⟩ :=
    yields consumer producer waiting.refines here fresh ready notIdle
  refine ⟨_, consumer, producer, semas', ⟨waiting.reachable.step step, refines, off, waiting.waits,
    ?_, waiting.free.imp_right ?_, waiting.record, waiting.empty, waiting.apart, waiting.real⟩,
    running⟩
  · exact (Kernel.goto_spot_of_ne _ _ _ notIdle').trans waiting.spot
  · exact (Kernel.goto_spot_of_ne _ _ _ notIdle).trans

/-- The producer puts a character and yields. -/
theorem ToServe.serves {semas : Semaphores Nat Asleep Nat}
    (waiting : s.ToServe consumer producer semas) (running : s.kernel.machine.running = producer)
    (c : UInt8) :
    ∃ s', (queueSystem (fun _ => 0) consumer producer).Reachable s' ∧
      s'.kernel.machine.running = consumer ∧ s'.call = some (.get, .waits) ∧
      s'.kernel.here = .returns .off ∧ s'.Served .get ∧ s'.put = s.put ++ [c] := by
  have inv := inv_of_reachable (fun _ => Nat.zero_le 1) waiting.reachable
  obtain ⟨head, tail⟩ := waiting.empty
  subst running
  -- the call returns
  have sleeps : s.kernel.SleepsPlainly s.queue.consumer := by
    obtain ⟨semas', refines, rests⟩ := inv.kernel
    exact (refines.sleepsPlainly (rests _ ⟨waiting.record ▸ waiting.real, .inl rfl⟩)).1
  have room : nextPos s.queue.head ≠ s.queue.tail := by
    rw [head, tail]
    decide
  obtain ⟨m, run, off, refines⟩ := putchar_wakes waiting.refines waiting.free.2 waiting.off
    inv.range room (waiting.record ▸ waiting.real) sleeps c
  have step : Step (fun _ => 0) consumer _ s (s.afterPut c _) :=
    .putchar c waiting.free.1 rfl waiting.free.2 run
  rw [← Kernel.goto_here _ _ waiting.free.2] at refines
  generalize next : s.afterPut c _ = t at step
  have kernel : t.kernel = s.kernel.goto m .outside := by rw [← next]; rfl
  have pending : t.pending = s.setCall none := by rw [← next]; rfl
  have runs : t.kernel.machine.running = s.kernel.machine.running := by
    rw [kernel]
    exact refines.running.trans waiting.refines.running.symm
  have served : t.Served .get ∧ t.put = s.put ++ [c] := by
    refine ⟨?_, by rw [← next]; rfl⟩
    rw [← next]
    change nextPos s.queue.head ≠ s.queue.tail
    exact room
  -- the consumer is the first that is ready
  have here : t.kernel.here = .outside := by
    rw [Kernel.here, runs, kernel]
    exact Kernel.goto_spot_self ..
  have fresh : t.call = none := by
    rw [call, runs, pending]
    exact Function.update_self ..
  have ready : (semas.withThreads (semas.threads.wake s.queue.consumer)).threads.ready =
      consumer :: semas.threads.ready := by
    rw [waiting.record]
    rfl
  obtain ⟨m', semas', step', -, running, -⟩ := yields consumer _ (kernel ▸ refines) here fresh ready
    (runs ▸ waiting.apart)
  refine ⟨_, (waiting.reachable.step step).step step', running, ?_, ?_, served⟩
  · change t.pending m'.running = _
    rw [running, pending]
    exact (Function.update_of_ne waiting.apart ..).trans waiting.waits
  · change (t.kernel.goto m' _).spot m'.running = _
    rw [running, Kernel.goto_spot_of_ne _ _ _ (runs ▸ waiting.apart), kernel,
      Kernel.goto_spot_of_ne _ _ _ waiting.apart]
    exact waiting.spot

/-- The consumer has released the lock. -/
theorem exists_checks : ∃ (s : QueueRun) (consumer producer : Nat),
    (queueSystem (fun _ => 0) consumer producer).Reachable s ∧
      s.call = some (.get, .checks) ∧ s.kernel.here = .outside ∧ s.Served .get := by
  obtain ⟨s, consumer, producer, semas, waiting, running⟩ := exists_turn
  obtain ⟨t, reachable, running, waits, here, served, -⟩ := waiting.serves running 0
  have inv := inv_of_reachable (fun _ => Nat.zero_le 1) reachable
  obtain ⟨-, none⟩ | ⟨holder, held, -, only⟩ := inv.lock
  · exact absurd waits (none _ _)
  · obtain rfl : t.kernel.machine.running = holder := only _ _ waits
    have released : lockRelease (setIntrStatus t.kernel.machine .off).2 t.queue.lock =
        .ok (lockInit, { t.kernel.machine with intr := .on }) := by
      rw [setIntrStatus_eq, held]
      exact lockRelease_heldBy { t.kernel.machine with intr := .off }
    exact ⟨_, consumer, producer, reachable.step (.release waits here released),
      Function.update_self .., Kernel.goto_spot_self .., served⟩

end QueueRun

/-! ## Every run -/

variable {s : QueueRun} {first : Nat → Nat} {consumer producer : Nat}

/-- The queue is a FIFO of 63 characters, and the threads that it keeps are blocked. -/
theorem queueSystem_fifo (binary : ∀ sema, first sema ≤ 1)
    (reachable : (queueSystem first consumer producer).Reachable s) :
    s.got ++ s.queue.contents = s.put ∧ s.queue.contents.length ≤ bufSize - 1 ∧
      s.queue.InRange ∧ ∀ thread, s.Recorded thread →
        statusOf s.kernel.machine.mem thread = TaskStatus.blocked.code := by
  have inv := QueueRun.inv_of_reachable binary reachable
  obtain ⟨semas, refines, rests⟩ := inv.kernel
  refine ⟨inv.fifo, ?_, inv.range, fun thread recorded => ?_⟩
  · have countLt := inv.range.count_lt
    rw [IoQueue.contents, Ring.length_contents]
    omega
  · exact (refines.sleepsPlainly (rests thread recorded)).2

theorem queueSystem_fifo_stored : ∃ s : QueueRun, s.queue.head ≠ s.queue.tail ∧
    s.got ++ s.queue.contents = s.put ∧ s.queue.contents.length ≤ bufSize - 1 ∧
      s.queue.InRange ∧ ∀ thread, s.Recorded thread →
        statusOf s.kernel.machine.mem thread = TaskStatus.blocked.code := by
  obtain ⟨s, consumer, producer, reachable, checks, here, served⟩ := QueueRun.exists_checks
  exact ⟨s, served, queueSystem_fifo (fun _ => Nat.zero_le 1) reachable⟩

namespace QueueRun

/-- The loop goes on, and the call returns the next character, or has stored its own. -/
def Completes (s : QueueRun) : QueueCall → Prop
  | .get => ∃ m ioq, getLoop s.kernel.machine s.queue =
      .ok (.returns (s.queue.buf s.queue.tail.toNat), m, ioq)
  | .put c => ∃ m ioq, putLoop s.kernel.machine s.queue c = .ok (.returns (), m, ioq)

/-- Steps from one state to another. -/
def Later (first : Nat → Nat) (consumer producer : Nat) : QueueRun → QueueRun → Prop :=
  Relation.ReflTransGen (Step first consumer producer)

/-- A thread that is to look at the queue again finds it served and completes its call. -/
def BlockedCallsComplete : Prop :=
  ∀ first : Nat → Nat, (∀ sema, first sema ≤ 1) → ∀ (consumer producer : Nat) (s : QueueRun),
    (queueSystem first consumer producer).Reachable s → ∀ call, s.call = some (call, .checks) →
      s.kernel.here = .outside → s.Served call → s.Completes call

theorem Inv.not_completes (inv : s.Inv first consumer producer) {call : QueueCall}
    (checks : s.call = some (call, .checks)) (here : s.kernel.here = .outside) :
    ¬s.Completes call := by
  have on := inv.checks_on checks here
  cases call with
  | get =>
      rintro ⟨m, ioq, run⟩
      rw [Inv.getLoop_on on] at run
      cases run
  | put c =>
      rintro ⟨m, ioq, run⟩
      rw [Inv.putLoop_on on] at run
      cases run

/-- A call that has blocked stays so. -/
theorem Inv.still_blocked (inv : s.Inv first consumer producer) {next : QueueRun}
    (taken : Step first consumer producer s next) {thread : Nat}
    (blocked : s.pending thread ≠ none) : next.pending thread ≠ none := by
  have others : ∀ call, s.call = none → s.setCall call thread ≠ none := by
    intro call fresh
    have other : thread ≠ s.kernel.machine.running := by
      rintro rfl
      exact blocked fresh
    rwa [setCall, Function.update_of_ne other]
  cases taken with
  | @getchar result fresh running here run =>
      obtain ⟨called, m, ioq⟩ := result
      cases called <;> exact others _ fresh
  | @putchar c result fresh running here run =>
      obtain ⟨called, m, ioq⟩ := result
      cases called <;> exact others _ fresh
  | release waiting here run =>
      exact setCall_ne_none blocked
  | timer | resume | other => exact blocked
  | getAgain checks here run =>
      rw [Inv.getLoop_on (inv.checks_on checks here)] at run
      cases run
  | putAgain checks here run =>
      rw [Inv.putLoop_on (inv.checks_on checks here)] at run
      cases run

/-- No call that has blocked ever returns. -/
theorem blocked_never_returns (binary : ∀ sema, first sema ≤ 1)
    (reachable : (queueSystem first consumer producer).Reachable s) {thread : Nat}
    (blocked : s.pending thread ≠ none) {t : QueueRun} (later : Later first consumer producer s t) :
    t.pending thread ≠ none ∧ ∀ call, t.call = some (call, .checks) → t.kernel.here = .outside →
      ¬t.Completes call := by
  have reached : (queueSystem first consumer producer).Reachable t ∧ t.pending thread ≠ none := by
    induction later with
    | refl => exact ⟨reachable, blocked⟩
    | tail _ taken ih =>
        exact ⟨.step ih.1 taken, (inv_of_reachable binary ih.1).still_blocked taken ih.2⟩
  exact ⟨reached.2, fun call checks here =>
    (inv_of_reachable binary reached.1).not_completes checks here⟩

theorem blocked_never_returns_get : ∃ s : QueueRun, s.call = some (.get, .checks) ∧
    s.kernel.here = .outside ∧ s.Served .get ∧ s.call ≠ none ∧ ¬s.Completes .get := by
  obtain ⟨s, consumer, producer, reachable, checks, here, served⟩ := exists_checks
  have blocked : s.pending s.kernel.machine.running ≠ none := by
    intro fresh
    cases checks.symm.trans fresh
  obtain ⟨pending, fails⟩ :=
    blocked_never_returns (fun _ => Nat.zero_le 1) reachable blocked .refl
  exact ⟨s, checks, here, served, pending, fails .get checks here⟩

/-- The consumer blocks on an empty queue, the producer puts a character, and the assertion
of `ioqueue_empty` fails. -/
theorem not_blockedCallsComplete : ¬BlockedCallsComplete := by
  intro always
  have binary : ∀ sema : Nat, (fun _ => 0) sema ≤ 1 := fun _ => Nat.zero_le 1
  obtain ⟨s, consumer, producer, reachable, checks, here, served⟩ := exists_checks
  exact (inv_of_reachable binary reachable).not_completes checks here
    (always _ binary consumer producer s reachable .get checks here served)

end QueueRun

end Pumelo
