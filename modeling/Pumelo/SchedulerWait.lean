import Mathlib.Data.UInt
import Pumelo.Foundation.RoundRobin
import Pumelo.SchedulerLimit

/-!
# Waiting for the processor

`timer_intr_handler` counts down the ticks of the running thread and calls `schedule` once
they are used up.  A ready thread gets the processor when the running thread and those in front
of it have used theirs; only a thread that is woken can go in front of it.
-/

namespace Pumelo

open Foundation

/-- The ticks that a thread has left. -/
def Machine.left (m : Machine) (thread : Nat) : Nat := (ticksOf m.mem thread).toNat

theorem Machine.left_le (m : Machine) (thread : Nat) : m.left thread + 1 ≤ 256 := by
  have small := (ticksOf m.mem thread).toNat_lt
  rw [Machine.left]
  omega

section

variable {m m' : Machine} {d d' : Dispatcher Nat Asleep} {idle thread other : Nat} {reason : Asleep}

theorem Machine.left_congr (same : m'.mem (other + 53) = m.mem (other + 53)) :
    m'.left other = m.left other := by
  rw [Machine.left, Machine.left, ticksOf, ticksOf, same]

/-- A thread's ticks are no part of the ready list, nor of a status. -/
theorem Machine.Runs.ticks_outside (runs : m.Runs d) (born : other ∈ d.born) :
    (other + 53 < m.image.threadReadyList ∨ m.image.threadReadyList + 16 ≤ other + 53) ∧
      ∀ thread ∈ d.born, (other + 53 < thread + 4 ∨ thread + 8 ≤ other + 53) ∧
        (other + 53 < thread + 92 ∨ thread + 108 ≤ other + 53) := by
  have placed := m.image.ready_placed
  have low := (runs.pages other born).low
  refine ⟨by omega, fun thread isBorn => ?_⟩
  by_cases same : other = thread
  · omega
  · have apart := (runs.pages other born).apart (runs.pages thread isBorn) same
    omega

theorem Machine.Runs.storeStatus_left (runs : m.Runs d) (member : thread ∈ d.born)
    (born : other ∈ d.born) (status : TaskStatus) :
    ({ m with mem := storeStatus m.mem thread status } : Machine).left other = m.left other := by
  apply Machine.left_congr
  apply Bytes.write32_of_outside
  have away := ((runs.ticks_outside born).2 thread member).1
  omega

theorem Machine.Runs.outside_ticks (runs : m.Runs d) (member : thread ∈ d.born)
    (born : other ∈ d.born) :
    Outside (generalTag thread :: listNodes m.image.threadReadyList (d.ready.map generalTag))
      (other + 53) := by
  obtain ⟨list, tags⟩ := runs.ticks_outside born
  apply runs.outside_lists member list
  intro thread isBorn
  have away := (tags thread isBorn).2
  omega

theorem Machine.Runs.listAppend_left (runs : m.Runs d) (member : thread ∈ d.born)
    (born : other ∈ d.born) :
    (listAppend m m.image.threadReadyList (generalTag thread)).left other = m.left other := by
  apply Machine.left_congr
  rw [listAppend, listInsertBefore_eq]
  exact runs.ready.append_of_outside (runs.outside_ticks member born)

theorem Machine.Runs.listPush_left (runs : m.Runs d) (member : thread ∈ d.born)
    (born : other ∈ d.born) :
    (listPush m m.image.threadReadyList (generalTag thread)).left other = m.left other := by
  apply Machine.left_congr
  rw [listPush, listInsertBefore_eq]
  exact runs.ready.push_of_outside (runs.outside_ticks member born)

theorem Machine.Runs.listPop_left (runs : m.Runs d) {rest : List Nat}
    (ready : d.ready = thread :: rest)
    (born : other ∈ d.born) :
    (listPop m m.image.threadReadyList).2.left other = m.left other := by
  have list : ListAt m.mem m.image.threadReadyList
      ([] ++ generalTag thread :: rest.map generalTag) := by
    have list := runs.ready
    rwa [ready] at list
  have member : thread ∈ d.born := runs.queued thread (by simp [ready])
  have head : nextOf m.mem m.image.threadReadyList = generalTag thread := list.next_cons
  have outside := runs.outside_ticks member born
  rw [ready] at outside
  apply Machine.left_congr
  simp only [listPop, head, listRemove_eq]
  apply list.remove_of_outside
  intro node isNode
  apply outside node
  simp only [mem_listNodes, List.mem_cons, List.map_cons, List.nil_append] at isNode ⊢
  tauto

/-- `thread_unblock` leaves the ticks of a thread that slept. -/
theorem threadUnblock_left (runs : m.Runs d) (member : thread ∈ d.born) (born : other ∈ d.born)
    (run : threadUnblock m thread = .ok m') : m'.left other = m.left other := by
  simp only [threadUnblock, intrDisable_eq, bind_eq_ok, setIntrStatus_eq] at run
  obtain ⟨-, -, run⟩ := run
  split at run
  · simp only [bind_eq_ok] at run
    obtain ⟨-, -, -, -, found, -, run⟩ := run
    split at run
    · cases run
    · cases run
      have pushed := (runs.setIntr .off).listPush_left member born
      have away := ((runs.ticks_outside born).2 thread member).1
      exact Eq.trans (Machine.left_congr (Bytes.write32_of_outside _ _ (by omega))) pushed
  · cases run
    rfl

/-- `schedule` gives ticks to the thread that it queues only. -/
theorem requeue_left (runs : m.Runs d) (member : d.running ∈ d.born) (born : other ∈ d.born)
    (different : other ≠ d.running) (run : requeue m d.running = .ok m') :
    m'.left other = m.left other := by
  rw [requeue] at run
  split at run
  · simp only [bind_eq_ok] at run
    obtain ⟨-, -, -, -, run⟩ := run
    cases run
    have apart := (runs.pages other born).apart (runs.pages d.running member) different
    have appended := runs.listAppend_left member born
    refine Eq.trans (Machine.left_congr ?_) appended
    refine (Bytes.write32_of_outside _ _ (by omega)).trans ?_
    exact Bytes.write8_of_ne _ _ (by omega)
  · cases run
    rfl

theorem wakeIdle_left (runs : m.Runs d) (member : m.idleThread ∈ d.born) (born : other ∈ d.born)
    (run : wakeIdle m = .ok m') : m'.left other = m.left other := by
  rw [wakeIdle] at run
  split at run
  · exact threadUnblock_left runs member born run
  · cases run
    rfl

theorem switchNext_left (runs : m.Runs d) (filled : d.ready ≠ []) (born : other ∈ d.born) :
    (switchNext m).left other = m.left other := by
  obtain ⟨first, rest, ready⟩ := List.exists_cons_of_ne_nil filled
  have member : first ∈ d.born := runs.queued first (by simp [ready])
  obtain ⟨tag, popped, -⟩ := runs.pop ready
  rw [switchNext_eq tag]
  refine Eq.trans ?_ (runs.listPop_left ready born)
  exact popped.storeStatus_left member born .running

/-- The last two parts of `schedule` leave all ticks. -/
theorem dispatch_left {woken : Machine} (runs : m.Runs d) (vacant : d.Vacant m.idleThread)
    (born : other ∈ d.born) (run : wakeIdle m = .ok woken) :
    (switchNext woken).left other = m.left other := by
  obtain ⟨found, d', run', runs', filled, born', -⟩ := wakeIdle_runs runs vacant
  rw [run] at run'
  cases run'
  rw [switchNext_left runs' filled (born' ▸ born)]
  exact wakeIdle_left runs vacant.idle born run

/-- A thread that gives up the processor leaves the ticks of all. -/
theorem schedule_left_vacant (runs : m.Runs d) (vacant : d.Vacant m.idleThread)
    (member : d.running ∈ d.born) (born : other ∈ d.born) (run : schedule m = .ok m') :
    m'.left other = m.left other := by
  simp only [schedule, bind_eq_ok] at run
  obtain ⟨-, -, requeued, same, woken, wake, run⟩ := run
  cases run
  rw [requeue_vacant runs vacant member] at same
  cases same
  exact dispatch_left runs vacant born wake

/-- One whose time is up gets its ticks again. -/
theorem schedule_left_sound (runs : m.Runs d) (sound : d.Sound m.idleThread) (born : other ∈ d.born)
    (different : other ≠ d.running) (run : schedule m = .ok m') : m'.left other = m.left other := by
  simp only [schedule, bind_eq_ok] at run
  obtain ⟨-, -, requeued, queue, woken, wake, run⟩ := run
  cases run
  obtain ⟨found, queue', runs', keeps⟩ := requeue_sound runs sound
  rw [queue] at queue'
  cases queue'
  rw [show m.runningThread = d.running from runs.running] at queue
  rw [dispatch_left runs' (keeps.idleThread ▸ sound.vacant_enqueue) born wake]
  exact requeue_left runs sound.running_mem born different queue

/-- `timer_intr_handler` takes a tick, or calls `schedule` when none is left. -/
theorem timerIntrHandler_left (runs : m.Runs d) (sound : d.Sound m.idleThread) (off : m.intr = .off)
    (run : timerIntrHandler m = .ok m') :
    (∀ other ∈ d.born, other ≠ d.running → m'.left other = m.left other) ∧
      (m'.Runs d ∧ m'.left d.running + 1 = m.left d.running ∨
        m'.Runs ((d.enqueue d.running).dispatch m.idleThread) ∧ m.left d.running = 0) := by
  have member := sound.running_mem
  have current : m.runningThread = d.running := runs.running
  simp only [timerIntrHandler, bind_eq_ok, current] at run
  obtain ⟨-, -, run⟩ := run
  generalize counted : m.mem.write32 (d.running + 56) (m.mem.read32 (d.running + 56) + 1) =
    mem at run
  have outside : ∀ query, (query < d.running + 56 ∨ d.running + 60 ≤ query) →
      mem query = m.mem query := by
    intro query away
    rw [← counted]
    exact Bytes.write32_of_outside _ _ (by omega)
  have apart : ∀ other ∈ d.born, other ≠ d.running →
      other + 53 < d.running ∨ d.running + 4096 ≤ other + 53 := by
    intro other born different
    have away := (runs.pages other born).apart (runs.pages d.running member) different
    omega
  have ticks : ticksOf mem d.running = ticksOf m.mem d.running := outside _ (by omega)
  have same : ∀ other ∈ d.born, other ≠ d.running → mem (other + 53) = m.mem (other + 53) := by
    intro other born different
    have away := apart other born different
    exact outside _ (by omega)
  have kept : ({ m with mem := mem, ticks := (m.ticks + 1) % 2 ^ 32 } : Machine).Runs d := by
    refine runs.congr rfl rfl fun query inside => outside query ?_
    have away := runs.ofScheduler_outside member inside
    omega
  split at run
  · next up =>
      obtain ⟨found, run', runs', -⟩ := schedule_sound kept sound off
      rw [run] at run'
      cases run'
      refine ⟨fun other born different => ?_, .inr ⟨runs', ?_⟩⟩
      · rw [schedule_left_sound kept sound born different run]
        exact Machine.left_congr (same other born different)
      · rw [Machine.left, ← ticks, up]
        rfl
  · next left =>
      cases run
      obtain ⟨runs', -⟩ := kept.setTicks member [] (ticksOf mem d.running - 1)
      refine ⟨fun other born different => Machine.left_congr ?_, .inl ⟨runs', ?_⟩⟩
      · have away := apart other born different
        exact (Bytes.write8_of_ne _ _ (by omega)).trans (same other born different)
      · have stored : ticksOf (storeTicks mem d.running (ticksOf mem d.running - 1)) d.running =
            ticksOf mem d.running - 1 := if_pos rfl
        rw [ticks] at left
        have positive : 1 ≤ (ticksOf m.mem d.running).toNat := by
          rw [Nat.one_le_iff_ne_zero]
          exact fun zero => left (UInt8.toNat_inj.mp zero)
        have counted : (ticksOf m.mem d.running - 1).toNat = (ticksOf m.mem d.running).toNat - 1 :=
          UInt8.toNat_sub_of_le _ 1 (UInt8.le_iff_toNat_le.mpr positive)
        rw [Machine.left, Machine.left, stored, ticks, counted]
        exact Nat.sub_add_cancel positive

/-- `thread_block` leaves the ticks of all threads. -/
theorem threadBlock_left (runs : m.Runs d) (sound : d.Sound m.idleThread) (born : other ∈ d.born)
    {oldStatus : IntrStatus} (run : threadBlock m reason.status = .ok (oldStatus, m')) :
    m'.left other = m.left other := by
  have member := sound.running_mem
  have current : ({ m with intr := .off } : Machine).runningThread = d.running := runs.running
  simp only [threadBlock, intrDisable_eq, bind_eq_ok, current] at run
  obtain ⟨-, -, found, scheduled, run⟩ := run
  cases run
  have asleep := (runs.setIntr .off).setStatus member (.asleep reason)
  rw [schedule_left_vacant asleep (sound.vacant_sleep reason) member born scheduled]
  exact (runs.setIntr .off).storeStatus_left member born _

/-- So does `thread_yield`. -/
theorem threadYield_left (runs : m.Runs d) (sound : d.Sound m.idleThread) (born : other ∈ d.born)
    {oldStatus : IntrStatus} (run : threadYield m = .ok (oldStatus, m')) :
    m'.left other = m.left other := by
  have member := sound.running_mem
  have off := runs.setIntr .off
  obtain ⟨appended, -⟩ := off.append member sound.running_not_mem_ready
  have current : m.runningThread = d.running := runs.running
  simp only [threadYield, intrDisable_eq, bind_eq_ok, current] at run
  obtain ⟨-, -, -, -, found, scheduled, run⟩ := run
  cases run
  rw [schedule_left_vacant (appended.setStatus member .ready) sound.vacant_enqueue member born
    scheduled]
  refine Eq.trans ?_ (off.listAppend_left member born)
  exact appended.storeStatus_left member born .ready

/-- Pages that are obtained leave the ticks of the threads that there are. -/
theorem Machine.Schedules.grows_left (schedules : m.Schedules d idle) {own : Nat}
    (grows : Grows own m m') (clear : m.pageBit own = false) (born : other ∈ d.born) :
    m'.left other = m.left other :=
  Machine.left_congr ((schedules.held other born).bytes grows clear (by omega) (by omega))

theorem Machine.Schedules.obtained_left (schedules : m.Schedules d idle)
    (run : getKernelPages m 1 = .ok (thread, m')) (born : other ∈ d.born) :
    m'.left other = m.left other := by
  obtain ⟨kernelPages, userPages, laid⟩ := schedules.laid
  obtain ⟨own, -, -, obtains⟩ := getKernelPages_obtains laid (by decide) (by decide) run
  exact schedules.grows_left (obtains.grows own) (obtains.clear own (Nat.le_refl _) (by omega)) born

/-- A thread's ticks are in neither list. -/
theorem Machine.Schedules.ticks_offLists (schedules : m.Schedules d idle) (held : m.PageHeld thread)
    (born : other ∈ d.born) :
    OffLists m.image (d.born ++ [thread]) (thread :: d.ready) (other + 53) := by
  have placed := m.image.ready_placed
  have placed' := m.image.all_placed
  have low := (schedules.held other born).lower
  have page := (schedules.held other born).threadPage
  have tags : ∀ query ∈ d.born ++ [thread], other + 53 < query + 92 ∨ query + 108 ≤ other + 53 := by
    intro query member
    have page' : ThreadPage query := by
      rcases List.mem_append.mp member with isBorn | new
      · exact (schedules.held query isBorn).threadPage
      · rw [List.mem_singleton.mp new]
        exact held.threadPage
    by_cases same : other = query
    · omega
    · have apart := page.apart page' same
      omega
  refine ⟨by omega, by omega, fun query moved => ?_, fun query isBorn => ?_⟩
  · have isBorn : query ∈ d.born ++ [thread] := by
      rcases List.mem_cons.mp moved with rfl | isReady
      · simp
      · exact List.mem_append_left _ (schedules.runs.queued query isReady)
    have away := tags query isBorn
    omega
  · have away := tags query isBorn
    omega

/-- `thread_start` leaves the ticks of the other threads. -/
theorem Machine.Schedules.start_left (schedules : m.Schedules d idle) (held : m.PageHeld thread)
    (absent : d.phase thread = .absent) (notMain : thread ≠ m.mainThread) {start : Start}
    (fits : NameFits start.name) (run : threadStart m thread start = .ok m')
    (born : other ∈ d.born) :
    m'.left other = m.left other := by
  obtain ⟨mem, run', -, -, bytes⟩ := threadStart_runs schedules.runs schedules.listed
    schedules.sound.toQueued held.threadPage absent start fits notMain
  rw [run] at run'
  cases run'
  have away := schedules.ticks_offLists held born
  have different : other ≠ thread := by
    rintro rfl
    exact (schedules.sound.born other).mp born absent
  have apart := (schedules.held other born).threadPage.apart held.threadPage different
  refine Machine.left_congr (bytes _ ⟨away.list, away.all, ?_, ?_⟩ (by omega))
  · exact fun query isReady => away.readyTags query (List.mem_cons_of_mem _ isReady)
  · exact fun query isBorn => away.allTags query (List.mem_append_left _ isBorn)

/-- So does the last part of `process_execute`. -/
theorem Machine.Schedules.enlist_left (schedules : m.Schedules d idle) (held : m.PageHeld thread)
    (absent : d.phase thread = .absent)
    (runs : m.Runs { d.setPhase thread .ready with born := d.born ++ [thread] })
    (run : enlistProcess m thread = .ok m') (born : other ∈ d.born) :
    m'.left other = m.left other := by
  obtain ⟨mem, -, -, entered, -, -, bytes⟩ :=
    enter_runs (runs.setIntr .off) schedules.off.listed schedules.sound.toQueued absent
  simp only [enlistProcess, intrDisable_eq, bind_eq_ok] at run
  obtain ⟨-, -, -, -, -, -, -, -, run⟩ := run
  cases run
  have image : (listAppend { m with intr := .off } m.image.threadReadyList
    (generalTag thread)).image =
      m.image := by
    rw [listAppend_eq]
  apply Machine.left_congr
  rw [setIntrStatus_eq, image, entered]
  exact bytes _ (schedules.ticks_offLists held born)

/-- The machine holds any dispatcher with the same threads that it runs. -/
theorem Machine.Schedules.swap (schedules : m.Schedules d idle) (runs : m.Runs d')
    (sound : d'.Sound idle) (born : d'.born = d.born) : m.Schedules d' idle :=
  ⟨runs, sound, born ▸ schedules.listed, born ▸ schedules.held, schedules.laid, schedules.main⟩

end

/-! ## Runs with their calls -/

namespace Tasks

/-- The calls that a step may be. -/
inductive Call where
  | start
  | execute
  | timer
  | block
  | unblock
  | yield
  | activate
  deriving DecidableEq, Repr

/-- The steps, each with its call. -/
inductive Does : Call → Tasks → Tasks → Prop where
  | start {s : Tasks} (start : Start) {thread : Nat} {m : Machine} : NameFits start.name →
      threadStartPage s.machine.off start = .ok (thread, m) →
      Does .start s ⟨m, s.threads ++ [thread]⟩
  | execute {s : Tasks} (execution : Execution) {thread : Nat} {m : Machine} :
      NameFits execution.name → processExecute s.machine.off execution = .ok (thread, m) →
      Does .execute s ⟨m, s.threads ++ [thread]⟩
  | timer {s : Tasks} {m : Machine} : timerIntrHandler s.machine.off = .ok m →
      Does .timer s ⟨m, s.threads⟩
  | block {s : Tasks} (reason : Asleep) {oldStatus : IntrStatus} {m : Machine} :
      threadBlock s.machine.off reason.status = .ok (oldStatus, m) → Does .block s ⟨m, s.threads⟩
  | unblock {s : Tasks} (thread : Nat) (reason : Asleep) {m : Machine} : thread ∈ s.threads →
      statusOf s.machine.mem thread = reason.status.code →
      threadUnblock s.machine.off thread = .ok m → Does .unblock s ⟨m, s.threads⟩
  | yield {s : Tasks} {oldStatus : IntrStatus} {m : Machine} :
      threadYield s.machine.off = .ok (oldStatus, m) → Does .yield s ⟨m, s.threads⟩
  | activate {s : Tasks} (pagedirPhyAddr : Nat) :
      Does .activate s ⟨{ s.machine with cr3 := pagedirPhyAddr }, s.threads⟩

variable {s next : Tasks} {thread waits : Nat} {call : Call}

/-- These are the steps of the scheduler. -/
theorem step_iff : Step s next ↔ ∃ call, Does call s next := by
  constructor
  · intro taken
    cases taken with
    | start start fits run => exact ⟨_, .start start fits run⟩
    | execute execution fits run => exact ⟨_, .execute execution fits run⟩
    | timer run => exact ⟨_, .timer run⟩
    | block reason run => exact ⟨_, .block reason run⟩
    | unblock thread reason member status run => exact ⟨_, .unblock thread reason member status run⟩
    | yield run => exact ⟨_, .yield run⟩
    | activate pagedirPhyAddr => exact ⟨_, .activate pagedirPhyAddr⟩
  · rintro ⟨call, does⟩
    cases does with
    | start start fits run => exact .start start fits run
    | execute execution fits run => exact .execute execution fits run
    | timer run => exact .timer run
    | block reason run => exact .block reason run
    | unblock thread reason member status run => exact .unblock thread reason member status run
    | yield run => exact .yield run
    | activate pagedirPhyAddr => exact .activate pagedirPhyAddr

/-- The timer interrupts that a call is. -/
def Call.ticks : Call → Nat
  | .timer => 1
  | _ => 0

/-- The ticks that a call may put in front of a ready thread: what fits in a byte, and one. -/
def Call.grants : Call → Nat
  | .unblock => 256
  | _ => 0

/-- A thread is ready, and waits for this many ticks. -/
def Waiting (thread : Nat) (s : Tasks) (waits : Nat) : Prop :=
  ∃ d : Dispatcher Nat Asleep, s.machine.Schedules d s.machine.idleThread ∧ d.born = s.threads ∧
    thread ∈ d.ready ∧ d.wait s.machine.left thread = waits

/-- Once another thread is dispatched, it is the waiting one, or the one that ran is no longer
waited for. -/
theorem waiting_dispatch {m m' : Machine} {d e : Dispatcher Nat Asleep} {threads : List Nat}
    (schedules : m.Schedules d m.idleThread)
    (after : m'.Schedules (e.dispatch m'.idleThread) m'.idleThread) (born : e.born = threads)
    (queue : thread ∈ e.ready ∧ e.ready.takeWhile (· ≠ thread) = d.ready.takeWhile (· ≠ thread))
    (running : e.running = d.running)
    (same : ∀ other ∈ d.born, other ≠ d.running → m'.left other = m.left other) :
    m'.running = thread ∧ d.wait m.left thread = m.left d.running + 1 ∨
      ∃ waits, Waiting thread ⟨m', threads⟩ waits ∧
        waits + (m.left d.running + 1) = d.wait m.left thread := by
  have equal : e.wait m.left thread = d.wait m.left thread := by
    rw [Dispatcher.wait_eq, Dispatcher.wait_eq, queue.2, running]
  rw [← equal]
  by_cases next : e.next m'.idleThread = thread
  · refine .inl ⟨after.runs.running.trans next, ?_⟩
    rw [Dispatcher.wait_next queue.1 next, running]
  · refine .inr ⟨_, ⟨_, after, born, Dispatcher.mem_dispatch queue.1 next, rfl⟩, ?_⟩
    rw [← running]
    refine Dispatcher.wait_dispatch queue.1 next fun other front => ?_
    rw [queue.2] at front
    have isReady := List.takeWhile_subset _ front
    refine same other (schedules.runs.queued other isReady) ?_
    rintro rfl
    exact schedules.sound.running_not_mem_ready isReady

/-- A timer interrupt makes a ready thread wait for one tick less, and it runs after the last. -/
theorem Waiting.timer (waiting : Waiting thread s waits) (does : Does .timer s next) :
    next.machine.running = thread ∧ waits = 1 ∨
      ∃ waits', Waiting thread next waits' ∧ waits' + 1 = waits := by
  obtain ⟨d, schedules, born, ready, rfl⟩ := waiting
  have off := schedules.off
  cases does with
  | @timer _ m run =>
      obtain ⟨m', d', run', after, born'⟩ := off.timer rfl
      rw [run] at run'
      cases run'
      obtain ⟨found, -, run', -, -, keeps⟩ := timerIntrHandler_runs off.runs off.sound rfl
      rw [run] at run'
      cases run'
      have idle : m.idleThread = s.machine.idleThread := keeps.idleThread
      obtain ⟨same, ⟨runs, used⟩ | ⟨runs, up⟩⟩ := timerIntrHandler_left off.runs off.sound rfl run
      · refine .inr ⟨_, ⟨d, after.swap runs (idle ▸ schedules.sound) born'.symm, born, ready, rfl⟩,
          ?_⟩
        refine Dispatcher.wait_tick used fun other isReady =>
          same other (off.runs.queued other isReady) ?_
        rintro rfl
        exact schedules.sound.running_not_mem_ready isReady
      · have sound := (idle ▸ schedules.sound.vacant_enqueue.dispatch :
          ((d.enqueue d.running).dispatch m.idleThread).Sound m.idleThread)
        have runs : m.Runs ((d.enqueue d.running).dispatch m.idleThread) := idle ▸ runs
        have dispatched := waiting_dispatch off (after.swap runs sound born'.symm) born
          ⟨List.mem_append_left _ ready, Dispatcher.takeWhile_ne_append ready _⟩ rfl same
        rw [up] at dispatched
        exact dispatched

/-- Every call makes it run, or wait for no more than the call grants to others. -/
theorem Waiting.does (waiting : Waiting thread s waits) (does : Does call s next)
    (others : next.machine.running ≠ thread) :
    ∃ waits', Waiting thread next waits' ∧ waits' + call.ticks ≤ waits + call.grants := by
  have whole := waiting
  obtain ⟨d, schedules, born, ready, rfl⟩ := waiting
  have off := schedules.off
  have inside : ∀ other ∈ d.before thread, other ∈ d.born := by
    intro other member
    rcases List.mem_cons.mp member with rfl | front
    · exact schedules.sound.running_mem
    · exact schedules.runs.queued other (List.takeWhile_subset _ front)
  cases does with
  | @start _ start fresh m fits run =>
      rw [threadStartPage, bind_eq_ok] at run
      obtain ⟨⟨page, m1⟩, got, run⟩ := run
      obtain ⟨m2, started, run⟩ := bind_eq_ok.mp run
      cases run
      obtain ⟨grown, held, absent, notMain, same⟩ := off.obtained got
      obtain ⟨mem, run, after, -⟩ := grown.start held absent notMain start fits
      rw [started] at run
      cases run
      have idle : m1.idleThread = s.machine.idleThread := same
      rw [← idle] at after
      refine ⟨_, ⟨d.start fresh, after, congrArg (· ++ [fresh]) born, List.mem_append_left _ ready,
        rfl⟩, ?_⟩
      have kept : ∀ other ∈ d.before thread, ({ m1 with mem := mem } : Machine).left other =
          s.machine.left other := fun other member =>
        (grown.start_left held absent notMain fits started (inside other member)).trans
          (off.obtained_left got (inside other member))
      rw [Dispatcher.wait_start ready, Dispatcher.wait_congr kept]
      rfl
  | @execute _ execution fresh m fits run =>
      rw [processExecute, bind_eq_ok] at run
      obtain ⟨⟨page, m1⟩, prepared, run⟩ := run
      obtain ⟨m2, enlisted, run⟩ := bind_eq_ok.mp run
      cases run
      obtain ⟨grown, held, absent, adopted, same⟩ := off.prepared fits prepared
      obtain ⟨m', run, after, same'⟩ := grown.enlist held absent adopted
      rw [enlisted] at run
      cases run
      have idle : m.idleThread = s.machine.idleThread := same'.trans same
      obtain ⟨kernelPages, userPages, laid⟩ := off.laid
      obtain ⟨own, -, -, clear, -, grows, -⟩ := prepareProcess_ok laid off.main fits prepared
      rw [← idle] at after
      refine ⟨_, ⟨d.start fresh, after, congrArg (· ++ [fresh]) born, List.mem_append_left _ ready,
        rfl⟩, ?_⟩
      have kept : ∀ other ∈ d.before thread, m.left other = s.machine.left other :=
        fun other member =>
          (grown.enlist_left held absent adopted enlisted (inside other member)).trans
            (off.grows_left grows clear (inside other member))
      rw [Dispatcher.wait_start ready, Dispatcher.wait_congr kept]
      rfl
  | timer run =>
      rcases whole.timer (.timer run) with ⟨runs, -⟩ | ⟨waits', waiting', fewer⟩
      · exact absurd runs others
      · exact ⟨waits', waiting', fewer.le⟩
  | @block _ reason _ m run =>
      obtain ⟨m', d', run', after, born'⟩ := off.block reason
      rw [run] at run'
      cases run'
      obtain ⟨found, run', runs, keeps⟩ := threadBlock_runs off.runs off.sound reason
      rw [run] at run'
      cases run'
      have idle : m.idleThread = s.machine.idleThread := keeps.idleThread
      have sound := (idle ▸ (schedules.sound.vacant_sleep reason).dispatch :
        ((d.sleep reason).dispatch m.idleThread).Sound m.idleThread)
      have runs : m.Runs ((d.sleep reason).dispatch m.idleThread) := idle ▸ runs
      have same : ∀ other ∈ d.born, m.left other = s.machine.off.left other :=
        fun other isBorn => threadBlock_left off.runs off.sound isBorn run
      rcases waiting_dispatch off (after.swap runs sound born'.symm) born ⟨ready, rfl⟩ rfl
          fun other isBorn _ => same other isBorn with ⟨runs', -⟩ | ⟨waits', waiting', fewer⟩
      · exact absurd runs' others
      · exact ⟨waits', waiting', (Nat.le_add_right _ _).trans fewer.le⟩
  | @unblock _ woken reason m member status run =>
      obtain ⟨m', d', run', after, born'⟩ := off.unblock (born ▸ member) status
      rw [run] at run'
      cases run'
      obtain ⟨reason', asleep⟩ := off.asleep_of_status (born ▸ member) status
      obtain ⟨found, run', runs, keeps, -⟩ :=
        threadUnblock_runs off.runs off.sound.toQueued asleep
      rw [run] at run'
      cases run'
      have idle : m.idleThread = s.machine.idleThread := keeps.idleThread
      have sound := (idle ▸ schedules.sound.wake asleep : (d.wake woken).Sound m.idleThread)
      refine ⟨_, ⟨_, after.swap runs sound born'.symm, born, List.mem_cons_of_mem _ ready, rfl⟩, ?_⟩
      have same : ∀ other ∈ d.born, m.left other = s.machine.off.left other :=
        fun other isBorn => threadUnblock_left off.runs (born ▸ member) isBorn run
      have different : woken ≠ thread := by
        rintro rfl
        rw [(schedules.sound.ready woken).mp ready] at asleep
        cases asleep
      have kept : d.wait m.left thread = d.wait s.machine.left thread :=
        Dispatcher.wait_congr fun other member => same other (inside other member)
      have small := m.left_le woken
      rw [Dispatcher.wait_wake different, kept]
      simp only [Call.ticks, Call.grants]
      omega
  | @yield _ _ m run =>
      obtain ⟨m', d', run', after, born'⟩ := off.yield
      rw [run] at run'
      cases run'
      obtain ⟨found, run', runs, keeps⟩ := threadYield_runs off.runs off.sound
      rw [run] at run'
      cases run'
      have idle : m.idleThread = s.machine.idleThread := keeps.idleThread
      have sound := (idle ▸ schedules.sound.vacant_enqueue.dispatch :
        ((d.enqueue d.running).dispatch m.idleThread).Sound m.idleThread)
      have runs : m.Runs ((d.enqueue d.running).dispatch m.idleThread) := idle ▸ runs
      have same : ∀ other ∈ d.born, m.left other = s.machine.off.left other :=
        fun other isBorn => threadYield_left off.runs off.sound isBorn run
      rcases waiting_dispatch off (after.swap runs sound born'.symm) born
          ⟨List.mem_append_left _ ready, Dispatcher.takeWhile_ne_append ready _⟩ rfl
          fun other isBorn _ => same other isBorn with ⟨runs', -⟩ | ⟨waits', waiting', fewer⟩
      · exact absurd runs' others
      · exact ⟨waits', waiting', (Nat.le_add_right _ _).trans fewer.le⟩
  | activate pagedirPhyAddr =>
      exact ⟨_, ⟨d, schedules.setCr3 pagedirPhyAddr, born, ready, rfl⟩, Nat.le_refl _⟩

/-- A ready thread waits for the ticks of the running thread and of those in front of it. -/
theorem Waiting.of_listed (reachable : taskSystem.Reachable s) {front back : List Nat}
    (listed : ListAt s.machine.mem s.machine.image.threadReadyList
      ((front ++ thread :: back).map generalTag)) :
    Waiting thread s
      ((s.machine.running :: front).map fun other => (ticksOf s.machine.mem other).toNat +
        1).sum := by
  obtain ⟨d, schedules, born⟩ := Inv.reachable reachable
  have queue : d.ready = front ++ thread :: back :=
    generalTag_injective.list_map (ListAt.unique schedules.runs.ready listed)
  have absent : thread ∉ front := by
    have nodup := schedules.sound.nodup
    rw [queue, List.nodup_append] at nodup
    exact fun member => nodup.2.2 thread member thread (List.mem_cons_self ..) rfl
  refine ⟨d, schedules, born, by simp [queue], ?_⟩
  rw [Dispatcher.wait, Dispatcher.before, queue, Dispatcher.takeWhile_ne_split absent,
    ← schedules.runs.running]
  rfl

/-- A thread that waits does not run. -/
theorem Waiting.not_running (waiting : Waiting thread s waits) : s.machine.running ≠ thread := by
  obtain ⟨d, schedules, -, ready, -⟩ := waiting
  rw [schedules.runs.running]
  rintro rfl
  exact schedules.sound.running_not_mem_ready ready

theorem Waiting.pos (waiting : Waiting thread s waits) : 0 < waits := by
  obtain ⟨d, -, -, -, rfl⟩ := waiting
  exact Dispatcher.wait_pos ..

theorem sum_ticks (calls : List Call) : (calls.map Call.ticks).sum = calls.count .timer := by
  induction calls with
  | nil => rfl
  | cons call calls ih => cases call <;> simp [Call.ticks, ih, Nat.add_comm]

theorem sum_grants (calls : List Call) :
    (calls.map Call.grants).sum = 256 * calls.count .unblock := by
  induction calls with
  | nil => rfl
  | cons call calls ih => cases call <;> simp [Call.grants, ih, Nat.mul_add, Nat.add_comm]

/-- While it does not run, the timer interrupts are fewer than what it waits for and what is
granted to others. -/
theorem Waiting.run {calls : List Call} {last : Tasks} (waiting : Waiting thread s waits)
    (run : Run (fun call state next => Does call state next ∧ ¬next.machine.running = thread) calls
      s last) :
    calls.count .timer < waits + 256 * calls.count .unblock := by
  have each : ∀ call state next waits, Waiting thread state waits →
      (Does call state next ∧ ¬next.machine.running = thread) →
      ∃ left, Waiting thread next left ∧ left + call.ticks ≤ waits + call.grants :=
    fun _ _ _ _ waiting does => waiting.does does.1 does.2
  obtain ⟨left, waiting', paid⟩ := run.account each waiting
  have positive := waiting'.pos
  rw [sum_ticks, sum_grants] at paid
  omega

/-- The timer interrupts make it wait for one tick less each. -/
theorem Waiting.timers {count : Nat} {last : Tasks} (waiting : Waiting thread s waits)
    (run : Run Does (List.replicate count .timer) s last) (fewer : count < waits) :
    Waiting thread last (waits - count) := by
  induction count generalizing last with
  | zero =>
      obtain rfl := run.of_nil
      exact waiting
  | succ count ih =>
      rw [List.replicate_succ'] at run
      obtain ⟨state, before, does⟩ := run.of_append
      have waiting' := ih before (by omega)
      rcases waiting'.timer does with ⟨-, up⟩ | ⟨waits', waiting'', one⟩
      · omega
      · obtain rfl : waits' = waits - (count + 1) := by omega
        exact waiting''

/-- Timer interrupts can come at any time. -/
theorem exists_timers (reachable : taskSystem.Reachable s) (count : Nat) :
    ∃ last, Run Does (List.replicate count .timer) s last ∧ taskSystem.Reachable last := by
  induction count with
  | zero => exact ⟨s, .refl s, reachable⟩
  | succ count ih =>
      obtain ⟨state, run, reachable'⟩ := ih
      obtain ⟨m, handled⟩ := (Inv.reachable reachable').noneFails.timer
      rw [List.replicate_succ']
      exact ⟨_, run.step (.timer handled), reachable'.step (.timer handled)⟩

theorem two_threads (reachable : taskSystem.Reachable s) : 2 ≤ s.threads.length := by
  induction reachable with
  | init initial =>
      obtain ⟨m, kernelPages, userPages, entry, idle, -, -, -, -, -, threads⟩ := initial
      simp [threads]
  | step _ taken ih =>
      cases taken with
      | start => simp only [List.length_append]; omega
      | execute => simp only [List.length_append]; omega
      | timer => exact ih
      | block => exact ih
      | unblock => exact ih
      | yield => exact ih
      | activate => exact ih

/-- Some thread is ready, or can be made so: there are two, and one of them runs. -/
theorem exists_ready (reachable : taskSystem.Reachable s) :
    ∃ (state : Tasks) (front back : List Nat) (thread : Nat), taskSystem.Reachable state ∧
      ListAt state.machine.mem state.machine.image.threadReadyList
        ((front ++ thread :: back).map generalTag) := by
  obtain ⟨d, schedules, born⟩ := Inv.reachable reachable
  have two := two_threads reachable
  obtain ⟨thread, member, different⟩ : ∃ thread ∈ d.born, thread ≠ d.running := by
    by_contra alone
    have all : ∀ thread ∈ d.born, thread = d.running := fun thread member =>
      by_contra fun different => alone ⟨thread, member, different⟩
    have nodup := schedules.sound.bornNodup
    rw [List.eq_replicate_of_mem all, List.nodup_replicate, born] at nodup
    omega
  have listed : ∀ {state : Tasks} {d : Dispatcher Nat Asleep}, state.machine.Schedules d
      state.machine.idleThread → thread ∈ d.ready → ∃ front back : List Nat,
      ListAt state.machine.mem state.machine.image.threadReadyList
        ((front ++ thread :: back).map generalTag) := by
    intro state d schedules ready
    obtain ⟨front, back, queue⟩ := List.append_of_mem ready
    exact ⟨front, back, queue ▸ schedules.runs.ready⟩
  cases phase : d.phase thread with
  | absent => exact absurd phase ((schedules.sound.born thread).mp member)
  | running => exact absurd ((schedules.sound.running thread).mp phase) different
  | ready =>
      obtain ⟨front, back, list⟩ := listed schedules ((schedules.sound.ready thread).mpr phase)
      exact ⟨s, front, back, thread, reachable, list⟩
  | asleep reason =>
      have status : statusOf s.machine.mem thread = reason.status.code := by
        rw [schedules.runs.status thread member, phase]
        rfl
      obtain ⟨m, run, runs, keeps, -⟩ :=
        threadUnblock_runs schedules.off.runs schedules.off.sound.toQueued phase
      obtain ⟨m', d', run', after, born'⟩ := schedules.off.unblock member status
      rw [run] at run'
      cases run'
      have next := reachable.step (.unblock thread reason (born ▸ member) status run)
      have idle : m.idleThread = s.machine.idleThread := keeps.idleThread
      have sound := (idle ▸ schedules.sound.wake phase : (d.wake thread).Sound m.idleThread)
      obtain ⟨front, back, list⟩ := @listed ⟨m, s.threads⟩ _ (after.swap runs sound born'.symm)
        (List.mem_cons_self ..)
      exact ⟨_, front, back, thread, next, list⟩

end Tasks

/-- A ready thread gets the processor at some point of every run, the steps of which are written
down with the states they lead to, in which there are as many timer interrupts as the running
thread and the threads in front of it in the ready list have ticks left, with one for each of
these threads, and 256 for every thread that is woken meanwhile. -/
theorem ready_runs {s : Tasks} (reachable : taskSystem.Reachable s) {front back : List Nat}
    {thread : Nat} (listed : ListAt s.machine.mem s.machine.image.threadReadyList
      ((front ++ thread :: back).map generalTag)) {trace : List (Tasks.Call × Tasks)}
    {last : Tasks} (run : Run (traced Tasks.Does) trace s last)
    (enough : ((s.machine.running :: front).map fun other =>
      (ticksOf s.machine.mem other).toNat + 1).sum +
        256 * (trace.map Prod.fst).count .unblock ≤ (trace.map Prod.fst).count .timer) :
    ∃ taken ∈ trace, taken.2.machine.running = thread := by
  have waiting := Tasks.Waiting.of_listed reachable listed
  rcases run.visits_or fun state => state.machine.running = thread with visited | others
  · exact visited
  · have fewer := waiting.run others
    omega

/-- There are runs of any number of timer interrupts alone, and they give a ready thread the
processor exactly when the running thread and those in front of it have used their ticks. -/
theorem timers_run {s : Tasks} (reachable : taskSystem.Reachable s) {front back : List Nat}
    {thread : Nat} (listed : ListAt s.machine.mem s.machine.image.threadReadyList
      ((front ++ thread :: back).map generalTag)) {count : Nat}
    (ticks : count = ((s.machine.running :: front).map fun other =>
      (ticksOf s.machine.mem other).toNat + 1).sum) :
    (∀ length, ∃ last, Run Tasks.Does (List.replicate length .timer) s last) ∧
    (∃ last, Run Tasks.Does (List.replicate count .timer) s last ∧
      last.machine.running = thread) ∧
    ∀ earlier < count, ∀ state, Run Tasks.Does (List.replicate earlier .timer) s state →
      state.machine.running ≠ thread := by
  have waiting := ticks ▸ Tasks.Waiting.of_listed reachable listed
  refine ⟨fun length => ?_, ?_, ?_⟩
  · obtain ⟨last, run, -⟩ := Tasks.exists_timers reachable length
    exact ⟨last, run⟩
  · obtain ⟨last, run, -⟩ := Tasks.exists_timers reachable count
    refine ⟨last, run, ?_⟩
    have positive := waiting.pos
    obtain ⟨earlier, rfl⟩ : ∃ earlier, count = earlier + 1 := ⟨count - 1, by omega⟩
    rw [List.replicate_succ'] at run
    obtain ⟨state, before, does⟩ := run.of_append
    have almost := waiting.timers before (Nat.lt_succ_self _)
    rcases almost.timer does with ⟨runs, -⟩ | ⟨waits, waiting', one⟩
    · exact runs
    · have positive := waiting'.pos
      omega
  · intro earlier fewer state run
    exact (waiting.timers run fewer).not_running

/-- A run in which a thread is ready, and then only the timer interrupts. -/
theorem ready_runs_timers : ∃ s front back thread last trace,
    ListAt s.machine.mem s.machine.image.threadReadyList
      ((front ++ thread :: back).map generalTag) ∧
      Run (traced Tasks.Does) trace s last ∧ ∃ taken ∈ trace, taken.2.machine.running = thread := by
  obtain ⟨s, reachable, -⟩ := Tasks.kthreadInit_booted
  obtain ⟨state, front, back, thread, reachable', listed⟩ := Tasks.exists_ready reachable
  obtain ⟨last, run, -⟩ := Tasks.exists_timers reachable'
    ((state.machine.running :: front).map fun other =>
      (ticksOf state.machine.mem other).toNat + 1).sum
  obtain ⟨trace, traced, calls⟩ := run.exists_traced
  have visited := ready_runs reachable' listed traced (by simp [calls, List.count_replicate])
  exact ⟨state, front, back, thread, last, trace, listed, traced, visited⟩

/-- The same thread, with the number of the timer interrupts. -/
theorem timers_run_ready : ∃ s front back thread count,
    ListAt s.machine.mem s.machine.image.threadReadyList
      ((front ++ thread :: back).map generalTag) ∧
      (∃ last, Run Tasks.Does (List.replicate count .timer) s last ∧
        last.machine.running = thread) := by
  obtain ⟨s, reachable, -⟩ := Tasks.kthreadInit_booted
  obtain ⟨state, front, back, thread, reachable', listed⟩ := Tasks.exists_ready reachable
  exact ⟨state, front, back, thread, _, listed, (timers_run reachable' listed rfl).2.1⟩

end Pumelo
