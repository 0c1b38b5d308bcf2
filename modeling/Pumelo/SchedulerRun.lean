import Pumelo.Foundation.System
import Pumelo.Process

/-!
# Runs of the scheduler

From `kthread_init` on, threads and processes are started, and the running one is
preempted, yields, blocks or wakes another.  Each call is one step, with interrupts off.
The dispatcher that the machine holds is sound in every state, whichever thread gives up
the processor, the idle thread among them.
-/

namespace Pumelo

open Foundation

/-- The machine with interrupts off. -/
def Machine.off (m : Machine) : Machine := { m with intr := .off }

/-- The machine and the threads that were started. -/
structure Tasks where
  machine : Machine
  threads : List Nat

namespace Tasks

/-- The calls, each with interrupts off. The directory that `schedule` loads in
`process_activate` is any. -/
inductive Step : Tasks → Tasks → Prop where
  | start {s : Tasks} (start : Start) {thread : Nat} {m : Machine} : NameFits start.name →
      threadStartPage s.machine.off start = .ok (thread, m) →
      Step s ⟨m, s.threads ++ [thread]⟩
  | execute {s : Tasks} (execution : Execution) {thread : Nat} {m : Machine} :
      NameFits execution.name → processExecute s.machine.off execution = .ok (thread, m) →
      Step s ⟨m, s.threads ++ [thread]⟩
  | timer {s : Tasks} {m : Machine} : timerIntrHandler s.machine.off = .ok m →
      Step s ⟨m, s.threads⟩
  | block {s : Tasks} (reason : Asleep) {oldStatus : IntrStatus} {m : Machine} :
      threadBlock s.machine.off reason.status = .ok (oldStatus, m) → Step s ⟨m, s.threads⟩
  | unblock {s : Tasks} (thread : Nat) (reason : Asleep) {m : Machine} : thread ∈ s.threads →
      statusOf s.machine.mem thread = reason.status.code →
      threadUnblock s.machine.off thread = .ok m → Step s ⟨m, s.threads⟩
  | yield {s : Tasks} {oldStatus : IntrStatus} {m : Machine} :
      threadYield s.machine.off = .ok (oldStatus, m) → Step s ⟨m, s.threads⟩
  | activate {s : Tasks} (pagedirPhyAddr : Nat) :
      Step s ⟨{ s.machine with cr3 := pagedirPhyAddr }, s.threads⟩

/-- After `kthread_init`, with the pools that `mem_init` laid out. The main thread's page
lies between the bitmaps and the kernel heap. -/
def Initial (s : Tasks) : Prop :=
  ∃ (m : Machine) (kernelPages userPages entry idle : Nat), Laid m kernelPages userPages ∧
    m.running % 4096 = 0 ∧ 0xc009e000 ≤ m.running ∧ m.running + 4096 ≤ kernelHeapStart ∧
    kthreadInitPage m entry idle = .ok s.machine ∧ s.threads = [m.running, s.machine.idleThread]

end Tasks

/-- The scheduler with its threads. -/
def taskSystem : System Tasks where
  init := Tasks.Initial
  step := Tasks.Step

/-- Where `schedule` is called from. -/
inductive ScheduleCall where
  | timer
  | block (reason : Asleep)
  | yield
  deriving DecidableEq, Repr

/-- The machine in which the call finds itself. -/
def ScheduleCall.machine (m : Machine) : ScheduleCall → Machine
  | timer => { m with
      mem := m.mem.write32 (m.runningThread + 56) (m.mem.read32 (m.runningThread + 56) + 1)
      ticks := (m.ticks + 1) % 2 ^ 32 }
  | block reason => { m with mem := storeStatus m.mem m.runningThread reason.status }
  | yield =>
      let m' := listAppend m m.image.threadReadyList (generalTag m.runningThread)
      { m' with mem := storeStatus m'.mem m.runningThread .ready }

/-- `schedule` returns. Where it finds the ready list empty the idle thread sleeps, so that it
may be woken, and what it takes a thread from is not empty. -/
structure SchedulesFrom (m : Machine) : Prop where
  returns : ∃ m', schedule m = .ok m'
  idle : ∀ requeued, requeue m m.runningThread = .ok requeued →
    listEmpty requeued.mem requeued.image.threadReadyList →
    ∃ reason : Asleep, statusOf requeued.mem requeued.idleThread = reason.status.code
  filled : ∀ requeued woken, requeue m m.runningThread = .ok requeued →
    wakeIdle requeued = .ok woken → ¬listEmpty woken.mem woken.image.threadReadyList

namespace Tasks

/-- No assertion fails in the next call. What obtains pages may stop for want of them, but
then no assertion on the threads does. -/
structure NoneFails (s : Tasks) : Prop where
  schedules : ∀ call : ScheduleCall, SchedulesFrom (call.machine s.machine.off)
  timer : ∃ m, timerIntrHandler s.machine.off = .ok m
  block : ∀ reason : Asleep, ∃ result, threadBlock s.machine.off reason.status = .ok result
  unblock : ∀ thread ∈ s.threads, ∀ reason : Asleep,
    statusOf s.machine.mem thread = reason.status.code →
    ∃ m, threadUnblock s.machine.off thread = .ok m
  yield : ∃ result, threadYield s.machine.off = .ok result
  start : ∀ start : Start, NameFits start.name → ∀ thread m,
    getKernelPages s.machine.off 1 = .ok (thread, m) → ∃ m', threadStart m thread start = .ok m'
  execute : ∀ execution : Execution, NameFits execution.name → ∀ thread m,
    prepareProcess s.machine.off execution = .ok (thread, m) →
    ∃ m', enlistProcess m thread = .ok m'

end Tasks

/-- A thread's page is the main thread's, or a page of the heap that is in use. -/
structure Machine.PageHeld (m : Machine) (thread : Nat) : Prop where
  aligned : thread % 4096 = 0
  page : 0xc009e000 ≤ thread ∧ thread + 4096 ≤ kernelHeapStart ∨
    ∃ index, index < 2 ^ 15 ∧ thread = kernelHeapStart + 4096 * index ∧ m.pageBit index = true

/-- The machine holds the threads of a sound dispatcher, in pages of their own. -/
structure Machine.Schedules (m : Machine) (d : Dispatcher Nat Asleep) (idle : Nat) : Prop where
  runs : m.Runs d
  sound : d.Sound idle
  listed : m.ListsAll d.born
  held : ∀ thread ∈ d.born, m.PageHeld thread
  laid : ∃ kernelPages userPages, Laid m kernelPages userPages
  main : m.mainThread < kernelHeapStart

section

variable {m m' : Machine} {d d' : Dispatcher Nat Asleep} {idle thread own : Nat}

namespace Machine.PageHeld

theorem threadPage (held : m.PageHeld thread) : ThreadPage thread := by
  have page := held.page
  simp only [kernelHeapStart] at page
  refine ⟨held.aligned, ?_, ?_⟩
  · rcases page with main | ⟨index, small, rfl, -⟩
    · omega
    · omega
  · rcases page with main | ⟨index, small, rfl, -⟩
    · omega
    · omega

theorem lower (held : m.PageHeld thread) : 0xc009e000 ≤ thread := by
  have page := held.page
  simp only [kernelHeapStart] at page
  rcases page with main | ⟨index, small, rfl, -⟩
  · exact main.1
  · omega

/-- Whether a page is held depends on the bitmaps. -/
theorem congr (held : m.PageHeld thread) {kernelPages userPages : Nat}
    (laid : Laid m kernelPages userPages) (kernelVaddr : m'.kernelVaddr = m.kernelVaddr)
    (agree : ∀ query, 0xc009a000 ≤ query → query < 0xc009e000 → m'.mem query = m.mem query) :
    m'.PageHeld thread := by
  refine ⟨held.aligned, held.page.imp id ?_⟩
  rintro ⟨index, small, threadEq, used⟩
  have kernelLe := laid.kernelPages_le
  have userLe := laid.userPages_le
  have bitmapBits : m.kernelVaddr.vaddrBitmap.bitmapBits =
      0xc009a000 + kernelPages / 8 + userPages / 8 := by rw [laid.vaddr]
  refine ⟨index, small, threadEq, ?_⟩
  rw [← used, Machine.pageBit, kernelVaddr]
  exact Bytes.bit_congr (agree _ (by omega) (by omega))

/-- What is in a held page stays while pages are obtained. -/
theorem bytes (held : m.PageHeld thread) (grows : Grows own m m') (clear : m.pageBit own = false)
    {query : Nat} (lower : thread ≤ query) (upper : query < thread + 4096) :
    m'.mem query = m.mem query := by
  rcases held.page with main | ⟨index, small, rfl, used⟩
  · exact grows.below query (.inr (by omega)) (by omega)
  · have other : index ≠ own := by
      rintro rfl
      rw [used] at clear
      cases clear
    exact grows.heap index (by omega) other used query lower (heapPage_end index ▸ upper)

theorem grows (held : m.PageHeld thread) (grows : Grows own m m') : m'.PageHeld thread := by
  refine ⟨held.aligned, held.page.imp id ?_⟩
  rintro ⟨index, small, threadEq, used⟩
  exact ⟨index, small, threadEq, grows.marks index (by omega) used⟩

end Machine.PageHeld

namespace Machine.Schedules

theorem setIntr (schedules : m.Schedules d idle) (status : IntrStatus) :
    ({ m with intr := status } : Machine).Schedules d idle :=
  ⟨schedules.runs.setIntr status, schedules.sound, schedules.listed,
    fun thread member => ⟨(schedules.held thread member).1, (schedules.held thread member).2⟩,
    schedules.laid.imp fun _ => .imp fun _ laid => laid.congr (.of_eq rfl rfl), schedules.main⟩

/-- The threads are the same under every directory. -/
theorem setCr3 (schedules : m.Schedules d idle) (cr3 : Nat) :
    ({ m with cr3 := cr3 } : Machine).Schedules d idle :=
  ⟨schedules.runs.congr rfl rfl fun _ _ => rfl, schedules.sound, schedules.listed,
    fun thread member => ⟨(schedules.held thread member).1, (schedules.held thread member).2⟩,
    schedules.laid.imp fun _ => .imp fun _ laid => laid.congr (.of_eq rfl rfl), schedules.main⟩

theorem off (schedules : m.Schedules d idle) : m.off.Schedules d idle := schedules.setIntr .off

/-- Pages are obtained. -/
theorem grows (schedules : m.Schedules d idle) (grows : Grows own m m')
    (clear : m.pageBit own = false) : m'.Schedules d idle := by
  have image : m'.image = m.image := by rw [grows.same]
  have placed := m.image.ready_placed
  have placed' := m.image.all_placed
  have low : ∀ query, query < 0xc009a000 → m'.mem query = m.mem query := by
    intro query below
    apply grows.below query (.inl below)
    simp only [kernelHeapStart]
    omega
  have bytes : ∀ thread ∈ d.born, ∀ query, thread ≤ query → query < thread + 4096 →
      m'.mem query = m.mem query :=
    fun thread member query lower upper =>
      (schedules.held thread member).bytes grows clear lower upper
  refine ⟨?_, schedules.sound, ?_, ?_, ?_, ?_⟩
  · apply schedules.runs.congr image (by rw [grows.same])
    rintro query ((inList | ⟨thread, member, lower, upper⟩) | ⟨thread, member, inside⟩)
    · exact low query (by omega)
    · exact bytes thread (schedules.runs.queued thread member) query (by omega) (by omega)
    · exact bytes thread member query (by omega) (by omega)
  · apply schedules.listed.congr image
    · exact fun query lower upper => low query (by omega)
    · exact fun thread member query lower upper =>
        bytes thread member query (by omega) (by omega)
  · exact fun thread member => (schedules.held thread member).grows grows
  · exact schedules.laid.imp fun _ => .imp fun _ laid => laid.congr grows.layout
  · rw [grows.same]
    exact schedules.main

/-- A page that was not in use is none of a thread's. -/
theorem fresh (schedules : m.Schedules d idle) (clear : m.pageBit own = false) :
    d.phase (kernelHeapStart + 4096 * own) = .absent := by
  by_contra born
  have held := schedules.held _ ((schedules.sound.born _).mpr born)
  rcases held.page with main | ⟨index, small, threadEq, used⟩
  · omega
  · obtain rfl : index = own := by omega
    rw [used] at clear
    cases clear

/-- The threads change as the dispatcher does, and nothing but their entries. -/
theorem keeps (schedules : m.Schedules d idle) {moved : List Nat} (keeps : m.Keeps m' d.born moved)
    (subset : ∀ thread ∈ moved, thread ∈ d.born) (runs : m'.Runs d') (sound : d'.Sound idle)
    (born : d'.born = d.born) : m'.Schedules d' idle := by
  have placed := m.image.ready_placed
  have pages : ∀ thread ∈ d.born, ThreadPage thread :=
    fun thread member => (schedules.held thread member).threadPage
  have kernelVaddr : m'.kernelVaddr = m.kernelVaddr := by rw [keeps.machine]
  have pool : m'.pool = m.pool := by rw [keeps.machine]
  obtain ⟨kernelPages, userPages, laid⟩ := schedules.laid
  refine ⟨runs, sound, ?_, ?_, ?_, ?_⟩
  · rw [born]
    exact keeps.listsAll schedules.listed pages subset fun _ member => member
  · intro thread member
    rw [born] at member
    apply (schedules.held thread member).congr laid kernelVaddr
    intro query lower upper
    apply keeps.bytes query
    refine ⟨by omega, fun other isBorn => ?_, fun other isBorn => ?_, fun other isMoved => ?_⟩
    · have above := (schedules.held other isBorn).lower
      omega
    · have above := (schedules.held other isBorn).lower
      omega
    · have above := (schedules.held other (subset other isMoved)).lower
      omega
  · exact ⟨kernelPages, userPages, laid.congr (.of_eq pool kernelVaddr)⟩
  · rw [keeps.machine]
    exact schedules.main

/-- A thread was entered in the lists. -/
theorem entered (schedules : m.Schedules d idle) (held : m.PageHeld thread)
    (absent : d.phase thread = .absent) {mem : Bytes}
    (runs : ({ m with mem := mem } : Machine).Runs (d.start thread))
    (listed : ({ m with mem := mem } : Machine).ListsAll (d.start thread).born)
    (agree : ∀ query, 0xc009a000 ≤ query → query < 0xc009e000 → mem query = m.mem query) :
    ({ m with mem := mem } : Machine).Schedules (d.start thread) idle := by
  obtain ⟨kernelPages, userPages, laid⟩ := schedules.laid
  refine ⟨runs, schedules.sound.start absent, listed, fun other member => ?_,
    ⟨kernelPages, userPages, laid.of_mem mem⟩, schedules.main⟩
  rcases List.mem_append.mp member with born | new
  · exact (schedules.held other born).congr laid rfl agree
  · rw [List.mem_singleton.mp new]
    exact held.congr laid rfl agree

/-- `get_kernel_pages(1)` obtains a page for a new thread. -/
theorem obtained (schedules : m.Schedules d idle) (run : getKernelPages m 1 = .ok (thread, m')) :
    m'.Schedules d idle ∧ m'.PageHeld thread ∧ d.phase thread = .absent ∧
      thread ≠ m'.mainThread ∧ m'.idleThread = m.idleThread := by
  obtain ⟨kernelPages, userPages, laid⟩ := schedules.laid
  have kernelLe := laid.kernelPages_le
  obtain ⟨own, inside, rfl, obtains⟩ :=
    getKernelPages_obtains laid (by decide) (by decide) run
  have clear := obtains.clear own (Nat.le_refl _) (by omega)
  have used : m'.pageBit own = true := by
    rw [obtains.bits own (by omega), if_pos ⟨Nat.le_refl _, by omega⟩]
  have grown := schedules.grows (obtains.grows own) clear
  have main := grown.main
  refine ⟨grown, ⟨?_, .inr ⟨own, by omega, rfl, used⟩⟩, schedules.fresh clear, by omega, ?_⟩
  · simp only [kernelHeapStart]
    omega
  · rw [obtains.same]

/-- `thread_start` in a page that was obtained. -/
theorem start (schedules : m.Schedules d idle) (held : m.PageHeld thread)
    (absent : d.phase thread = .absent) (notMain : thread ≠ m.mainThread) (start : Start)
    (fits : NameFits start.name) :
    ∃ mem, threadStart m thread start = .ok { m with mem := mem } ∧
      ({ m with mem := mem } : Machine).Schedules (d.start thread) idle ∧
      ∀ query, 0xc009a000 ≤ query → query < 0xc009e000 → mem query = m.mem query := by
  have placed := m.image.ready_placed
  have placed' := m.image.all_placed
  obtain ⟨mem, run, runs, listed, bytes⟩ := threadStart_runs schedules.runs schedules.listed
    schedules.sound.toQueued held.threadPage absent start fits notMain
  have kept : ∀ query, 0xc009a000 ≤ query → query < 0xc009e000 → mem query = m.mem query := by
    intro query lower upper
    have above := held.lower
    apply bytes query ?_ (.inl (by omega))
    refine ⟨by omega, by omega, fun other isReady => ?_, fun other isBorn => ?_⟩
    · have above := (schedules.held other (schedules.runs.queued other isReady)).lower
      omega
    · have above := (schedules.held other isBorn).lower
      omega
  exact ⟨mem, run, schedules.entered held absent runs listed kept, kept⟩

/-- `process_execute` prepares a thread. -/
theorem prepared (schedules : m.Schedules d idle) {execution : Execution}
    (fits : NameFits execution.name) (run : prepareProcess m execution = .ok (thread, m')) :
    m'.Schedules d idle ∧ m'.PageHeld thread ∧ d.phase thread = .absent ∧
      m'.Runs { d.setPhase thread .ready with born := d.born ++ [thread] } ∧
      m'.idleThread = m.idleThread := by
  obtain ⟨kernelPages, userPages, laid⟩ := schedules.laid
  have kernelLe := laid.kernelPages_le
  obtain ⟨own, inside, rfl, clear, used, grows, status, magic⟩ :=
    prepareProcess_ok laid schedules.main fits run
  have grown := schedules.grows grows clear
  have absent := schedules.fresh clear
  have held : m'.PageHeld (kernelHeapStart + 4096 * own) := by
    refine ⟨?_, .inr ⟨own, by omega, rfl, used⟩⟩
    simp only [kernelHeapStart]
    omega
  have notBorn : kernelHeapStart + 4096 * own ∉ d.born := fun born =>
    (schedules.sound.born _).mp born absent
  refine ⟨grown, held, absent, grown.runs.adopt held.threadPage notBorn status magic, ?_⟩
  rw [grows.same]

/-- The last part of `process_execute`. -/
theorem enlist (schedules : m.Schedules d idle) (held : m.PageHeld thread)
    (absent : d.phase thread = .absent)
    (runs : m.Runs { d.setPhase thread .ready with born := d.born ++ [thread] }) :
    ∃ m', enlistProcess m thread = .ok m' ∧ m'.Schedules (d.start thread) idle ∧
      m'.idleThread = m.idleThread := by
  have placed := m.image.ready_placed
  have placed' := m.image.all_placed
  have off := schedules.off
  obtain ⟨mem, found, listed, entered, runs', all', bytes⟩ :=
    enter_runs (runs.setIntr .off) off.listed schedules.sound.toQueued absent
  -- the entry of the other list is in no thread's page where this list has its own
  have notListed : generalTag thread ∉ d.born.map allListTag := by
    intro member
    obtain ⟨other, isBorn, tag⟩ := List.mem_map.mp member
    have aligned := (schedules.held other isBorn).aligned
    have aligned' := held.aligned
    simp only [generalTag, allListTag] at tag
    omega
  have found' := ListAt.listFind_eq listed (generalTag thread)
  rw [decide_eq_false notListed] at found'
  have image : (listAppend { m with intr := .off } m.image.threadReadyList
      (generalTag thread)).image = m.image := by
    rw [listAppend_eq]
  have away : ∀ query, 0xc009a000 ≤ query → query < 0xc009e000 →
      OffLists m.image (d.born ++ [thread]) (thread :: d.ready) query := by
    intro query lower upper
    have pages : ∀ other ∈ d.born ++ [thread], 0xc009e000 ≤ other := by
      intro other member
      rcases List.mem_append.mp member with isBorn | new
      · exact (schedules.held other isBorn).lower
      · rw [List.mem_singleton.mp new]
        exact held.lower
    refine ⟨by omega, by omega, fun other moved => ?_, fun other isBorn => ?_⟩
    · have above := pages other (by
        rcases List.mem_cons.mp moved with rfl | isReady
        · simp
        · exact List.mem_append_left _ (schedules.runs.queued other isReady))
      omega
    · have above := pages other isBorn
      omega
  have started := off.entered ⟨held.aligned, held.page⟩ absent runs' all'
    fun query lower upper => bytes query (away query lower upper)
  refine ⟨{ m with mem := mem }, ?_, ?_, rfl⟩
  · rw [enlistProcess, intrDisable_eq]
    dsimp only
    rw [bind_ok found, bind_ok (assert_of rfl _), bind_ok found', bind_ok (assert_of rfl _), image,
      entered, setIntrStatus_eq]
    rfl
  · exact started.setIntr m.intr

/-- Any thread may be the idle thread. -/
theorem appoint (schedules : m.Schedules d idle) (born : thread ∈ d.born) :
    ({ m with idleThread := thread } : Machine).Schedules d thread :=
  ⟨schedules.runs.congr rfl rfl fun _ _ => rfl, schedules.sound.appoint born, schedules.listed,
    fun other member => ⟨(schedules.held other member).1, (schedules.held other member).2⟩,
    schedules.laid.imp fun _ => .imp fun _ laid => laid.congr (.of_eq rfl rfl), schedules.main⟩

/-- The scheduler moves threads that were started. -/
theorem moved (schedules : m.Schedules d idle) :
    ∀ thread ∈ idle :: d.running :: d.ready, thread ∈ d.born := by
  intro thread member
  rw [List.mem_cons, List.mem_cons] at member
  rcases member with rfl | rfl | isReady
  · exact schedules.sound.idle
  · exact schedules.sound.running_mem
  · exact schedules.runs.queued thread isReady

/-- `timer_intr_handler` -/
theorem timer (schedules : m.Schedules d m.idleThread) (off : m.intr = .off) :
    ∃ m' d', timerIntrHandler m = .ok m' ∧ m'.Schedules d' m'.idleThread ∧ d'.born = d.born := by
  obtain ⟨m', d', run, runs, which, keeps⟩ :=
    timerIntrHandler_runs schedules.runs schedules.sound off
  have sound : d'.Sound m.idleThread ∧ d'.born = d.born := by
    rcases which with rfl | rfl
    · exact ⟨schedules.sound, rfl⟩
    · exact ⟨schedules.sound.vacant_enqueue.dispatch, rfl⟩
  refine ⟨m', d', run, ?_, sound.2⟩
  rw [keeps.idleThread]
  exact schedules.keeps keeps schedules.moved runs sound.1 sound.2

/-- `thread_block` -/
theorem block (schedules : m.Schedules d m.idleThread) (reason : Asleep) :
    ∃ m' d', threadBlock m reason.status = .ok (m.intr, m') ∧ m'.Schedules d' m'.idleThread ∧
      d'.born = d.born := by
  obtain ⟨m', run, runs, keeps⟩ := threadBlock_runs schedules.runs schedules.sound reason
  refine ⟨m', (d.sleep reason).dispatch m.idleThread, run, ?_, rfl⟩
  rw [keeps.idleThread]
  apply schedules.keeps keeps ?_ runs (schedules.sound.vacant_sleep reason).dispatch rfl
  intro thread member
  apply schedules.moved thread
  rw [List.mem_cons] at member ⊢
  exact member.imp id (List.mem_cons_of_mem _)

/-- `thread_yield` -/
theorem yield (schedules : m.Schedules d m.idleThread) :
    ∃ m' d', threadYield m = .ok (m.intr, m') ∧ m'.Schedules d' m'.idleThread ∧
      d'.born = d.born := by
  obtain ⟨m', run, runs, keeps⟩ := threadYield_runs schedules.runs schedules.sound
  refine ⟨m', (d.enqueue d.running).dispatch m.idleThread, run, ?_, rfl⟩
  rw [keeps.idleThread]
  exact schedules.keeps keeps schedules.moved runs schedules.sound.vacant_enqueue.dispatch rfl

/-- The phase of a thread whose status says that it sleeps. -/
theorem asleep_of_status (schedules : m.Schedules d idle) (member : thread ∈ d.born)
    {reason : Asleep} (status : statusOf m.mem thread = reason.status.code) :
    ∃ reason, d.phase thread = .asleep reason := by
  rw [schedules.runs.status thread member] at status
  exact ⟨reason, statusIn_eq_asleep.mp (TaskStatus.code_injective status)⟩

/-- `thread_unblock` of a thread that sleeps. -/
theorem unblock (schedules : m.Schedules d m.idleThread) (member : thread ∈ d.born)
    {reason : Asleep} (status : statusOf m.mem thread = reason.status.code) :
    ∃ m' d', threadUnblock m thread = .ok m' ∧ m'.Schedules d' m'.idleThread ∧
      d'.born = d.born := by
  obtain ⟨reason, asleep⟩ := schedules.asleep_of_status member status
  obtain ⟨m', run, runs, keeps, -⟩ :=
    threadUnblock_runs schedules.runs schedules.sound.toQueued asleep
  refine ⟨m', d.wake thread, run, ?_, rfl⟩
  rw [keeps.idleThread]
  apply schedules.keeps keeps ?_ runs (schedules.sound.wake asleep) rfl
  intro other moved
  rcases List.mem_cons.mp moved with rfl | isReady
  · exact member
  · exact schedules.runs.queued other isReady

end Machine.Schedules

/-! ## Where `schedule` is called -/

/-- What `schedule` finds once no thread runs. -/
theorem wakeIdle_finds (runs : m.Runs d) (vacant : d.Vacant m.idleThread) :
    (listEmpty m.mem m.image.threadReadyList →
      ∃ reason : Asleep, statusOf m.mem m.idleThread = reason.status.code) ∧
    ∀ woken, wakeIdle m = .ok woken → ¬listEmpty woken.mem woken.image.threadReadyList := by
  constructor
  · intro empty
    rw [runs.ready.listEmpty_iff, List.map_eq_nil_iff] at empty
    obtain ⟨reason, asleep⟩ := vacant.idle_asleep empty
    refine ⟨reason, ?_⟩
    rw [runs.status _ vacant.idle, asleep]
    rfl
  · intro woken run empty
    obtain ⟨m', d', run', runs', filled, -⟩ := wakeIdle_runs runs vacant
    rw [run] at run'
    cases run'
    rw [runs'.ready.listEmpty_iff, List.map_eq_nil_iff] at empty
    exact filled empty

/-- A thread that has given up the processor calls `schedule`. -/
theorem schedulesFrom_vacant (runs : m.Runs d) (vacant : d.Vacant m.idleThread)
    (born : d.running ∈ d.born) (off : m.intr = .off) : SchedulesFrom m := by
  obtain ⟨m', returns, -⟩ := schedule_vacant runs vacant born off
  obtain ⟨idle, filled⟩ := wakeIdle_finds runs vacant
  have same : ∀ requeued, requeue m m.runningThread = .ok requeued → requeued = m := by
    intro requeued run
    rw [requeue_vacant runs vacant born] at run
    exact (Except.ok.inj run).symm
  constructor
  · exact ⟨m', returns⟩
  · intro requeued run
    rw [same requeued run]
    exact idle
  · intro requeued woken run
    rw [same requeued run]
    exact filled woken

/-- A thread whose time is up calls it. -/
theorem schedulesFrom_sound (runs : m.Runs d) (sound : d.Sound m.idleThread)
    (off : m.intr = .off) : SchedulesFrom m := by
  obtain ⟨m', returns, -⟩ := schedule_sound runs sound off
  obtain ⟨queued, requeued, runs', keeps⟩ := requeue_sound runs sound
  obtain ⟨idle, filled⟩ := wakeIdle_finds runs' (keeps.idleThread ▸ sound.vacant_enqueue)
  have same : ∀ other, requeue m m.runningThread = .ok other → other = queued := by
    intro other run
    rw [requeued] at run
    exact (Except.ok.inj run).symm
  constructor
  · exact ⟨m', returns⟩
  · intro other run
    rw [same other run]
    exact idle
  · intro other woken run
    rw [same other run]
    exact filled woken

/-- Every call of `schedule` is sound. -/
theorem Machine.Schedules.schedulesFrom (schedules : m.Schedules d m.idleThread)
    (off : m.intr = .off) (call : ScheduleCall) : SchedulesFrom (call.machine m) := by
  have runs := schedules.runs
  have sound := schedules.sound
  have member := sound.running_mem
  have current : m.runningThread = d.running := runs.running
  cases call with
  | timer =>
      refine schedulesFrom_sound (runs.congr rfl rfl fun query inside => ?_) sound off
      have away := runs.ofScheduler_outside member inside
      apply Bytes.write32_of_outside
      rw [current]
      omega
  | block reason =>
      have asleep := runs.setStatus member (.asleep reason)
      rw [ScheduleCall.machine, current]
      exact schedulesFrom_vacant asleep (sound.vacant_sleep reason) member off
  | yield =>
      have queued := (runs.append member sound.running_not_mem_ready).1.setStatus member .ready
      rw [listAppend_eq] at queued
      rw [ScheduleCall.machine, current, listAppend_eq]
      exact schedulesFrom_vacant queued sound.vacant_enqueue member off

end

namespace Tasks

variable {s next : Tasks}

/-- The invariant of the runs. -/
def Inv (s : Tasks) : Prop :=
  ∃ d : Dispatcher Nat Asleep, s.machine.Schedules d s.machine.idleThread ∧ d.born = s.threads

/-- `kthread_init` up to where the idle thread is started. -/
theorem schedules_main {m : Machine} {kernelPages userPages : Nat}
    (laid : Laid m kernelPages userPages) (aligned : m.running % 4096 = 0)
    (lower : 0xc009e000 ≤ m.running) (upper : m.running + 4096 ≤ kernelHeapStart) :
    ∃ mem, makeMainThread (listInit (listInit m m.image.threadReadyList) m.image.threadListAll) =
        .ok { m with
          mem := mem
          mainThread := m.running } ∧
      ({ m with
        mem := mem
        mainThread := m.running } : Machine).Schedules (.boot m.running) m.running ∧
      ∀ query, 0xc009a000 ≤ query → query < 0xc009e000 → mem query = m.mem query := by
  have placed := m.image.ready_placed
  have placed' := m.image.all_placed
  have apart := m.image.ready_all
  have page : ThreadPage m.running := by
    simp only [kernelHeapStart] at upper
    exact ⟨aligned, by omega, by omega⟩
  generalize emptied : linkInit (linkInit m.mem m.image.threadReadyList) m.image.threadListAll
    = mem
  have ready : ListAt mem m.image.threadReadyList [] := by
    rw [← emptied]
    exact (linkInit_listAt m.mem (by omega)).nil_congr fun query lower upper =>
      linkInit_of_outside _ (by omega)
  have all : ({ m with mem := mem } : Machine).ListsAll [] := by
    rw [← emptied]
    exact linkInit_listAt _ (by omega)
  obtain ⟨mem₁, made, runs, listed, bytes⟩ :=
    @makeMainThread_runs { m with mem := mem } page ready all
  simp only [listInit, emptied]
  refine ⟨mem₁, made, ?_, fun query lower upper => ?_⟩
  · refine ⟨runs, Dispatcher.boot_sound m.running, listed, fun thread member => ?_,
      ⟨kernelPages, userPages, laid.congr (.of_eq rfl rfl)⟩, ?_⟩
    · rw [List.mem_singleton.mp member]
      exact ⟨aligned, .inl ⟨‹_›, ‹_›⟩⟩
    · simp only
      omega
  · refine (bytes query ?_ ?_).trans ?_
    · simp only
      omega
    · simp only
      omega
    · simp only
      rw [← emptied, linkInit_of_outside _ (by omega), linkInit_of_outside _ (by omega)]

theorem Inv.initial (initial : Initial s) : Inv s := by
  obtain ⟨m, kernelPages, userPages, entry, idle, laid, aligned, lower, upper, run, threads⟩ :=
    initial
  obtain ⟨mem, made, booted, -⟩ := schedules_main laid aligned lower upper
  have same : (listInit m m.image.threadReadyList).image = m.image := rfl
  simp only [kthreadInitPage, same] at run
  rw [bind_ok made, bind_eq_ok] at run
  obtain ⟨⟨idleThread, m₂⟩, started, run⟩ := run
  rw [threadStartPage, bind_eq_ok] at started
  obtain ⟨⟨thread, m₃⟩, got, started⟩ := started
  obtain ⟨m₄, started, same⟩ := bind_eq_ok.mp started
  cases same
  obtain ⟨grown, held, absent, notMain, -⟩ := booted.obtained got
  have fits : NameFits (nameBytes ['i', 'd', 'l', 'e']) := by decide
  obtain ⟨mem', started', schedules, -⟩ := grown.start held absent notMain
    ⟨nameBytes ['i', 'd', 'l', 'e'], 10, entry, idle, 0⟩ fits
  rw [started] at started'
  cases started'
  rw [pure_eq_ok] at run
  have machine := Except.ok.inj run
  rw [← machine] at threads
  refine ⟨(Dispatcher.boot m.running).start idleThread, ?_, threads.symm⟩
  rw [← machine]
  exact schedules.appoint (List.mem_append_right _ (List.mem_singleton.mpr rfl))

theorem Inv.step (inv : Inv s) (taken : Step s next) : Inv next := by
  obtain ⟨d, schedules, born⟩ := inv
  have off := schedules.off
  cases taken with
  | @start start thread m fits run =>
      rw [threadStartPage, bind_eq_ok] at run
      obtain ⟨⟨page, m1⟩, got, run⟩ := run
      obtain ⟨m2, started, run⟩ := bind_eq_ok.mp run
      cases run
      obtain ⟨grown, held, absent, notMain, same⟩ := off.obtained got
      obtain ⟨mem, run, schedules', -⟩ := grown.start held absent notMain start fits
      rw [started] at run
      cases run
      have idle : m1.idleThread = s.machine.idleThread := same
      exact ⟨d.start thread, idle ▸ schedules', congrArg (· ++ [thread]) born⟩
  | @execute execution thread m fits run =>
      rw [processExecute, bind_eq_ok] at run
      obtain ⟨⟨page, m1⟩, prepared, run⟩ := run
      obtain ⟨m2, enlisted, run⟩ := bind_eq_ok.mp run
      cases run
      obtain ⟨grown, held, absent, adopted, same⟩ := off.prepared fits prepared
      obtain ⟨m', run, schedules', same'⟩ := grown.enlist held absent adopted
      rw [enlisted] at run
      cases run
      have idle : m.idleThread = s.machine.idleThread := same'.trans same
      exact ⟨d.start thread, idle ▸ schedules', congrArg (· ++ [thread]) born⟩
  | timer run =>
      obtain ⟨m', d', run', schedules', born'⟩ := off.timer rfl
      rw [run] at run'
      cases run'
      exact ⟨d', schedules', born'.trans born⟩
  | block reason run =>
      obtain ⟨m', d', run', schedules', born'⟩ := off.block reason
      rw [run] at run'
      cases run'
      exact ⟨d', schedules', born'.trans born⟩
  | unblock thread reason member status run =>
      obtain ⟨m', d', run', schedules', born'⟩ := off.unblock (born ▸ member) status
      rw [run] at run'
      cases run'
      exact ⟨d', schedules', born'.trans born⟩
  | yield run =>
      obtain ⟨m', d', run', schedules', born'⟩ := off.yield
      rw [run] at run'
      cases run'
      exact ⟨d', schedules', born'.trans born⟩
  | activate pagedirPhyAddr => exact ⟨d, schedules.setCr3 pagedirPhyAddr, born⟩

theorem Inv.reachable (reachable : taskSystem.Reachable s) : Inv s :=
  reachable.invariant (fun _ => Inv.initial) fun _ _ => Inv.step

theorem Inv.noneFails (inv : Inv s) : NoneFails s := by
  obtain ⟨d, schedules, born⟩ := inv
  have off := schedules.off
  constructor
  · exact off.schedulesFrom rfl
  · obtain ⟨m, -, run, -⟩ := off.timer rfl
    exact ⟨m, run⟩
  · intro reason
    obtain ⟨m, -, run, -⟩ := off.block reason
    exact ⟨_, run⟩
  · intro thread member reason status
    obtain ⟨m, -, run, -⟩ := off.unblock (born ▸ member) status
    exact ⟨m, run⟩
  · obtain ⟨m, -, run, -⟩ := off.yield
    exact ⟨_, run⟩
  · intro start fits thread m got
    obtain ⟨grown, held, absent, notMain, -⟩ := off.obtained got
    obtain ⟨mem, run, -⟩ := grown.start held absent notMain start fits
    exact ⟨_, run⟩
  · intro execution fits thread m prepared
    obtain ⟨grown, held, absent, adopted, -⟩ := off.prepared fits prepared
    obtain ⟨m', run, -⟩ := grown.enlist held absent adopted
    exact ⟨m', run⟩

end Tasks

end Pumelo
