import Pumelo.Thread

/-!
# The scheduler as a dispatcher

What the memory of the machine holds for the threads, as the state of an abstract
dispatcher: the status word of each thread is its phase, and the ready list is the
queue.  Each function of the scheduler refines an operation of the dispatcher and
keeps every byte that is not the scheduler's.
-/

namespace Pumelo

open Foundation

/-- The statuses that `thread_block` takes. -/
inductive Asleep where
  | blocked
  | waiting
  | hanging
  deriving DecidableEq, Repr

/-- A reason to sleep as a status. -/
def Asleep.status : Asleep → TaskStatus
  | blocked => .blocked
  | waiting => .waiting
  | hanging => .hanging

/-- The status of a thread in a phase. -/
def statusIn : Phase Asleep → TaskStatus
  | .absent => .died
  | .running => .running
  | .ready => .ready
  | .asleep reason => reason.status

theorem TaskStatus.code_injective : Function.Injective TaskStatus.code := by
  intro left right equal
  cases left <;> cases right <;> first | rfl | cases equal

theorem TaskStatus.code_lt (status : TaskStatus) : status.code < 2 ^ 32 := by
  cases status <;> decide

theorem statusIn_eq_running {phase : Phase Asleep} :
    statusIn phase = .running ↔ phase = .running := by
  cases phase with
  | asleep reason => cases reason <;> simp [statusIn, Asleep.status]
  | _ => simp [statusIn]

theorem statusIn_eq_asleep {phase : Phase Asleep} {reason : Asleep} :
    statusIn phase = reason.status ↔ phase = .asleep reason := by
  cases phase with
  | asleep other => cases other <;> cases reason <;> simp [statusIn, Asleep.status]
  | _ => cases reason <;> simp [statusIn, Asleep.status]

/-- The page of a thread lies behind the kernel's image, and is not the last one. -/
structure ThreadPage (thread : Nat) : Prop where
  aligned : thread % 4096 = 0
  low : 0xc009a000 ≤ thread
  fits : thread + 4096 < 2 ^ 32

theorem ThreadPage.isThread {thread : Nat} (page : ThreadPage thread) : IsThread thread :=
  ⟨page.aligned, page.fits.le⟩

theorem ThreadPage.apart {thread other : Nat} (page : ThreadPage thread)
    (page' : ThreadPage other) (different : thread ≠ other) :
    thread + 4096 ≤ other ∨ other + 4096 ≤ thread :=
  page.isThread.apart page'.isThread different

theorem generalTag_injective : Function.Injective generalTag := by
  intro left right equal
  exact Nat.add_right_cancel equal

@[simp] theorem ofGeneralTag_generalTag (thread : Nat) :
    ofGeneralTag (generalTag thread) = thread :=
  Nat.add_sub_cancel ..

theorem generalTag_mem_map {thread : Nat} {threads : List Nat} :
    generalTag thread ∈ threads.map generalTag ↔ thread ∈ threads :=
  List.mem_map_of_injective generalTag_injective

/-- The bytes of the ready list, with the entries of these threads in it. -/
def InReadyList (image : Image) (ready : List Nat) (query : Nat) : Prop :=
  (image.threadReadyList ≤ query ∧ query < image.threadReadyList + 16) ∨
    ∃ thread ∈ ready, thread + 92 ≤ query ∧ query < thread + 100

/-- The bytes that the scheduler relies on. -/
def OfScheduler (image : Image) (d : Dispatcher Nat Asleep) (query : Nat) : Prop :=
  InReadyList image d.ready query ∨
    ∃ thread ∈ d.born, (thread + 4 ≤ query ∧ query < thread + 8) ∨
      (thread + 308 ≤ query ∧ query < thread + 312)

/-- The machine holds the threads of a dispatcher. -/
structure Machine.Runs (m : Machine) (d : Dispatcher Nat Asleep) : Prop where
  running : m.running = d.running
  pages : ∀ thread ∈ d.born, ThreadPage thread
  status : ∀ thread ∈ d.born, statusOf m.mem thread = (statusIn (d.phase thread)).code
  magic : ∀ thread ∈ d.born, m.mem.read32 (thread + 308) = stackMagic
  queued : ∀ thread ∈ d.ready, thread ∈ d.born
  ready : ListAt m.mem m.image.threadReadyList (d.ready.map generalTag)

/-- These threads are in the list of all threads. -/
def Machine.ListsAll (m : Machine) (born : List Nat) : Prop :=
  ListAt m.mem m.image.threadListAll (born.map allListTag)

/-- A byte that is no part of what the scheduler writes when it moves these threads in
and out of the ready list. -/
structure Untouched (image : Image) (born moved : List Nat) (query : Nat) : Prop where
  list : query < image.threadReadyList ∨ image.threadReadyList + 16 ≤ query
  status : ∀ thread ∈ born, query < thread + 4 ∨ thread + 8 ≤ query
  ticks : ∀ thread ∈ born, query < thread + 53 ∨ thread + 60 ≤ query
  tags : ∀ thread ∈ moved, query < thread + 92 ∨ thread + 100 ≤ query

/-- Two machines that differ in the scheduler's bytes only. -/
structure Machine.Keeps (m m' : Machine) (born moved : List Nat) : Prop where
  machine : m' = { m with
    mem := m'.mem
    running := m'.running
    intr := m'.intr
    ticks := m'.ticks }
  bytes : ∀ query, Untouched m.image born moved query → m'.mem query = m.mem query

/-- Two machines with the same image, main thread and idle thread. -/
structure Machine.Agrees (m m' : Machine) : Prop where
  image : m'.image = m.image
  mainThread : m'.mainThread = m.mainThread
  idleThread : m'.idleThread = m.idleThread

theorem Untouched.mono {image : Image} {born moved fewer : List Nat} {query : Nat}
    (untouched : Untouched image born moved query) (subset : ∀ thread ∈ fewer, thread ∈ moved) :
    Untouched image born fewer query :=
  ⟨untouched.list, untouched.status, untouched.ticks,
    fun thread member => untouched.tags thread (subset thread member)⟩

/-- Such a byte is no part of the ready list. -/
theorem Untouched.outside {image : Image} {born moved ready : List Nat} {query : Nat}
    (untouched : Untouched image born moved query) (subset : ∀ thread ∈ ready, thread ∈ moved) :
    Outside (listNodes image.threadReadyList (ready.map generalTag)) query := by
  have list := untouched.list
  intro node member
  rw [mem_listNodes, List.mem_map] at member
  rcases member with rfl | ⟨thread, member, rfl⟩ | rfl
  · omega
  · have tags := untouched.tags thread (subset thread member)
    simp only [generalTag]
    omega
  · simp only [tailer]
    omega

namespace Machine.Keeps

variable {m m' m'' : Machine} {born moved more : List Nat}

theorem refl (m : Machine) (born moved : List Nat) : m.Keeps m born moved :=
  ⟨rfl, fun _ _ => rfl⟩

theorem image (keeps : m.Keeps m' born moved) : m'.image = m.image := by
  rw [keeps.machine]

theorem idleThread (keeps : m.Keeps m' born moved) : m'.idleThread = m.idleThread := by
  rw [keeps.machine]

theorem agrees (keeps : m.Keeps m' born moved) : m.Agrees m' := by
  rw [keeps.machine]
  exact ⟨rfl, rfl, rfl⟩

theorem mono (keeps : m.Keeps m' born moved) (subset : ∀ thread ∈ moved, thread ∈ more) :
    m.Keeps m' born more :=
  ⟨keeps.machine, fun query untouched => keeps.bytes query (untouched.mono subset)⟩

theorem trans (first : m.Keeps m' born moved) (second : m'.Keeps m'' born moved) :
    m.Keeps m'' born moved := by
  refine ⟨?_, fun query untouched => ?_⟩
  · rw [second.machine, first.machine]
  · rw [second.bytes query (first.image ▸ untouched), first.bytes query untouched]

end Machine.Keeps

namespace Machine.Runs

variable {m m' : Machine} {d : Dispatcher Nat Asleep} {thread : Nat}

/-- The ready list depends on its own bytes only. -/
theorem ready_congr (runs : m.Runs d) {mem' : Bytes}
    (agree : ∀ query, InReadyList m.image d.ready query → mem' query = m.mem query) :
    ListAt mem' m.image.threadReadyList (d.ready.map generalTag) := by
  refine runs.ready.congr fun query inside => agree query ?_
  by_contra away
  refine inside fun node member => ?_
  rw [mem_listNodes, List.mem_map] at member
  by_contra near
  rcases member with rfl | ⟨thread, member, rfl⟩ | rfl
  · exact away (.inl (by omega))
  · simp only [generalTag] at near
    exact away (.inr ⟨thread, member, by omega, by omega⟩)
  · simp only [tailer] at near
    exact away (.inl (by omega))

/-- The representation depends on the scheduler's bytes only. -/
theorem congr (runs : m.Runs d) (image : m'.image = m.image) (running : m'.running = m.running)
    (agree : ∀ query, OfScheduler m.image d query → m'.mem query = m.mem query) :
    m'.Runs d := by
  have ready := runs.ready_congr fun query inside => agree query (.inl inside)
  refine ⟨running.trans runs.running, runs.pages, fun thread member => ?_,
    fun thread member => ?_, runs.queued, image ▸ ready⟩
  · rw [← runs.status thread member]
    exact Bytes.read32_congr fun query lower upper =>
      agree query (.inr ⟨thread, member, .inl ⟨lower, by omega⟩⟩)
  · rw [← runs.magic thread member]
    exact Bytes.read32_congr fun query lower upper =>
      agree query (.inr ⟨thread, member, .inr ⟨lower, by omega⟩⟩)

/-- The list lies in the kernel's image, in front of all threads. -/
theorem inReadyList_outside (runs : m.Runs d) (member : thread ∈ d.born) {query : Nat}
    (inside : InReadyList m.image d.ready query) : query < thread ∨ thread + 92 ≤ query := by
  have placed := m.image.ready_placed
  have low := (runs.pages thread member).low
  rcases inside with inside | ⟨other, member', lower', upper'⟩
  · omega
  · by_cases same : thread = other
    · omega
    · have apart := (runs.pages thread member).apart
        (runs.pages other (runs.queued other member')) same
      omega

/-- The status of a thread changes. -/
theorem setStatus (runs : m.Runs d) (member : thread ∈ d.born) (phase : Phase Asleep) :
    { m with mem := storeStatus m.mem thread (statusIn phase) : Machine }.Runs
      (d.setPhase thread phase) := by
  refine ⟨runs.running, runs.pages, fun other member' => ?_, fun other member' => ?_,
    runs.queued, runs.ready_congr fun query inside => ?_⟩
  · by_cases same : other = thread
    · subst same
      rw [Dispatcher.setPhase_self]
      exact Bytes.read32_write32_self _ (TaskStatus.code_lt _)
    · rw [Dispatcher.setPhase_of_ne _ _ same, ← runs.status other member']
      have apart := (runs.pages other member').apart (runs.pages thread member) same
      exact Bytes.read32_write32_of_disjoint _ _ (by omega)
  · rw [← runs.magic other member']
    refine Bytes.read32_write32_of_disjoint _ _ ?_
    by_cases same : other = thread
    · omega
    · have apart := (runs.pages other member').apart (runs.pages thread member) same
      omega
  · have outside := runs.inReadyList_outside member inside
    exact Bytes.write32_of_outside _ _ (by omega)

/-- The ready list changes. -/
theorem relist (runs : m.Runs d) {mem' : Bytes} {ready' : List Nat}
    (agree : ∀ query, (query < m.image.threadReadyList ∨ m.image.threadReadyList + 16 ≤ query) →
      (∀ thread ∈ d.born, query < thread + 92 ∨ thread + 100 ≤ query) →
      mem' query = m.mem query)
    (queued : ∀ thread ∈ ready', thread ∈ d.born)
    (ready : ListAt mem' m.image.threadReadyList (ready'.map generalTag)) :
    { m with mem := mem' : Machine }.Runs { d with ready := ready' } := by
  have placed := m.image.ready_placed
  -- the words that the scheduler reads in a thread are not list entries
  have word : ∀ thread ∈ d.born, ∀ disp, disp + 4 ≤ 92 ∨ 100 ≤ disp → disp + 4 ≤ 4096 →
      mem'.read32 (thread + disp) = m.mem.read32 (thread + disp) := by
    intro thread member disp outside inside
    have low := (runs.pages thread member).low
    refine Bytes.read32_congr fun query lower upper => agree query (by omega) fun other member' =>
      ?_
    by_cases same : thread = other
    · omega
    · have apart := (runs.pages thread member).apart (runs.pages other member') same
      omega
  refine ⟨runs.running, runs.pages, fun thread member => ?_, fun thread member => ?_, queued, ready⟩
  · rw [← runs.status thread member]
    exact word thread member 4 (by decide) (by decide)
  · rw [← runs.magic thread member]
    exact word thread member 308 (by decide) (by decide)

/-- The entry of a thread that is not in the ready list overlaps none of the list's. -/
theorem tag_apart (runs : m.Runs d) (member : thread ∈ d.born) (fresh : thread ∉ d.ready) :
    ∀ node ∈ listNodes m.image.threadReadyList (d.ready.map generalTag),
      Apart 8 (generalTag thread) node := by
  have placed := m.image.ready_placed
  have low := (runs.pages thread member).low
  intro node isNode
  rw [mem_listNodes, List.mem_map] at isNode
  simp only [Apart, generalTag]
  rcases isNode with rfl | ⟨other, member', rfl⟩ | rfl
  · omega
  · have different : thread ≠ other := fun equal => fresh (equal ▸ member')
    have apart := (runs.pages thread member).apart (runs.pages other (runs.queued other member'))
      different
    simp only [generalTag]
    omega
  · simp only [tailer]
    omega

/-- Bytes that moving one thread leaves alone. -/
theorem outside_moved (d : Dispatcher Nat Asleep) {query : Nat}
    (list : query < m.image.threadReadyList ∨ m.image.threadReadyList + 16 ≤ query)
    (tags : ∀ other ∈ thread :: d.ready, query < other + 92 ∨ other + 100 ≤ query) :
    Outside (generalTag thread :: listNodes m.image.threadReadyList (d.ready.map generalTag))
      query := by
  intro node isNode
  rw [List.mem_cons, mem_listNodes, List.mem_map] at isNode
  rcases isNode with rfl | rfl | ⟨other, member', rfl⟩ | rfl
  · have tag := tags thread (by simp)
    simp only [generalTag]
    omega
  · omega
  · have tag := tags other (by simp [member'])
    simp only [generalTag]
    omega
  · simp only [tailer]
    omega

/-- Among them those outside all threads' entries. -/
theorem outside_lists (runs : m.Runs d) (member : thread ∈ d.born) {query : Nat}
    (list : query < m.image.threadReadyList ∨ m.image.threadReadyList + 16 ≤ query)
    (tags : ∀ thread ∈ d.born, query < thread + 92 ∨ thread + 100 ≤ query) :
    Outside (generalTag thread :: listNodes m.image.threadReadyList (d.ready.map generalTag))
      query := by
  refine outside_moved d list fun other moved => tags other ?_
  rcases List.mem_cons.mp moved with rfl | isReady
  · exact member
  · exact runs.queued other isReady

/-- A thread is appended to the ready list. -/
theorem append (runs : m.Runs d) (member : thread ∈ d.born) (fresh : thread ∉ d.ready) :
    (listAppend m m.image.threadReadyList (generalTag thread)).Runs
        { d with ready := d.ready ++ [thread] } ∧
      m.Keeps (listAppend m m.image.threadReadyList (generalTag thread)) d.born
        (thread :: d.ready) := by
  rw [listAppend, listInsertBefore_eq]
  have fits := (runs.pages thread member).fits
  constructor
  · refine runs.relist (fun query list tags =>
      runs.ready.append_of_outside (runs.outside_lists member list tags))
        (fun other member' => ?_) ?_
    · rw [List.mem_append, List.mem_singleton] at member'
      rcases member' with member' | rfl
      · exact runs.queued other member'
      · exact member
    · rw [List.map_append, List.map_singleton]
      exact runs.ready.append (runs.tag_apart member fresh) (by simp only [generalTag]; omega)
  · exact ⟨rfl, fun query untouched => runs.ready.append_of_outside
      (outside_moved d untouched.list untouched.tags)⟩

/-- A thread is pushed to the front of the ready list. -/
theorem push (runs : m.Runs d) (member : thread ∈ d.born) (fresh : thread ∉ d.ready) :
    (listPush m m.image.threadReadyList (generalTag thread)).Runs
        { d with ready := thread :: d.ready } ∧
      m.Keeps (listPush m m.image.threadReadyList (generalTag thread)) d.born
        (thread :: d.ready) := by
  rw [listPush, listInsertBefore_eq]
  have fits := (runs.pages thread member).fits
  constructor
  · refine runs.relist (fun query list tags =>
      runs.ready.push_of_outside (runs.outside_lists member list tags)) (fun other member' => ?_) ?_
    · rcases List.mem_cons.mp member' with rfl | member'
      · exact member
      · exact runs.queued other member'
    · rw [List.map_cons]
      exact runs.ready.push (runs.tag_apart member fresh) (by simp only [generalTag]; omega)
  · exact ⟨rfl, fun query untouched => runs.ready.push_of_outside 
      (outside_moved d untouched.list untouched.tags)⟩

/-- The first thread leaves the ready list. -/
theorem pop (runs : m.Runs d) {rest : List Nat} (ready : d.ready = thread :: rest) :
    (listPop m m.image.threadReadyList).1 = generalTag thread ∧
      (listPop m m.image.threadReadyList).2.Runs { d with ready := rest } ∧
      m.Keeps (listPop m m.image.threadReadyList).2 d.born d.ready := by
  have list : ListAt m.mem m.image.threadReadyList
      ([] ++ generalTag thread :: rest.map generalTag) := by
    have list := runs.ready
    rwa [ready] at list
  have member : thread ∈ d.born := runs.queued thread (by simp [ready])
  have head : nextOf m.mem m.image.threadReadyList = generalTag thread := list.next_cons
  simp only [listPop, head, listRemove_eq]
  refine ⟨trivial, ?_, ?_⟩
  · refine runs.relist (fun query lists tags => list.remove_of_outside ?_)
      (fun other member' => runs.queued other (by simp [ready, member'])) list.remove
    have outside := runs.outside_lists member lists tags
    rw [ready] at outside
    intro node isNode
    refine outside node ?_
    simp only [mem_listNodes, List.mem_cons, List.map_cons, List.nil_append] at isNode ⊢
    tauto
  · refine ⟨rfl, fun query untouched => list.remove_of_outside ?_⟩
    exact untouched.outside (fun other member' => by simp [ready, member'])

/-- Storing a status keeps the other bytes. -/
theorem setStatus_keeps (m : Machine) {born : List Nat} (moved : List Nat)
    (member : thread ∈ born) (status : TaskStatus) :
    m.Keeps { m with mem := storeStatus m.mem thread status } born moved := by
  refine ⟨rfl, fun query untouched => Bytes.write32_of_outside _ _ ?_⟩
  have outside := untouched.status thread member
  omega

/-- The scheduler's words of a thread do not overlap those of another. -/
theorem ofScheduler_outside (runs : m.Runs d) (member : thread ∈ d.born) {query : Nat}
    (inside : OfScheduler m.image d query) :
    query < thread + 8 ∨ thread + 92 ≤ query := by
  rcases inside with inside | ⟨other, member', inside⟩
  · have outside := runs.inReadyList_outside member inside
    omega
  · by_cases same : thread = other
    · omega
    · have apart := (runs.pages thread member).apart (runs.pages other member') same
      omega

/-- The ticks of a thread are not the scheduler's concern. -/
theorem setTicks (runs : m.Runs d) (member : thread ∈ d.born) (moved : List Nat) (ticks : UInt8) :
    { m with mem := storeTicks m.mem thread ticks : Machine }.Runs d ∧
      m.Keeps { m with mem := storeTicks m.mem thread ticks } d.born moved := by
  constructor
  · refine runs.congr rfl rfl fun query inside => Bytes.write8_of_ne _ _ ?_
    have outside := runs.ofScheduler_outside member inside
    omega
  · refine ⟨rfl, fun query untouched => Bytes.write8_of_ne _ _ ?_⟩
    have outside := untouched.ticks thread member
    omega

/-- `list_find` on the ready list. -/
theorem find (runs : m.Runs d) (thread : Nat) :
    listFind m.mem m.image.threadReadyList (generalTag thread) =
      .ok (decide (thread ∈ d.ready)) := by
  rw [runs.ready.listFind_eq]
  simp only [generalTag_mem_map]

end Machine.Runs

/-! ## The functions of the scheduler -/

section

variable {m : Machine} {d : Dispatcher Nat Asleep} {idle thread : Nat} {reason : Asleep}

/-- The status of a sleeping thread passes the check of `thread_unblock`. -/
theorem asleep_code (reason : Asleep) :
    ((statusIn (.asleep reason)).code = TaskStatus.blocked.code ∨
        (statusIn (.asleep reason)).code = TaskStatus.waiting.code ∨
        (statusIn (.asleep reason)).code = TaskStatus.hanging.code) ∧
      (statusIn (.asleep reason)).code ≠ TaskStatus.ready.code := by
  cases reason <;> decide

/-- `thread_unblock` wakes a sleeping thread. -/
theorem threadUnblock_runs (runs : m.Runs d) (queued : d.Queued idle)
    (asleep : d.phase thread = .asleep reason) :
    ∃ m', threadUnblock m thread = .ok m' ∧ m'.Runs (d.wake thread) ∧
      m.Keeps m' d.born (thread :: d.ready) ∧ m'.intr = m.intr := by
  have member : thread ∈ d.born := (queued.born thread).mpr (by simp [asleep])
  have fresh : thread ∉ d.ready := fun ready => by
    have phase := (queued.ready thread).mp ready
    rw [asleep] at phase
    cases phase
  obtain ⟨pushed, keeps⟩ := runs.push member fresh
  have status := runs.status thread member
  rw [asleep] at status
  obtain ⟨sleeps, notReady⟩ := asleep_code reason
  have found : listFind m.mem m.image.threadReadyList (generalTag thread) = .ok false := by
    rw [runs.find, decide_eq_false fresh]
  have run : threadUnblock m thread = .ok { m with
      mem := storeStatus (linkBefore m.mem (nextOf m.mem m.image.threadReadyList)
        (generalTag thread)) thread .ready } := by
    simp only [threadUnblock, intrDisable_eq, setIntrStatus_eq, status, assert_of sleeps, ne_eq,
      notReady, not_false_iff, if_true, found, listPush, listInsertBefore_eq]
    rfl
  rw [listPush, listInsertBefore_eq] at pushed keeps
  exact ⟨_, run, pushed.setStatus member .ready,
    keeps.trans (Machine.Runs.setStatus_keeps _ _ member .ready), rfl⟩

/-- What the last part of `schedule` does. -/
theorem switchNext_eq {first : Nat}
    (tag : (listPop m m.image.threadReadyList).1 = generalTag first) :
    switchNext m = { (listPop m m.image.threadReadyList).2 with
      mem := storeStatus (listPop m m.image.threadReadyList).2.mem first .running
      running := first } := by
  simp only [switchNext, tag, ofGeneralTag_generalTag]

/-- The first ready thread runs. -/
theorem switchNext_runs (runs : m.Runs d) (idle : Nat) (filled : d.ready ≠ []) :
    (switchNext m).Runs (d.dispatch idle) ∧ m.Keeps (switchNext m) d.born d.ready := by
  obtain ⟨first, rest, ready⟩ := List.exists_cons_of_ne_nil filled
  have member : first ∈ d.born := runs.queued first (by simp [ready])
  obtain ⟨tag, popped, keeps⟩ := runs.pop ready
  rw [switchNext_eq tag, Dispatcher.dispatch_cons ready]
  have stored := popped.setStatus member .running
  have status := keeps.trans (Machine.Runs.setStatus_keeps _ d.ready member .running)
  constructor
  · exact ⟨rfl, stored.pages, stored.status, stored.magic, stored.queued, stored.ready⟩
  · refine ⟨?_, status.bytes⟩
    rw [keeps.machine]

/-- A thread that does not run is not put back. -/
theorem requeue_vacant (runs : m.Runs d) (vacant : d.Vacant idle) (born : d.running ∈ d.born) :
    requeue m m.runningThread = .ok m := by
  have status := runs.status d.running born
  have notRunning : statusOf m.mem m.running ≠ TaskStatus.running.code := by
    rw [runs.running, status]
    intro equal
    exact vacant.running _ (statusIn_eq_running.mp (TaskStatus.code_injective equal))
  rw [requeue, Machine.runningThread, if_neg notRunning]
  rfl

/-- The running thread is put back behind the others. -/
theorem requeue_sound (runs : m.Runs d) (sound : d.Sound idle) :
    ∃ m', requeue m m.runningThread = .ok m' ∧ m'.Runs (d.enqueue d.running) ∧
      m.Keeps m' d.born (d.running :: d.ready) := by
  have phase := sound.running_phase
  have member := sound.running_mem
  have fresh := sound.running_not_mem_ready
  have status : statusOf m.mem d.running = TaskStatus.running.code := by
    rw [runs.status _ member, phase]
    rfl
  have found : listFind m.mem m.image.threadReadyList (generalTag d.running) = .ok false := by
    rw [runs.find, decide_eq_false fresh]
  obtain ⟨appended, keeps⟩ := runs.append member fresh
  obtain ⟨ticked, keeps'⟩ := appended.setTicks member (d.running :: d.ready)
    (priorityOf (listAppend m m.image.threadReadyList (generalTag d.running)).mem d.running)
  have cur : m.runningThread = d.running := runs.running
  refine ⟨_, ?_, ticked.setStatus member .ready,
    (keeps.trans keeps').trans (Machine.Runs.setStatus_keeps _ _ member _)⟩
  rw [cur, requeue, if_pos status, bind_ok found, bind_ok (assert_of rfl _)]
  rfl

/-- When no thread is ready, the idle thread is. -/
theorem wakeIdle_runs (runs : m.Runs d) (vacant : d.Vacant m.idleThread) :
    ∃ m' d', wakeIdle m = .ok m' ∧ m'.Runs d' ∧ d'.ready ≠ [] ∧ d'.born = d.born ∧
      (∀ thread ∈ d'.ready, thread ∈ m.idleThread :: d.ready) ∧
      d'.dispatch m.idleThread = d.dispatch m.idleThread ∧
      m.Keeps m' d.born (m.idleThread :: d.ready) ∧ m'.intr = m.intr := by
  have empty : listEmpty m.mem m.image.threadReadyList ↔ d.ready = [] := by
    rw [runs.ready.listEmpty_iff, List.map_eq_nil_iff]
  by_cases none : d.ready = []
  · obtain ⟨reason, asleep⟩ := vacant.idle_asleep none
    obtain ⟨m', run, woken, keeps, intr⟩ := threadUnblock_runs runs vacant.toQueued asleep
    refine ⟨m', _, ?_, woken, List.cons_ne_nil _ _, rfl, fun _ member => member,
      Dispatcher.wake_dispatch none, keeps, intr⟩
    rw [wakeIdle, if_pos (empty.mpr none), run]
  · refine ⟨m, d, ?_, runs, none, rfl, fun _ member => List.mem_cons_of_mem _ member, rfl,
      .refl .., rfl⟩
    rw [wakeIdle, if_neg (empty.not.mpr none)]

/-- The last two parts of `schedule`, when no thread runs. -/
theorem dispatch_runs (runs : m.Runs d) (vacant : d.Vacant m.idleThread) :
    ∃ woken, wakeIdle m = .ok woken ∧ (switchNext woken).Runs (d.dispatch m.idleThread) ∧
      m.Keeps (switchNext woken) d.born (m.idleThread :: d.ready) ∧
      (switchNext woken).intr = m.intr := by
  obtain ⟨woken, d', run, runs', filled, born, subset, dispatched, keeps, intr⟩ :=
    wakeIdle_runs runs vacant
  obtain ⟨runs'', keeps'⟩ := switchNext_runs runs' m.idleThread filled
  rw [dispatched] at runs''
  rw [born] at keeps'
  refine ⟨woken, run, runs'', keeps.trans (keeps'.mono subset), ?_⟩
  rw [← intr]
  simp only [switchNext, listPop, listRemove_eq]

/-- `schedule` of a thread that has given up the processor. -/
theorem schedule_vacant (runs : m.Runs d) (vacant : d.Vacant m.idleThread)
    (born : d.running ∈ d.born) (off : m.intr = .off) :
    ∃ m', schedule m = .ok m' ∧ m'.Runs (d.dispatch m.idleThread) ∧
      m.Keeps m' d.born (m.idleThread :: d.ready) := by
  obtain ⟨woken, run, runs', keeps, -⟩ := dispatch_runs runs vacant
  refine ⟨_, ?_, runs', keeps⟩
  rw [schedule, bind_ok (assert_of (show getIntrStatus m = .off from off) _),
    bind_ok (requeue_vacant runs vacant born), bind_ok run]
  rfl

/-- `schedule` of a thread whose time is up. -/
theorem schedule_sound (runs : m.Runs d) (sound : d.Sound m.idleThread) (off : m.intr = .off) :
    ∃ m', schedule m = .ok m' ∧ m'.Runs ((d.enqueue d.running).dispatch m.idleThread) ∧
      m.Keeps m' d.born (m.idleThread :: d.running :: d.ready) := by
  obtain ⟨queued, requeued, runs', keeps⟩ := requeue_sound runs sound
  obtain ⟨woken, run, runs'', keeps', -⟩ :=
    dispatch_runs runs' (keeps.idleThread ▸ sound.vacant_enqueue)
  rw [keeps.idleThread] at runs'' keeps'
  refine ⟨_, ?_, runs'', ?_⟩
  · rw [schedule, bind_ok (assert_of (show getIntrStatus m = .off from off) _), bind_ok requeued,
      bind_ok run]
    rfl
  · refine (keeps.mono ?_).trans (keeps'.mono ?_)
    · intro thread member
      exact List.mem_cons_of_mem _ member
    · intro thread member
      simp only [Dispatcher.enqueue, List.mem_cons, List.mem_append, List.not_mem_nil,
        or_false] at member ⊢
      tauto

/-- With interrupts off the threads are the same. -/
theorem Machine.Runs.setIntr (runs : m.Runs d) (status : IntrStatus) :
    { m with intr := status : Machine }.Runs d :=
  runs.congr rfl rfl fun _ _ => rfl

/-- Changing the flag keeps everything else. -/
theorem Machine.Keeps.setIntr (m : Machine) (status : IntrStatus) (born moved : List Nat) :
    m.Keeps { m with intr := status } born moved :=
  ⟨rfl, fun _ _ => rfl⟩

/-- `thread_block` puts the running thread to sleep. -/
theorem threadBlock_runs (runs : m.Runs d) (sound : d.Sound m.idleThread) (reason : Asleep) :
    ∃ m', threadBlock m reason.status = .ok (m.intr, m') ∧
      m'.Runs ((d.sleep reason).dispatch m.idleThread) ∧
      m.Keeps m' d.born (m.idleThread :: d.ready) := by
  have member := sound.running_mem
  have legal : reason.status = .blocked ∨ reason.status = .waiting ∨ reason.status = .hanging := by
    cases reason <;> decide
  have asleep := (runs.setIntr .off).setStatus member (.asleep reason)
  have keeps := (Machine.Keeps.setIntr m .off d.born (m.idleThread :: d.ready)).trans
    (Machine.Runs.setStatus_keeps _ _ member reason.status)
  obtain ⟨m', run, runs', keeps'⟩ :=
    schedule_vacant asleep (sound.vacant_sleep reason) member rfl
  refine ⟨m', ?_, runs', keeps.trans keeps'⟩
  rw [← runs.running] at run
  rw [threadBlock, bind_ok (assert_of legal _), intrDisable_eq]
  exact bind_ok run

/-- `thread_yield` queues the running thread behind the others. -/
theorem threadYield_runs (runs : m.Runs d) (sound : d.Sound m.idleThread) :
    ∃ m', threadYield m = .ok (m.intr, m') ∧
      m'.Runs ((d.enqueue d.running).dispatch m.idleThread) ∧
      m.Keeps m' d.born (m.idleThread :: d.running :: d.ready) := by
  have phase := sound.running_phase
  have member := sound.running_mem
  have fresh := sound.running_not_mem_ready
  have off := runs.setIntr .off
  have found := runs.find d.running
  rw [decide_eq_false fresh, ← runs.running] at found
  obtain ⟨appended, keeps⟩ := off.append member fresh
  have keeps := (keeps.mono (List.subset_cons_self m.idleThread _)).trans
    (Machine.Runs.setStatus_keeps _ _ member .ready)
  obtain ⟨m', run, runs', keeps'⟩ :=
    schedule_vacant (appended.setStatus member .ready) sound.vacant_enqueue member rfl
  rw [← runs.running] at run
  refine ⟨m', ?_, runs', ?_⟩
  · rw [threadYield, intrDisable_eq]
    refine (bind_ok found).trans ((bind_ok (assert_of rfl _)).trans ?_)
    exact bind_ok run
  · refine ((Machine.Keeps.setIntr m .off _ _).trans keeps).trans (keeps'.mono ?_)
    intro thread member
    simp only [Dispatcher.setPhase, List.mem_cons, List.mem_append, List.not_mem_nil,
      or_false] at member ⊢
    tauto

/-- `timer_intr_handler` lets the running thread go on, or queues it. -/
theorem timerIntrHandler_runs (runs : m.Runs d) (sound : d.Sound m.idleThread)
    (off : m.intr = .off) :
    ∃ m' d', timerIntrHandler m = .ok m' ∧ m'.Runs d' ∧
      (d' = d ∨ d' = (d.enqueue d.running).dispatch m.idleThread) ∧
      m.Keeps m' d.born (m.idleThread :: d.running :: d.ready) := by
  have member := sound.running_mem
  have magic : m.mem.read32 (m.running + 308) = stackMagic := by
    rw [runs.running]
    exact runs.magic _ member
  generalize counted : { m with
      mem := m.mem.write32 (m.running + 56) (m.mem.read32 (m.running + 56) + 1)
      ticks := (m.ticks + 1) % 2 ^ 32 : Machine } = m₁
  have step : timerIntrHandler m = if ticksOf m₁.mem m.running = 0 then schedule m₁
      else .ok { m₁ with mem := storeTicks m₁.mem m.running (ticksOf m₁.mem m.running - 1) } := by
    rw [timerIntrHandler]
    refine (bind_ok (assert_of magic _)).trans ?_
    rw [← counted]
    rfl
  have outside : ∀ query, (query < d.running + 56 ∨ d.running + 60 ≤ query) →
      m₁.mem query = m.mem query := by
    intro query away
    rw [← counted, runs.running]
    exact Bytes.write32_of_outside _ _ (by omega)
  have runs₁ : m₁.Runs d := by
    refine runs.congr (by rw [← counted]) (by rw [← counted]) fun query inside => outside query ?_
    have away := runs.ofScheduler_outside member inside
    omega
  have idle : m₁.idleThread = m.idleThread := by rw [← counted]
  have keeps : m.Keeps m₁ d.born (m.idleThread :: d.running :: d.ready) := by
    refine ⟨by rw [← counted], fun query untouched => outside query ?_⟩
    have away := untouched.ticks _ member
    omega
  rw [step, runs.running]
  by_cases up : ticksOf m₁.mem d.running = 0
  · obtain ⟨m', run, runs', keeps'⟩ :=
      schedule_sound runs₁ (idle ▸ sound) (by rw [← counted]; exact off)
    rw [idle] at runs' keeps'
    refine ⟨m', _, ?_, runs', .inr rfl, keeps.trans keeps'⟩
    rw [if_pos up, run]
  · obtain ⟨ticked, keeps'⟩ := runs₁.setTicks member (m.idleThread :: d.running :: d.ready)
      (ticksOf m₁.mem d.running - 1)
    refine ⟨_, d, ?_, ticked, .inl rfl, keeps.trans keeps'⟩
    rw [if_neg up]

/-! ## Starting threads -/

/-- A name that ends before the page of the thread does. -/
def NameFits (name : List UInt8) : Prop := name.length < 3984

instance (name : List UInt8) : Decidable (NameFits name) := inferInstanceAs (Decidable (_ < _))

/-- `Thread_init` writes in the thread's page only. -/
theorem threadInit_of_outside (m : Machine) {name : List UInt8} (prio : UInt8)
    (fits : NameFits name) {query : Nat} (outside : query < thread ∨ thread + 4096 ≤ query) :
    (threadInit m thread name prio).mem query = m.mem query := by
  unfold NameFits at fits
  simp only [threadInit, storeStatus, storeTicks, strcpy]
  simp (disch := omega) only [Bytes.fill_of_outside, Bytes.write32_of_outside,
    Bytes.write8_of_ne, Bytes.copy_of_outside]

/-- What `Thread_init` leaves in a thread structure. -/
theorem threadInit_words (m : Machine) (thread : Nat) (name : List UInt8) (prio : UInt8)
    (page : thread + 4096 < 2 ^ 32) :
    statusOf (threadInit m thread name prio).mem thread =
        (if thread = m.mainThread then TaskStatus.running else .ready).code ∧
      (threadInit m thread name prio).mem.read32 thread = thread + 4096 ∧
      (threadInit m thread name prio).mem.read32 (thread + 308) = stackMagic := by
  simp only [threadInit, storeStatus, storeTicks, statusOf]
  refine ⟨?_, ?_, ?_⟩
  · simp (disch := omega) only [Bytes.read32_fill_of_disjoint, Bytes.read32_write32_of_disjoint,
      Bytes.read32_write8_of_outside]
    exact Bytes.read32_write32_self _ (TaskStatus.code_lt _)
  · simp (disch := omega) only [Bytes.read32_fill_of_disjoint, Bytes.read32_write32_of_disjoint,
      Bytes.read32_write8_of_outside]
    exact Bytes.read32_write32_self _ page
  · simp (disch := omega) only [Bytes.read32_fill_of_disjoint, Bytes.read32_write32_of_disjoint]
    exact Bytes.read32_write32_self _ (by decide)

/-- `Thread_create` writes in the thread's page only, and neither the status nor the
magic number. -/
theorem threadCreate_of_outside {mem : Bytes}
    (kstack : mem.read32 thread = thread + 4096) (entry func arg : Nat) {query : Nat}
    (outside : query < thread ∨ thread + 4096 ≤ query ∨
      (thread + 4 ≤ query ∧ query < thread + 8) ∨
      (thread + 308 ≤ query ∧ query < thread + 312)) :
    threadCreate mem entry thread func arg query = mem query := by
  rw [Threads.threadCreate_eq func arg kstack]
  simp (disch := omega) only [Bytes.write32_of_outside]

/-- A page that holds what a ready thread needs becomes one, before it is entered in the
lists. -/
theorem Machine.Runs.adopt (runs : m.Runs d) (page : ThreadPage thread) (fresh : thread ∉ d.born)
    (status : statusOf m.mem thread = TaskStatus.ready.code)
    (magic : m.mem.read32 (thread + 308) = stackMagic) :
    m.Runs { d.setPhase thread .ready with born := d.born ++ [thread] } := by
  refine ⟨runs.running, fun other member => ?_, fun other member => ?_, fun other member => ?_,
    fun other member => List.mem_append_left _ (runs.queued other member), runs.ready⟩
  · rcases List.mem_append.mp member with member | member
    · exact runs.pages other member
    · exact List.mem_singleton.mp member ▸ page
  · rcases List.mem_append.mp member with member | member
    · have different : other ≠ thread := fun equal => fresh (equal ▸ member)
      rw [Dispatcher.setPhase_of_ne _ _ different]
      exact runs.status other member
    · obtain rfl := List.mem_singleton.mp member
      rw [Dispatcher.setPhase_self]
      exact status
  · rcases List.mem_append.mp member with member | member
    · exact runs.magic other member
    · obtain rfl := List.mem_singleton.mp member
      exact magic

/-- A new page becomes a ready thread, before it is entered in the lists. -/
theorem threadInit_runs (runs : m.Runs d) (page : ThreadPage thread) (fresh : thread ∉ d.born)
    (start : Start) (fits : NameFits start.name) (notMain : thread ≠ m.mainThread) :
    ∃ mem, { threadInit m thread start.name start.prio with
        mem := threadCreate (threadInit m thread start.name start.prio).mem start.entry thread
          start.func start.funcArg } = ({ m with mem := mem } : Machine) ∧
      ({ m with mem := mem } : Machine).Runs { d.setPhase thread .ready with
        born := d.born ++ [thread] } ∧
      ∀ query, (query < thread ∨ thread + 4096 ≤ query) → mem query = m.mem query := by
  obtain ⟨status, kstack, magic⟩ := threadInit_words m thread start.name start.prio page.fits
  rw [if_neg notMain] at status
  have placed := m.image.ready_placed
  have low := page.low
  generalize created : threadCreate (threadInit m thread start.name start.prio).mem start.entry
    thread start.func start.funcArg = mem
  have away : ∀ query, (query < thread ∨ thread + 4096 ≤ query) → mem query = m.mem query := by
    intro query outside
    rw [← created, threadCreate_of_outside kstack _ _ _ (by omega),
      threadInit_of_outside m _ fits outside]
  have apart : ∀ other ∈ d.born, thread + 4096 ≤ other ∨ other + 4096 ≤ thread :=
    fun other member => page.apart (runs.pages other member)
      fun equal => fresh (equal ▸ member)
  have inside : ∀ disp, disp = 4 ∨ disp = 308 → mem.read32 (thread + disp) =
      (threadInit m thread start.name start.prio).mem.read32 (thread + disp) := by
    intro disp which
    refine Bytes.read32_congr fun query lower upper => ?_
    rw [← created, threadCreate_of_outside kstack _ _ _ (by omega)]
  have kept : ({ m with mem := mem } : Machine).Runs d := by
    refine runs.congr rfl rfl fun query relied => away query ?_
    rcases relied with (inList | ⟨other, member, _⟩) | ⟨other, member, _⟩
    · omega
    · have separate := apart other (runs.queued other member)
      omega
    · have separate := apart other member
      omega
  exact ⟨mem, rfl, kept.adopt page fresh ((inside 4 (.inl rfl)).trans status)
    ((inside 308 (.inr rfl)).trans magic), away⟩

/-- `list_find` on the list of all threads. -/
theorem Machine.ListsAll.find {born : List Nat} (all : m.ListsAll born) (thread : Nat) :
    listFind m.mem m.image.threadListAll (allListTag thread) = .ok (decide (thread ∈ born)) := by
  have injective : Function.Injective allListTag := fun left right equal =>
    Nat.add_right_cancel equal
  rw [ListAt.listFind_eq all]
  simp only [List.mem_map_of_injective injective]

/-- A byte that is no part of the two lists, the ready list with these threads in it. -/
structure OffLists (image : Image) (born ready : List Nat) (query : Nat) : Prop where
  list : query < image.threadReadyList ∨ image.threadReadyList + 16 ≤ query
  all : query < image.threadListAll ∨ image.threadListAll + 16 ≤ query
  readyTags : ∀ thread ∈ ready, query < thread + 92 ∨ thread + 100 ≤ query
  allTags : ∀ thread ∈ born, query < thread + 100 ∨ thread + 108 ≤ query

/-- A thread is appended to the list of all threads. -/
theorem Machine.ListsAll.append {born : List Nat} (all : m.ListsAll born)
    (pages : ∀ other ∈ thread :: born, ThreadPage other) (fresh : thread ∉ born) :
    (listAppend m m.image.threadListAll (allListTag thread)).ListsAll (born ++ [thread]) ∧
      ∀ query, (query < m.image.threadListAll ∨ m.image.threadListAll + 16 ≤ query) →
        (∀ other ∈ thread :: born, query < other + 100 ∨ other + 108 ≤ query) →
        (listAppend m m.image.threadListAll (allListTag thread)).mem query = m.mem query := by
  have placed := m.image.all_placed
  have page := pages thread (by simp)
  have low := page.low
  have fits := page.fits
  rw [listAppend, listInsertBefore_eq]
  constructor
  · rw [Machine.ListsAll, List.map_append, List.map_singleton]
    refine ListAt.append all (fun node isNode => ?_) (by simp only [allListTag]; omega)
    rw [mem_listNodes, List.mem_map] at isNode
    simp only [Apart, allListTag]
    rcases isNode with rfl | ⟨other, member, rfl⟩ | rfl
    · omega
    · have apart := page.apart (pages other (by simp [member])) fun equal => fresh (equal ▸ member)
      simp only [allListTag]
      omega
    · simp only [tailer]
      omega
  · intro query list tags
    refine ListAt.append_of_outside all fun node isNode => ?_
    rw [List.mem_cons, mem_listNodes, List.mem_map] at isNode
    rcases isNode with rfl | rfl | ⟨other, member, rfl⟩ | rfl
    · have tag := tags thread (by simp)
      simp only [allListTag]
      omega
    · omega
    · have tag := tags other (by simp [member])
      simp only [allListTag]
      omega
    · simp only [tailer]
      omega

/-- The list of all threads depends on its own bytes only. -/
theorem Machine.ListsAll.congr {m' : Machine} {born : List Nat} (all : m.ListsAll born)
    (image : m'.image = m.image)
    (list : ∀ query, m.image.threadListAll ≤ query → query < m.image.threadListAll + 16 →
      m'.mem query = m.mem query)
    (tags : ∀ thread ∈ born, ∀ query, thread + 100 ≤ query → query < thread + 108 →
      m'.mem query = m.mem query) : m'.ListsAll born := by
  rw [Machine.ListsAll, image]
  refine ListAt.congr all fun query inside => ?_
  by_contra changed
  refine inside fun node isNode => ?_
  rw [mem_listNodes, List.mem_map] at isNode
  by_contra near
  refine changed ?_
  rcases isNode with rfl | ⟨thread, member, rfl⟩ | rfl
  · exact list query (by omega) (by omega)
  · simp only [allListTag] at near
    exact tags thread member query (by omega) (by omega)
  · simp only [tailer] at near
    exact list query (by omega) (by omega)

/-- The scheduler leaves the list of all threads alone. -/
theorem Machine.Keeps.listsAll {m' : Machine} {born moved listed : List Nat}
    (keeps : m.Keeps m' born moved) (all : m.ListsAll listed)
    (pages : ∀ thread ∈ born, ThreadPage thread) (subset : ∀ thread ∈ moved, thread ∈ born)
    (within : ∀ thread ∈ listed, thread ∈ born) : m'.ListsAll listed := by
  have placed := m.image.all_placed
  have apart := m.image.ready_all
  have ready := m.image.ready_placed
  have other : ∀ thread ∈ born, ∀ query, thread + 100 ≤ query → query < thread + 108 →
      Untouched m.image born moved query := by
    intro thread member query lower upper
    have page := pages thread member
    have low := page.low
    have separate : ∀ other ∈ born, other = thread ∨ thread + 4096 ≤ other ∨
        other + 4096 ≤ thread := fun other member' =>
      or_iff_not_imp_left.mpr fun different => page.apart (pages other member') (Ne.symm different)
    refine ⟨by omega, fun other member' => ?_, fun other member' => ?_, fun other member' => ?_⟩
    · have away := separate other member'
      omega
    · have away := separate other member'
      omega
    · have away := separate other (subset other member')
      omega
  refine all.congr keeps.image (fun query lower upper => keeps.bytes query ?_)
    fun thread member query lower upper =>
      keeps.bytes query (other thread (within thread member) query lower upper)
  refine ⟨by omega, fun thread member => ?_, fun thread member => ?_, fun thread member => ?_⟩
  · have low := (pages thread member).low
    omega
  · have low := (pages thread member).low
    omega
  · have low := (pages thread (subset thread member)).low
    omega

/-- What the scheduler relies on is no part of the list of all threads. -/
theorem Machine.Runs.ofScheduler_all (runs : m.Runs d) {query : Nat}
    (inside : OfScheduler m.image d query) :
    (query < m.image.threadListAll ∨ m.image.threadListAll + 16 ≤ query) ∧
      ∀ other ∈ d.born, query < other + 100 ∨ other + 108 ≤ query := by
  have placed := m.image.all_placed
  have placed' := m.image.ready_placed
  have apart := m.image.ready_all
  have inside : (m.image.threadReadyList ≤ query ∧ query < m.image.threadReadyList + 16) ∨
      ∃ thread ∈ d.born, (thread + 4 ≤ query ∧ query < thread + 100) ∨
        (thread + 308 ≤ query ∧ query < thread + 312) := by
    rcases inside with (inside | ⟨thread, member, inside⟩) | ⟨thread, member, inside⟩
    · exact .inl inside
    · exact .inr ⟨thread, runs.queued thread member, by omega⟩
    · exact .inr ⟨thread, member, by omega⟩
  rcases inside with inside | ⟨thread, member, inside⟩
  · refine ⟨by omega, fun other member => ?_⟩
    have low := (runs.pages other member).low
    omega
  · have low := (runs.pages thread member).low
    refine ⟨by omega, fun other member' => ?_⟩
    by_cases same : thread = other
    · omega
    · have separate := (runs.pages thread member).apart (runs.pages other member') same
      omega

/-- A prepared thread that is appended to both lists is started. -/
theorem enter_runs (runs : m.Runs { d.setPhase thread .ready with born := d.born ++ [thread] })
    (all : m.ListsAll d.born) (queued : d.Queued idle) (fresh : d.phase thread = .absent) :
    ∃ mem, listFind m.mem m.image.threadReadyList (generalTag thread) = .ok false ∧
      (listAppend m m.image.threadReadyList (generalTag thread)).ListsAll d.born ∧
      listAppend (listAppend m m.image.threadReadyList (generalTag thread)) m.image.threadListAll
        (allListTag thread) = { m with mem := mem } ∧
      ({ m with mem := mem } : Machine).Runs (d.start thread) ∧
      ({ m with mem := mem } : Machine).ListsAll (d.start thread).born ∧
      ∀ query, OffLists m.image (d.born ++ [thread]) (thread :: d.ready) query →
        mem query = m.mem query := by
  have pages := runs.pages
  have member : thread ∈ d.born ++ [thread] := by simp
  have notBorn : thread ∉ d.born := fun born => (queued.born thread).mp born fresh
  have notReady : thread ∉ d.ready := fun ready => by
    have ready := (queued.ready thread).mp ready
    rw [fresh] at ready
    cases ready
  have placed := m.image.ready_placed
  have low := (pages thread member).low
  obtain ⟨appended, keeps⟩ := runs.append member notReady
  rw [listAppend_eq] at appended keeps
  have listed := keeps.listsAll all pages (fun other isMoved => by
      rcases List.mem_cons.mp isMoved with rfl | isReady
      · exact member
      · exact runs.queued other isReady) fun other isBorn => List.mem_append_left _ isBorn
  obtain ⟨all', bytes⟩ := listed.append
    (fun other isBorn => pages other (by simpa [or_comm] using isBorn)) notBorn
  have found := runs.find thread
  rw [show decide (thread ∈ (d.setPhase thread .ready).ready) = false from
    decide_eq_false notReady] at found
  rw [listAppend_eq] at all' bytes
  refine ⟨_, found, ?_, ?_, ?_, all', fun query elsewhere => ?_⟩
  · rw [listAppend_eq]
    exact listed
  · rw [listAppend_eq, listAppend_eq]
  · refine appended.congr rfl rfl fun query inside => ?_
    obtain ⟨list, tags⟩ := appended.ofScheduler_all inside
    exact bytes query list fun other isBorn => tags other (by simpa [or_comm] using isBorn)
  · refine (bytes query elsewhere.all fun other isBorn => ?_).trans
      (runs.ready.append_of_outside
        (Machine.Runs.outside_moved (d.setPhase thread .ready) elsewhere.list
        elsewhere.readyTags))
    exact elsewhere.allTags other (by simpa [or_comm] using isBorn)

/-- Entering a prepared thread in both lists starts it. -/
theorem enlist_runs (runs : m.Runs { d.setPhase thread .ready with born := d.born ++ [thread] })
    (all : m.ListsAll d.born) (queued : d.Queued idle) (fresh : d.phase thread = .absent) :
    ∃ mem, enlist m thread = .ok { m with mem := mem } ∧
      ({ m with mem := mem } : Machine).Runs (d.start thread) ∧
      ({ m with mem := mem } : Machine).ListsAll (d.start thread).born ∧
      ∀ query, OffLists m.image (d.born ++ [thread]) (thread :: d.ready) query →
        mem query = m.mem query := by
  have notBorn : thread ∉ d.born := fun born => (queued.born thread).mp born fresh
  obtain ⟨mem, found, listed, entered, runs', all', bytes⟩ := enter_runs runs all queued fresh
  have found' := listed.find thread
  rw [decide_eq_false notBorn] at found'
  have image : (listAppend m m.image.threadReadyList (generalTag thread)).image = m.image := by
    rw [listAppend_eq]
  refine ⟨mem, ?_, runs', all', bytes⟩
  rw [enlist, bind_ok found, bind_ok (assert_of rfl _), bind_ok found',
    bind_ok (assert_of rfl _), ← entered, image]
  rfl

/-- `thread_start` starts a thread. -/
theorem threadStart_runs (runs : m.Runs d) (all : m.ListsAll d.born) (queued : d.Queued idle)
    (page : ThreadPage thread) (fresh : d.phase thread = .absent) (start : Start)
    (fits : NameFits start.name) (notMain : thread ≠ m.mainThread) :
    ∃ mem, threadStart m thread start = .ok { m with mem := mem } ∧
      ({ m with mem := mem } : Machine).Runs (d.start thread) ∧
      ({ m with mem := mem } : Machine).ListsAll (d.start thread).born ∧
      ∀ query, OffLists m.image d.born d.ready query → (query < thread ∨ thread + 4096 ≤ query) →
        mem query = m.mem query := by
  have notBorn : thread ∉ d.born := fun born => (queued.born thread).mp born fresh
  have placed := m.image.all_placed
  have low := page.low
  obtain ⟨mem, created, prepared, outside⟩ :=
    threadInit_runs runs page notBorn start fits notMain
  have listed : ({ m with mem := mem } : Machine).ListsAll d.born := by
    refine all.congr rfl (fun query lower upper => outside query (by omega))
      fun other isBorn query lower upper => outside query ?_
    have apart := page.apart (runs.pages other isBorn) fun equal => notBorn (equal ▸ isBorn)
    omega
  obtain ⟨mem', run, runs', all', bytes⟩ := enlist_runs prepared listed queued fresh
  refine ⟨mem', ?_, runs', all', fun query elsewhere away => ?_⟩
  · simp only [threadStart]
    rw [created, run]
  · refine (bytes query ⟨elsewhere.list, elsewhere.all, fun other moved => ?_,
      fun other isBorn => ?_⟩).trans (outside query away)
    · rcases List.mem_cons.mp moved with rfl | isReady
      · omega
      · exact elsewhere.readyTags other isReady
    · rcases List.mem_append.mp isBorn with isBorn | isBorn
      · exact elsewhere.allTags other isBorn
      · rw [List.mem_singleton.mp isBorn]
        omega

/-- `Make_Main_Thread`, once the lists are empty. -/
theorem makeMainThread_runs (page : ThreadPage m.running)
    (ready : ListAt m.mem m.image.threadReadyList []) (all : m.ListsAll []) :
    ∃ mem, makeMainThread m = .ok { m with
        mem := mem
        mainThread := m.running } ∧
      ({ m with
        mem := mem
        mainThread := m.running } : Machine).Runs (.boot m.running) ∧
      ({ m with
        mem := mem
        mainThread := m.running } : Machine).ListsAll [m.running] ∧
      ∀ query, (query < m.image.threadListAll ∨ m.image.threadListAll + 16 ≤ query) →
        (query < m.running ∨ m.running + 4096 ≤ query) → mem query = m.mem query := by
  obtain ⟨status, -, magic⟩ := threadInit_words { m with mainThread := m.running } m.running
    (nameBytes ['m', 'a', 'i', 'n']) 31 page.fits
  have low := page.low
  have placed := m.image.ready_placed
  have placed' := m.image.all_placed
  have outside : ∀ query, (query < m.running ∨ m.running + 4096 ≤ query) →
      (threadInit { m with mainThread := m.running } m.running
        (nameBytes ['m', 'a', 'i', 'n']) 31).mem query = m.mem query :=
    fun query away => threadInit_of_outside _ 31 (by decide) away
  rw [if_pos rfl] at status
  generalize prepared : (threadInit { m with mainThread := m.running } m.running
    (nameBytes ['m', 'a', 'i', 'n']) 31).mem = mem at status magic outside
  have main : ({ m with
      mem := mem
      mainThread := m.running } : Machine).Runs (.boot m.running) := by
    refine ⟨rfl, ?_, ?_, ?_, nofun, ?_⟩
    · exact fun thread member => List.mem_singleton.mp member ▸ page
    · intro thread member
      obtain rfl := List.mem_singleton.mp member
      rw [Dispatcher.boot_self]
      exact status
    · intro thread member
      obtain rfl := List.mem_singleton.mp member
      exact magic
    · exact ready.nil_congr fun query lower upper => outside query (by omega)
  have listed : ({ m with
      mem := mem
      mainThread := m.running } : Machine).ListsAll [] :=
    all.congr rfl (fun query lower upper => outside query (by omega)) nofun
  have found := listed.find m.running
  have pages : ∀ other ∈ [m.running], ThreadPage other :=
    fun other member => List.mem_singleton.mp member ▸ page
  obtain ⟨all', bytes⟩ := listed.append pages List.not_mem_nil
  rw [listAppend_eq] at all' bytes
  refine ⟨_, ?_, ?_, all', fun query list away => ?_⟩
  · simp only [makeMainThread, Machine.runningThread]
    have same : threadInit { m with mainThread := m.running } m.running
        (nameBytes ['m', 'a', 'i', 'n']) 31 = { m with
          mem := mem
          mainThread := m.running } := by
      rw [← prepared]
      rfl
    rw [same]
    refine (bind_ok found).trans ((bind_ok (assert_of rfl _)).trans ?_)
    rw [listAppend_eq]
    rfl
  · refine main.congr rfl rfl fun query inside => ?_
    obtain ⟨list, tags⟩ := main.ofScheduler_all inside
    exact bytes query list tags
  · refine (bytes query list fun other member => ?_).trans (outside query away)
    rw [List.mem_singleton.mp member]
    omega

/-- After `kthread_init` the main thread runs and the idle thread is ready. -/
theorem kthreadInit_runs (main : ThreadPage m.running) {page : Nat} (fresh : ThreadPage page)
    (different : page ≠ m.running) (entry idle : Nat) :
    ∃ mem, kthreadInit m page entry idle = .ok { m with
        mem := mem
        mainThread := m.running
        idleThread := page } ∧
      ({ m with
        mem := mem
        mainThread := m.running
        idleThread := page } : Machine).Runs ((Dispatcher.boot m.running).start page) ∧
      ({ m with
        mem := mem
        mainThread := m.running
        idleThread := page } : Machine).ListsAll [m.running, page] := by
  have placed := m.image.ready_placed
  have placed' := m.image.all_placed
  have apart := m.image.ready_all
  generalize emptied : linkInit (linkInit m.mem m.image.threadReadyList) m.image.threadListAll
    = mem
  have ready : ListAt mem m.image.threadReadyList [] := by
    rw [← emptied]
    exact (linkInit_listAt m.mem (by omega)).nil_congr fun query lower upper =>
      linkInit_of_outside _ (by omega)
  have all : ({ m with mem := mem } : Machine).ListsAll [] := by
    rw [← emptied]
    exact linkInit_listAt _ (by omega)
  obtain ⟨mem₁, made, runs, listed, -⟩ :=
    makeMainThread_runs (m := { m with mem := mem }) main ready all
  have fits : NameFits (nameBytes ['i', 'd', 'l', 'e']) := by decide
  obtain ⟨mem₂, started, runs', listed', -⟩ := threadStart_runs runs listed
    (Dispatcher.boot_sound m.running).toQueued fresh
    (Dispatcher.boot_of_ne different)
    ⟨nameBytes ['i', 'd', 'l', 'e'], 10, entry, idle, 0⟩ fits different
  refine ⟨mem₂, ?_, ?_, listed'⟩
  · simp only [kthreadInit, listInit, emptied]
    rw [bind_ok made, bind_ok started]
    rfl
  · exact runs'.congr rfl rfl fun _ _ => rfl

end

end Pumelo
