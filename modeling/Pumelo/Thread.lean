import Pumelo.Foundation.Dispatcher
import Pumelo.List
import Pumelo.Switch

/-!
# Threads and their scheduler

`thread.c` and the timer of `clock.c`.  A thread has a status word, an entry for the
ready list and one for the list of all threads.  The status changes in five functions,
and a thread that gives up the processor is put back into the ready list by its caller
or by `schedule`, as its status says.  Each function refines one operation of an
abstract dispatcher.

What `switch_to` does with registers and stacks is the subject of the module on
switches: here the switch is the change of the running thread.
-/

namespace Pumelo

open Foundation

/-- `enum task_status` -/
inductive TaskStatus where
  | running
  | ready
  | blocked
  | waiting
  | hanging
  | died
  deriving DecidableEq, Repr

/-- The value of a status in the `enum`. -/
def TaskStatus.code : TaskStatus → Nat
  | running => 0
  | ready => 1
  | blocked => 2
  | waiting => 3
  | hanging => 4
  | died => 5

/-- The magic number behind a thread structure. -/
def stackMagic : Nat := 0x19870916

/-- `thread->status` -/
def statusOf (mem : Bytes) (thread : Nat) : Nat := mem.read32 (thread + 4)

/-- `thread->status = status` -/
def storeStatus (mem : Bytes) (thread : Nat) (status : TaskStatus) : Bytes :=
  mem.write32 (thread + 4) status.code

/-- `thread->priority` -/
def priorityOf (mem : Bytes) (thread : Nat) : UInt8 := mem (thread + 52)

/-- `thread->ticks` -/
def ticksOf (mem : Bytes) (thread : Nat) : UInt8 := mem (thread + 53)

/-- `thread->ticks = ticks` -/
def storeTicks (mem : Bytes) (thread : Nat) (ticks : UInt8) : Bytes :=
  mem.write8 (thread + 53) ticks

/-- `&thread->general_tag` -/
def generalTag (thread : Nat) : Nat := thread + 92

/-- `&thread->all_list_tag` -/
def allListTag (thread : Nat) : Nat := thread + 100

/-- `to_struct(tag, struct thread_struct, general_tag)` -/
def ofGeneralTag (tag : Nat) : Nat := tag - 92

/-- The bytes of a string literal, without its end. -/
def nameBytes (text : List Char) : List UInt8 := text.map fun letter => .ofNat letter.toNat

/-- `strcpy(dest, name)` -/
def strcpy (mem : Bytes) (dest : Nat) (name : List UInt8) : Bytes :=
  mem.copy dest (fun index => name.getD index 0) 0 (name.length + 1)

/-- `Thread_init`.  The loop over the open files goes to `MAX_FILE_OPEN_PER_PROC`, which
is 32, in a table of `MAX_FILES_OPEN_PER_PROC`, which is 8. -/
def threadInit (m : Machine) (pthread : Nat) (name : List UInt8) (prio : UInt8) : Machine :=
  let mem := m.mem.fill pthread 0 312
  let mem := strcpy mem (pthread + 112) name
  let mem := storeStatus mem pthread (if pthread = m.mainThread then .running else .ready)
  let mem := mem.write32 pthread (pthread + 4096)
  let mem := mem.write8 (pthread + 52) prio
  let mem := storeTicks mem pthread prio
  let mem := mem.write32 (pthread + 56) 0
  let mem := mem.write32 (pthread + 108) 0
  let mem := mem.write32 (pthread + 308) stackMagic
  let mem := mem.write32 (pthread + 60) 0
  let mem := mem.write32 (pthread + 64) 1
  let mem := mem.write32 (pthread + 64) 2
  { m with mem := mem.fill (pthread + 72) 0xff (4 * (32 - 3)) }

/-- `thread_unblock` -/
def threadUnblock (m : Machine) (pthread : Nat) : Except Fault Machine := do
  let (oldStatus, m) := intrDisable m
  let list := m.image.threadReadyList
  assert (statusOf m.mem pthread = TaskStatus.blocked.code ∨
      statusOf m.mem pthread = TaskStatus.waiting.code ∨
      statusOf m.mem pthread = TaskStatus.hanging.code)
    "(pthread->status == TASK_BLOCKED) || (pthread->status == TASK_WAITING) || (pthread->status == TASK_HANGING)"
  if statusOf m.mem pthread ≠ TaskStatus.ready.code then
    assert ((← listFind m.mem list (generalTag pthread)) = false)
      "!list_find(&thread_ready_list, &pthread->general_tag)"
    if ← listFind m.mem list (generalTag pthread) then
      .error (.panic "thread_unblock: blocked thread in ready list\n")
    let m := listPush m list (generalTag pthread)
    let m := { m with mem := storeStatus m.mem pthread .ready }
    return (setIntrStatus m oldStatus).2
  return (setIntrStatus m oldStatus).2

/-- The first part of `schedule`: a thread that was running is put back. -/
def requeue (m : Machine) (cur : Nat) : Except Fault Machine := do
  let list := m.image.threadReadyList
  if statusOf m.mem cur = TaskStatus.running.code then
    assert ((← listFind m.mem list (generalTag cur)) = false)
      "!list_find(&thread_ready_list, &cur->general_tag)"
    let m := listAppend m list (generalTag cur)
    let mem := storeTicks m.mem cur (priorityOf m.mem cur)
    return { m with mem := storeStatus mem cur .ready }
  return m

/-- The second part: the idle thread is woken when no thread is ready. -/
def wakeIdle (m : Machine) : Except Fault Machine :=
  if listEmpty m.mem m.image.threadReadyList then threadUnblock m m.idleThread else .ok m

/-- The last part: the next thread runs. -/
def switchNext (m : Machine) : Machine :=
  let (threadTag, m) := listPop m m.image.threadReadyList
  let next := ofGeneralTag threadTag
  { m with
    mem := storeStatus m.mem next .running
    running := next }

/-- `schedule`, to where the next thread runs. -/
def schedule (m : Machine) : Except Fault Machine := do
  assert (getIntrStatus m = .off) "get_intr_status() == INTR_OFF"
  let m ← requeue m m.runningThread
  let m ← wakeIdle m
  return switchNext m

/-- `thread_block`, to where the next thread runs, with the flag that the caller sets
again when it goes on. -/
def threadBlock (m : Machine) (stat : TaskStatus) : Except Fault (IntrStatus × Machine) := do
  assert (stat = .blocked ∨ stat = .waiting ∨ stat = .hanging)
    "(stat == TASK_BLOCKED) || (stat == TASK_WAITING) || (stat == TASK_HANGING)"
  let (oldStatus, m) := intrDisable m
  let m ← schedule { m with mem := storeStatus m.mem m.runningThread stat }
  return (oldStatus, m)

/-- `thread_yield`, likewise. -/
def threadYield (m : Machine) : Except Fault (IntrStatus × Machine) := do
  let cur := m.runningThread
  let (oldStatus, m) := intrDisable m
  let list := m.image.threadReadyList
  assert ((← listFind m.mem list (generalTag cur)) = false)
    "!list_find(&thread_ready_list, &cur->general_tag)"
  let m := listAppend m list (generalTag cur)
  let m ← schedule { m with mem := storeStatus m.mem cur .ready }
  return (oldStatus, m)

/-- `timer_intr_handler` -/
def timerIntrHandler (m : Machine) : Except Fault Machine := do
  let cur := m.runningThread
  assert (m.mem.read32 (cur + 308) = stackMagic) "cur_thread->stack_magic == 0x19870916"
  let m := { m with
    mem := m.mem.write32 (cur + 56) (m.mem.read32 (cur + 56) + 1)
    ticks := (m.ticks + 1) % 2 ^ 32 }
  if ticksOf m.mem cur = 0 then schedule m
  else return { m with mem := storeTicks m.mem cur (ticksOf m.mem cur - 1) }

/-- The last part of `thread_start`: the thread is entered in both lists. -/
def enlist (m : Machine) (thread : Nat) : Except Fault Machine := do
  assert ((← listFind m.mem m.image.threadReadyList (generalTag thread)) = false)
    "!list_find(&thread_ready_list, &thread->general_tag)"
  let m := listAppend m m.image.threadReadyList (generalTag thread)
  assert ((← listFind m.mem m.image.threadListAll (allListTag thread)) = false)
    "!list_find(&thread_list_all, &thread->all_list_tag)"
  return listAppend m m.image.threadListAll (allListTag thread)

/-- What a new thread is to run: `kernel_thread_entry`, its function and argument. -/
structure Start where
  name : List UInt8
  prio : UInt8
  entry : Nat
  func : Nat
  funcArg : Nat

/-- `thread_start` with the page that `get_kernel_pages` found. -/
def threadStart (m : Machine) (thread : Nat) (start : Start) : Except Fault Machine :=
  let m := threadInit m thread start.name start.prio
  enlist { m with mem := threadCreate m.mem start.entry thread start.func start.funcArg } thread

/-- `Make_Main_Thread` -/
def makeMainThread (m : Machine) : Except Fault Machine := do
  let m := { m with mainThread := m.runningThread }
  let m := threadInit m m.mainThread (nameBytes ['m', 'a', 'i', 'n']) 31
  assert ((← listFind m.mem m.image.threadListAll (allListTag m.mainThread)) = false)
    "!list_find(&thread_list_all, &main_thread->all_list_tag)"
  return listAppend m m.image.threadListAll (allListTag m.mainThread)

/-- `kthread_init` with the page of the idle thread, where `entry` and `idle` are the
addresses of `kernel_thread_entry` and `idle`. -/
def kthreadInit (m : Machine) (page entry idle : Nat) : Except Fault Machine := do
  let m := listInit m m.image.threadReadyList
  let m := listInit m m.image.threadListAll
  let m ← makeMainThread m
  let m ← threadStart m page ⟨nameBytes ['i', 'd', 'l', 'e'], 10, entry, idle, 0⟩
  return { m with idleThread := page }

end Pumelo
