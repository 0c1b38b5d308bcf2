import Pumelo.Heap
import Pumelo.Scheduler

/-!
# Open files

The table of open files of a thread, as `Thread_init` fills it and `pcb_fd_install` of
`file.c` searches it, and the global table of open files.

`thread.h` gives the table of a thread 8 slots and `fs.h` bounds the loop of
`Thread_init` by 32, so that 24 words behind the table are overwritten.  The loop of
`pcb_fd_install` names its index where it should advance it.
-/

namespace Pumelo

open Foundation

/-- `MAX_FILES_OPEN_PER_PROC` -/
def maxFilesOpenPerProc : Nat := 8

/-- `MAX_FILE_OPEN` -/
def maxFileOpen : Nat := 32

/-- `&thread->fd_table[fd]` -/
def fdSlot (thread fd : Nat) : Nat := thread + 60 + 4 * fd

/-- `thread->fd_table[fd]`, as a word. -/
def fdTable (mem : Bytes) (thread fd : Nat) : Nat := mem.read32 (fdSlot thread fd)

/-- The word that stands for -1. -/
def noFile : Nat := 0xffffffff

/-- `struct file`; `fdInode` is a pointer. -/
structure File where
  fdPos : UInt32
  fdFlag : UInt32
  fdInode : Nat
  deriving DecidableEq, Repr

/-- The loop of `get_free_slot_in_global`, which goes on to the next slot until one has
no inode. -/
def freeSlotFrom (fileTable : Fin maxFileOpen → File) (fdIdx : Nat) : Nat :=
  if inside : fdIdx < maxFileOpen then
    if (fileTable ⟨fdIdx, inside⟩).fdInode = 0 then fdIdx else freeSlotFrom fileTable (fdIdx + 1)
  else fdIdx
termination_by maxFileOpen - fdIdx
decreasing_by
  rw [maxFileOpen] at *
  omega

/-- `get_free_slot_in_global` -/
def getFreeSlotInGlobal (fileTable : Fin maxFileOpen → File) : Int :=
  let fdIdx := freeSlotFrom fileTable 3
  if fdIdx = maxFileOpen then -1 else fdIdx

/-- The loop of `pcb_fd_install`, for at most `fuel` iterations: where it ends, and what
it stores.  The last statement of its body reads the index. -/
def fdInstallFrom (mem : Bytes) (cur : Nat) (globalFdIdx : UInt32) :
    (fuel localFdIdx : Nat) → Except Fault (Nat × Bytes)
  | 0, _ => .error .diverge
  | fuel + 1, localFdIdx =>
      if localFdIdx < maxFilesOpenPerProc then
        if fdTable mem cur localFdIdx = noFile then
          .ok (localFdIdx, mem.write32 (fdSlot cur localFdIdx) globalFdIdx.toNat)
        else fdInstallFrom mem cur globalFdIdx fuel localFdIdx
      else .ok (localFdIdx, mem)

/-- `pcb_fd_install` -/
def pcbFdInstall (fuel : Nat) (m : Machine) (globalFdIdx : UInt32) :
    Except Fault (Int × Machine) := do
  let (localFdIdx, mem) ← fdInstallFrom m.mem m.runningThread globalFdIdx fuel 3
  let m := { m with mem }
  if localFdIdx = maxFilesOpenPerProc then return (-1, m) else return (localFdIdx, m)

/-- What a new thread has in its structure, where sizes and offsets are those of
`struct thread_struct`. -/
structure ThreadInitialized (before after : Machine) (pthread : Nat) (name : List UInt8)
    (prio : UInt8) : Prop where
  standard : ∀ fd, fd < 3 → fdTable after.mem pthread fd = fd
  closed : ∀ fd, 3 ≤ fd → fd < maxFilesOpenPerProc → fdTable after.mem pthread fd = noFile
  name : ∀ index, index ≤ name.length →
    after.mem (pthread + 112 + index) = name.getD index 0
  pgdir : pgdirOf after.mem pthread = 0
  selfKstack : after.mem.read32 pthread = pthread + 4096
  stackMagic : after.mem.read32 (pthread + 308) = Pumelo.stackMagic
  status : statusOf after.mem pthread =
    (if pthread = before.mainThread then TaskStatus.running else .ready).code
  priority : priorityOf after.mem pthread = prio
  ticks : ticksOf after.mem pthread = prio
  tags : ∀ offset, 92 ≤ offset → offset < 108 → after.mem (pthread + offset) = 0
  user : ∀ offset, 128 ≤ offset → offset < 308 → after.mem (pthread + offset) = 0
  kernel : callerFlags (after.runBy pthread) = .kernel

/-- What a call of `pcb_fd_install` may do: take the first free slot behind the standard
ones, or find none. -/
inductive FdInstalled (m : Machine) (globalFdIdx : UInt32) : Int → Machine → Prop where
  | stored {fd : Nat} (lower : 3 ≤ fd) (upper : fd < maxFilesOpenPerProc)
      (free : fdTable m.mem m.runningThread fd = noFile)
      (first : ∀ earlier, 3 ≤ earlier → earlier < fd →
        fdTable m.mem m.runningThread earlier ≠ noFile) :
      FdInstalled m globalFdIdx fd
        (m.store32 (fdSlot m.runningThread fd) globalFdIdx.toNat)
  | full (taken : ∀ fd, 3 ≤ fd → fd < maxFilesOpenPerProc →
        fdTable m.mem m.runningThread fd ≠ noFile) :
      FdInstalled m globalFdIdx (-1) m

/-- A sequence of installs each of which returns, and does what it may do, with the local
descriptors that it gives. -/
inductive FdInstalls : Machine → List UInt32 → List Int → Machine → Prop where
  | none {m : Machine} : FdInstalls m [] [] m
  | call {m next last : Machine} {globalFdIdx : UInt32} {rest : List UInt32} {fd : Int}
      {fds : List Int} {fuel : Nat} :
      pcbFdInstall fuel m globalFdIdx = .ok (fd, next) → FdInstalled m globalFdIdx fd next →
      FdInstalls next rest fds last → FdInstalls m (globalFdIdx :: rest) (fd :: fds) last

/-- Files are installed as they should be: every call returns, and no two of them have the
same descriptor. -/
def FdsInstalled (m : Machine) (globalFdIdxs : List UInt32) : Prop :=
  ∃ fds last, FdInstalls m globalFdIdxs fds last ∧ (fds.filter (· ≠ -1)).Nodup

/-- The search goes to the first free slot. -/
theorem freeSlotFrom_spec (fileTable : Fin maxFileOpen → File) {fdIdx : Nat}
    (inside : fdIdx ≤ maxFileOpen) :
    fdIdx ≤ freeSlotFrom fileTable fdIdx ∧ freeSlotFrom fileTable fdIdx ≤ maxFileOpen ∧
      (∀ found : freeSlotFrom fileTable fdIdx < maxFileOpen,
        (fileTable ⟨freeSlotFrom fileTable fdIdx, found⟩).fdInode = 0) ∧
      ∀ slot : Fin maxFileOpen, fdIdx ≤ slot → slot < freeSlotFrom fileTable fdIdx →
        (fileTable slot).fdInode ≠ 0 := by
  fun_induction freeSlotFrom fileTable fdIdx with
  | case1 fdIdx less free =>
      exact ⟨Nat.le_refl _, inside, fun _ => free, fun slot lower upper => by omega⟩
  | case2 fdIdx less taken ih =>
      obtain ⟨lower, upper, free, first⟩ := ih less
      refine ⟨by omega, upper, free, fun slot slotLe slotLt => ?_⟩
      rcases Nat.eq_or_lt_of_le slotLe with same | later
      · have equal : slot = ⟨fdIdx, less⟩ := Fin.ext same.symm
        rw [equal]
        exact taken
      · exact first slot later slotLt
  | case3 fdIdx outside =>
      exact ⟨Nat.le_refl _, inside, fun found => absurd found outside, fun slot _ _ => by omega⟩

/-- `get_free_slot_in_global` gives the first free slot behind the standard ones, or finds
every one of them taken. -/
theorem getFreeSlotInGlobal_spec (fileTable : Fin maxFileOpen → File) :
    (∃ slot : Fin maxFileOpen, getFreeSlotInGlobal fileTable = slot ∧ 3 ≤ slot.val ∧
        (fileTable slot).fdInode = 0 ∧
        ∀ earlier : Fin maxFileOpen, 3 ≤ earlier.val → earlier < slot →
          (fileTable earlier).fdInode ≠ 0) ∨
      (getFreeSlotInGlobal fileTable = -1 ∧
        ∀ slot : Fin maxFileOpen, 3 ≤ slot.val → (fileTable slot).fdInode ≠ 0) := by
  obtain ⟨lower, upper, free, first⟩ := freeSlotFrom_spec fileTable (show 3 ≤ maxFileOpen by decide)
  simp only [getFreeSlotInGlobal]
  by_cases last : freeSlotFrom fileTable 3 = maxFileOpen
  · right
    rw [if_pos last]
    exact ⟨rfl, fun slot slotLe => first slot slotLe (by rw [last]; exact slot.isLt)⟩
  · left
    have found : freeSlotFrom fileTable 3 < maxFileOpen := by omega
    rw [if_neg last]
    exact ⟨⟨_, found⟩, rfl, lower, free found, first⟩

/-- The loop of `Thread_init` sets the bytes from slot 3 of the table to the size class
with number 2. -/
theorem threadInit_of_inside (m : Machine) {pthread : Nat} (name : List UInt8) (prio : UInt8)
    {query : Nat} (lower : pthread + 72 ≤ query) (upper : query < pthread + 188) :
    (threadInit m pthread name prio).mem query = 0xff :=
  Bytes.fill_of_inside _ _ lower upper

/-- A word of these bytes. -/
theorem read32_threadInit (m : Machine) {pthread : Nat} (name : List UInt8) (prio : UInt8)
    {addr : Nat} (lower : pthread + 72 ≤ addr) (upper : addr + 4 ≤ pthread + 188) :
    (threadInit m pthread name prio).mem.read32 addr = noFile := by
  have filled : ∀ query, pthread + 72 ≤ query → query < pthread + 188 →
      (threadInit m pthread name prio).mem query = 0xff :=
    fun _ lower upper => threadInit_of_inside m name prio lower upper
  rw [Bytes.read32, filled addr (by omega) (by omega), filled (addr + 1) (by omega) (by omega),
    filled (addr + 2) (by omega) (by omega), filled (addr + 3) (by omega) (by omega)]
  decide

/-- A new thread has a page directory, as the allocator sees it. -/
theorem callerFlags_threadInit (m : Machine) (pthread : Nat) (name : List UInt8) (prio : UInt8) :
    callerFlags ((threadInit m pthread name prio).runBy pthread) = .user := by
  rw [callerFlags, Machine.runBy_mem, Machine.runningThread, Machine.runBy_running, pgdirOf,
    read32_threadInit m name prio (by omega) (by omega)]
  rfl

/-- No thread is initialised as it should be: its page directory is not `NULL`. -/
theorem not_threadInitialized (m : Machine) (pthread : Nat) (name : List UInt8) (prio : UInt8) :
    ¬ThreadInitialized m (threadInit m pthread name prio) pthread name prio := by
  intro initialized
  have pgdir := initialized.pgdir
  rw [pgdirOf, read32_threadInit m name prio (by omega) (by omega)] at pgdir
  cases pgdir

/-- The main thread, as `Make_Main_Thread` initialises it. -/
theorem not_threadInitialized_main :
    ¬ThreadInitialized { Machine.blank with mainThread := 0xc009e000 }
      (threadInit { Machine.blank with mainThread := 0xc009e000 } 0xc009e000
        (nameBytes ['m', 'a', 'i', 'n']) 31)
      0xc009e000 (nameBytes ['m', 'a', 'i', 'n']) 31 := by
  intro initialized
  have kernel := initialized.kernel
  rw [callerFlags_threadInit] at kernel
  cases kernel

@[simp] theorem Machine.store32_runningThread (m : Machine) (addr word : Nat) :
    (m.store32 addr word).runningThread = m.runningThread := rfl

theorem fdTable_store32 (m : Machine) (thread fd word : Nat) :
    fdTable (m.store32 (fdSlot thread fd) word).mem thread fd = word % 2 ^ 32 :=
  Bytes.read32_write32_mod _ _ _

/-- A call finds slot 3 free. -/
theorem pcbFdInstall_of_free {m : Machine} (globalFdIdx : UInt32) (fuel : Nat)
    (free : fdTable m.mem m.runningThread 3 = noFile) :
    pcbFdInstall (fuel + 1) m globalFdIdx =
      .ok (3, m.store32 (fdSlot m.runningThread 3) globalFdIdx.toNat) := by
  rw [pcbFdInstall, fdInstallFrom, if_pos (by decide), if_pos free]
  rfl

/-- A loop that finds its slot taken never leaves it. -/
theorem fdInstallFrom_of_taken {mem : Bytes} {cur localFdIdx : Nat} (globalFdIdx : UInt32)
    (inside : localFdIdx < maxFilesOpenPerProc) (taken : fdTable mem cur localFdIdx ≠ noFile)
    (fuel : Nat) : fdInstallFrom mem cur globalFdIdx fuel localFdIdx = .error .diverge := by
  induction fuel with
  | zero => rfl
  | succ fuel ih => rw [fdInstallFrom, if_pos inside, if_neg taken, ih]

/-- A call that returns has found slot 3 free. -/
theorem of_pcbFdInstall {m next : Machine} {globalFdIdx : UInt32} {fuel : Nat} {fd : Int}
    (run : pcbFdInstall fuel m globalFdIdx = .ok (fd, next)) :
    fdTable m.mem m.runningThread 3 = noFile ∧ fd = 3 ∧
      next = m.store32 (fdSlot m.runningThread 3) globalFdIdx.toNat := by
  by_cases free : fdTable m.mem m.runningThread 3 = noFile
  · cases fuel with
    | zero => cases run
    | succ fuel =>
        rw [pcbFdInstall_of_free globalFdIdx fuel free] at run
        cases run
        exact ⟨free, rfl, rfl⟩
  · rw [pcbFdInstall, bind_error (fdInstallFrom_of_taken globalFdIdx (by decide) free fuel)] at run
    cases run

/-- Slot 3 is the first of those that a call may take. -/
theorem fdInstalled_of_free {m : Machine} (globalFdIdx : UInt32)
    (free : fdTable m.mem m.runningThread 3 = noFile) :
    FdInstalled m globalFdIdx 3 (m.store32 (fdSlot m.runningThread 3) globalFdIdx.toNat) := by
  have first : ∀ earlier, 3 ≤ earlier → earlier < 3 →
      fdTable m.mem m.runningThread earlier ≠ noFile := fun _ lower upper => by omega
  exact .stored (Nat.le_refl 3) (by decide) free first

/-- Files are installed as they should be when there is at most one, and slot 3 is free
for it. A second call does not return, unless the first has stored -1: then it gives the
same descriptor. -/
theorem fdsInstalled_iff (m : Machine) (globalFdIdxs : List UInt32) :
    FdsInstalled m globalFdIdxs ↔
      globalFdIdxs.length ≤ 1 ∧
        (globalFdIdxs ≠ [] → fdTable m.mem m.runningThread 3 = noFile) := by
  constructor
  · rintro ⟨fds, last, installs, distinct⟩
    cases installs with
    | none => exact ⟨Nat.zero_le _, fun nonempty => absurd rfl nonempty⟩
    | call run _ rest =>
        obtain ⟨free, rfl, -⟩ := of_pcbFdInstall run
        cases rest with
        | none => exact ⟨Nat.le_refl _, fun _ => free⟩
        | call again _ _ =>
            obtain ⟨-, rfl, -⟩ := of_pcbFdInstall again
            simp at distinct
  · rintro ⟨short, free⟩
    match globalFdIdxs with
    | [] => exact ⟨[], m, .none, List.nodup_nil⟩
    | [globalFdIdx] =>
        have found := free (List.cons_ne_nil _ _)
        exact ⟨[3], _, .call (pcbFdInstall_of_free globalFdIdx 0 found)
          (fdInstalled_of_free globalFdIdx found) .none, by simp⟩
    | _ :: _ :: _ => simp at short

/-- The second file that the main thread opens is not installed. -/
theorem not_fdsInstalled_main :
    ¬FdsInstalled (threadInit Machine.blank 0xc009e000 (nameBytes ['m', 'a', 'i', 'n']) 31)
      [3, 4] := by
  rintro ⟨fds, last, installs, -⟩
  cases installs with
  | call run _ rest =>
      obtain ⟨-, -, rfl⟩ := of_pcbFdInstall run
      cases rest with
      | call again _ _ =>
          have free := (of_pcbFdInstall again).1
          rw [Machine.store32_runningThread, fdTable_store32] at free
          exact absurd free (by decide)

end Pumelo
