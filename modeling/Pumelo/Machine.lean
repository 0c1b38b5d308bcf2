import Pumelo.Foundation.Bytes
import Pumelo.Foundation.PageWalk
import Pumelo.Foundation.Result

/-!
# The machine state

The data that the memory manager and the scheduler work on.  C structures whose
members are reached through pointers (thread structures, list entries, arenas,
bitmaps) live in `mem` at their addresses; the named globals of `mem.c` and
`thread.c` are fields of the record.

`mem` is the address space as the running code reads and writes data in it.
`tables` is physical memory as the MMU reads it: the words of the frames that
hold page directories and page tables.  A page that `get_kernel_pages` hands out
is cleared in both, since it may become a directory.
-/

namespace Pumelo

open Foundation

@[simp] def pageSize : Nat := 4096
@[simp] def memBitmapBase : Nat := 0xc009a000
@[simp] def kernelHeapStart : Nat := 0xc0100000
@[simp] def userVaddrStart : Nat := 0x8048000
@[simp] def userStack3Vaddr : Nat := 0xc0000000 - 0x1000

/-- `PG_US_U | PG_RW_W | PG_P_1` -/
@[simp] def pgFlags : Nat := 4 ||| 2 ||| 1

/-- `DESC_CNT` -/
@[simp] def descCnt : Nat := 7

/-- `sizeof(struct arena)`: a descriptor pointer, a count and a flag. -/
@[simp] def sizeofArena : Nat := 12

/-- `sizeof(struct mem_block_desc)`: two words and a list of two entries. -/
@[simp] def sizeofMemBlockDesc : Nat := 24

/-- `DIV_ROUND_UP` on 32-bit operands. -/
def divRoundUp (n d : Nat) : Nat := ((n + d) % 2 ^ 32 + 2 ^ 32 - 1) % 2 ^ 32 / d

/-- Each of these ends the run: `panic` and the page-fault handler loop forever
with interrupts off, `diverge` is a loop of the code itself, and `outOfBounds` is
an access past the end of an array, which C leaves undefined. -/
inductive Fault where
  | panic (text : String)
  | pageFault (vaddr : Nat)
  | outOfBounds (array : String) (index : Nat)
  | diverge
  deriving DecidableEq, Repr

/-- `assert(x)` with the text of its condition. -/
def assert (condition : Prop) [Decidable condition] (text : String) : Except Fault Unit :=
  if condition then .ok () else .error (.panic ("assertion failed: " ++ text))

theorem assert_eq_ok {condition : Prop} [Decidable condition] {text : String} {result : Unit} :
    assert condition text = .ok result ↔ condition := by
  unfold assert
  split <;> simp [*]

theorem assert_of {condition : Prop} [Decidable condition] (holds : condition) (text : String) :
    assert condition text = .ok () :=
  assert_eq_ok.mpr holds

theorem assert_of_not {condition : Prop} [Decidable condition] (fails : ¬condition)
    (text : String) : assert condition text = .error (.panic ("assertion failed: " ++ text)) :=
  if_neg fails

/-- `struct bitmap`; `bitmapBits` is a pointer. -/
structure Bitmap where
  bitmapLen : Nat
  bitmapBits : Nat
  deriving DecidableEq, Repr

/-- `struct virtual_addr` -/
structure VirtualAddr where
  vaddrBitmap : Bitmap
  vaddrStart : Nat
  deriving DecidableEq, Repr

/-- `struct lock` with its spinlock; `holder` is a thread or `NULL` (0). -/
structure Lock where
  locked : Nat
  holder : Nat
  number : Nat
  deriving DecidableEq, Repr

/-- `struct pool` -/
structure Pool where
  poolBitmap : Bitmap
  paddrStart : Nat
  poolSize : Nat
  lk : Lock
  deriving DecidableEq, Repr

/-- `enum pool_flags`; each flag selects one of the two pools. -/
inductive PoolFlags where
  | kernel
  | user
  deriving DecidableEq, Repr

/-- `enum intr_status`, the interrupt flag. -/
inductive IntrStatus where
  | off
  | on
  deriving DecidableEq, Repr

/-- Where the linker put the arrays and lists that code reaches by address.
The kernel image starts at `0xc0001500` and ends below the bitmaps. -/
structure Image where
  kBlockDescs : Nat
  threadReadyList : Nat
  threadListAll : Nat
  descs_aligned : kBlockDescs % 4 = 0
  ready_aligned : threadReadyList % 4 = 0
  all_aligned : threadListAll % 4 = 0
  descs_placed : 0xc0001500 ≤ kBlockDescs ∧ kBlockDescs + 168 ≤ 0xc009a000
  ready_placed : 0xc0001500 ≤ threadReadyList ∧ threadReadyList + 16 ≤ 0xc009a000
  all_placed : 0xc0001500 ≤ threadListAll ∧ threadListAll + 16 ≤ 0xc009a000
  descs_ready : kBlockDescs + 168 ≤ threadReadyList ∨ threadReadyList + 16 ≤ kBlockDescs
  descs_all : kBlockDescs + 168 ≤ threadListAll ∨ threadListAll + 16 ≤ kBlockDescs
  ready_all : threadReadyList + 16 ≤ threadListAll ∨ threadListAll + 16 ≤ threadReadyList

/-- The state of the kernel. `running` is the page `running_thread` computes from
the stack pointer. -/
structure Machine where
  image : Image
  mem : Bytes
  tables : Words
  cr3 : Nat
  running : Nat
  intr : IntrStatus
  pool : PoolFlags → Pool
  kernelVaddr : VirtualAddr
  mainThread : Nat
  idleThread : Nat
  ticks : Nat

-- A `struct thread_struct` lies at the start of the page that is also the thread's
-- kernel stack.

/-- `pgdir` of a thread; 0 is `NULL`. -/
def pgdirOf (mem : Bytes) (thread : Nat) : Nat := mem.read32 (thread + 108)

/-- `userprog_vaddr` of a thread. -/
def userprogVaddr (mem : Bytes) (thread : Nat) : VirtualAddr :=
  ⟨⟨mem.read32 (thread + 128), mem.read32 (thread + 132)⟩, mem.read32 (thread + 136)⟩

namespace Machine

/-- A machine as the loader hands it over, with zeros for the memory contents. -/
def blank : Machine where
  image :=
    { kBlockDescs := 0xc0010000, threadReadyList := 0xc0010100, threadListAll := 0xc0010110
      descs_aligned := by decide, ready_aligned := by decide, all_aligned := by decide
      descs_placed := by decide, ready_placed := by decide, all_placed := by decide
      descs_ready := by decide, descs_all := by decide, ready_all := by decide }
  mem := fun _ => 0
  tables := fun _ => 0
  cr3 := 0x100000
  running := 0xc009e000
  intr := .off
  pool := fun _ => ⟨⟨0, 0⟩, 0, 0, ⟨0, 0, 0⟩⟩
  kernelVaddr := ⟨⟨0, 0⟩, 0⟩
  mainThread := 0
  idleThread := 0
  ticks := 0

/-- `running_thread` -/
def runningThread (m : Machine) : Nat := m.running

/-- Replace one pool. -/
def setPool (m : Machine) (pf : PoolFlags) (pool : Pool) : Machine :=
  { m with pool := fun query => if query = pf then pool else m.pool query }

/-- The machine while a given thread runs. -/
def runBy (m : Machine) (thread : Nat) : Machine := { m with running := thread }

/-- Store a word of data. -/
def store32 (m : Machine) (addr word : Nat) : Machine :=
  { m with mem := m.mem.write32 addr word }

section

variable (m : Machine) (thread : Nat)

@[simp] theorem runBy_image : (m.runBy thread).image = m.image := rfl
@[simp] theorem runBy_mem : (m.runBy thread).mem = m.mem := rfl
@[simp] theorem runBy_tables : (m.runBy thread).tables = m.tables := rfl
@[simp] theorem runBy_cr3 : (m.runBy thread).cr3 = m.cr3 := rfl
@[simp] theorem runBy_running : (m.runBy thread).running = thread := rfl
@[simp] theorem runBy_pool : (m.runBy thread).pool = m.pool := rfl
@[simp] theorem runBy_kernelVaddr : (m.runBy thread).kernelVaddr = m.kernelVaddr := rfl

end

@[simp] theorem setPool_self (m : Machine) (pf : PoolFlags) (pool : Pool) :
    (m.setPool pf pool).pool pf = pool := by
  simp [setPool]

@[simp] theorem setPool_setPool (m : Machine) (pf : PoolFlags) (first second : Pool) :
    (m.setPool pf first).setPool pf second = m.setPool pf second := by
  simp only [setPool]
  congr 1
  funext query
  split <;> rfl

/-- Writing a lock that is there changes nothing. -/
theorem setPool_lk (m : Machine) {pf : PoolFlags} {lk : Lock} (same : (m.pool pf).lk = lk) :
    m.setPool pf { m.pool pf with lk := lk } = m := by
  subst same
  have pool : (fun query => if query = pf then m.pool pf else m.pool query) = m.pool := by
    funext query
    split
    · next equal => rw [equal]
    · rfl
  simp only [setPool, pool]

end Machine

end Pumelo
