import Pumelo.List
import Pumelo.Pages

/-!
# The heap

`block_desc_init`, `sys_malloc` and `sys_free` of `mem.c`.  Requests of up to
1024 bytes are served from arenas: pages with a 12-byte header that are cut into
blocks of one of seven sizes, the free ones linked through their first eight
bytes into the list of the size's descriptor.  Larger requests get pages of
their own.
-/

namespace Pumelo

open Foundation

/-- `&desc_array[desc_idx]` -/
def descAddr (descArray descIdx : Nat) : Nat := descArray + sizeofMemBlockDesc * descIdx

/-- `block_size` of a descriptor. -/
def blockSizeOf (mem : Bytes) (desc : Nat) : Nat := mem.read32 desc

/-- `block_per_arena` of a descriptor. -/
def blockPerArenaOf (mem : Bytes) (desc : Nat) : Nat := mem.read32 (desc + 4)

/-- `&free_list` of a descriptor. -/
def freeListOf (desc : Nat) : Nat := desc + 8

/-- `desc` of an arena. -/
def arenaDesc (mem : Bytes) (a : Nat) : Nat := mem.read32 a

/-- `cnt` of an arena. -/
def arenaCnt (mem : Bytes) (a : Nat) : Nat := mem.read32 (a + 4)

/-- `large` of an arena. -/
def arenaLarge (mem : Bytes) (a : Nat) : Nat := mem.read32 (a + 8)

/-- `arena_to_block` -/
def arenaToBlock (mem : Bytes) (a idx : Nat) : Nat :=
  (a + sizeofArena + idx * blockSizeOf mem (arenaDesc mem a)) % 2 ^ 32

/-- `block_to_arena` -/
def blockToArena (b : Nat) : Nat := b &&& 0xfffff000

/-- The loop of `block_desc_init`, with the 16-bit `block_size`. -/
def blockDescInitFrom (m : Machine) (descArray descIdx blockSize : Nat) : (left : Nat) → Machine
  | 0 => m
  | left + 1 =>
      let desc := descAddr descArray descIdx
      let m := m.store32 desc blockSize
      let m := m.store32 (desc + 4) ((pageSize - sizeofArena) / blockSize)
      let m := listInit m (freeListOf desc)
      blockDescInitFrom m descArray (descIdx + 1) (blockSize * 2 % 2 ^ 16) left

/-- `block_desc_init` -/
def blockDescInit (m : Machine) (descArray : Nat) : Machine :=
  blockDescInitFrom m descArray 0 16 descCnt

/-- The `lock_init` calls at the end of `mem_init`. -/
def resetLocks (m : Machine) : Machine :=
  let m := m.setPool .kernel { m.pool .kernel with lk := lockInit }
  m.setPool .user { m.pool .user with lk := lockInit }

/-- `mem_init`, given the memory size that the loader found. -/
def memInit (m : Machine) (memBytesTotal : Nat) : Machine :=
  let m := memPoolInit m memBytesTotal
  let m := blockDescInit m m.image.kBlockDescs
  resetLocks m

/-- The type of `malloc_pages`. -/
abbrev PageSource := Machine → PoolFlags → Nat → Except Fault (Nat × Machine)

/-- The loop of `sys_malloc` that looks for the size class. -/
def sizeClassFrom (mem : Bytes) (kBlockDescs size descIdx : Nat) : (left : Nat) → Nat
  | 0 => descIdx
  | left + 1 =>
      if size < blockSizeOf mem (descAddr kBlockDescs descIdx) then descIdx
      else sizeClassFrom mem kBlockDescs size (descIdx + 1) left

/-- The index the loop ends with; `DESC_CNT` when no class is larger than `size`. -/
def sizeClass (mem : Bytes) (kBlockDescs size : Nat) : Nat :=
  sizeClassFrom mem kBlockDescs size 0 descCnt

/-- `&k_block_descs[desc_idx]` for an access to the entry. -/
def kBlockDesc (m : Machine) (descIdx : Nat) : Except Fault Nat :=
  if descIdx < descCnt then .ok (descAddr m.image.kBlockDescs descIdx)
  else .error (.outOfBounds "k_block_descs" descIdx)

/-- The loop of `sys_malloc` that puts the blocks of a new arena on the free list. -/
def carveBlocks (m : Machine) (a : Nat) : (blockPerArena : Nat) → Except Fault Machine
  | 0 => .ok m
  | blockIdx + 1 => do
      let m ← carveBlocks m a blockIdx
      let b := arenaToBlock m.mem a blockIdx
      let found ← listFind m.mem (freeListOf (arenaDesc m.mem a)) b
      assert (found = false) "!list_find(&a->desc->free_list, &b->free_elem)"
      return listAppend m (freeListOf (arenaDesc m.mem a)) b

/-- The part of `sys_malloc` that sets up a new arena in a page it obtained. -/
def initArena (m : Machine) (desc a : Nat) : Except Fault Machine := do
  let m := { m with mem := m.mem.fill a 0 pageSize }
  let m := m.store32 a desc
  let m := m.store32 (a + 8) 0
  let m := m.store32 (a + 4) (blockPerArenaOf m.mem desc)
  let (oldStatus, m) := intrDisable m
  let m ← carveBlocks m a (blockPerArenaOf m.mem desc)
  return (setIntrStatus m oldStatus).2

/-- The part of `sys_malloc` that takes a block off a free list. -/
def takeBlock (m : Machine) (desc : Nat) : Nat × Machine :=
  let (b, m) := listPop m (freeListOf desc)
  let m := { m with mem := m.mem.fill b 0 (blockSizeOf m.mem desc) }
  let a := blockToArena b
  (b, m.store32 (a + 4) ((arenaCnt m.mem a + 2 ^ 32 - 1) % 2 ^ 32))

/-- The branch of `sys_malloc` for more than 1024 bytes. -/
def mallocLarge (mallocPages : PageSource) (m : Machine) (pf : PoolFlags) (size : Nat) :
    Except Fault (Nat × Machine) := do
  let pageCnt := divRoundUp ((size + sizeofArena) % 2 ^ 32) pageSize
  let (a, m) ← mallocPages m pf pageCnt
  if a ≠ 0 then
    let m := { m with mem := m.mem.fill a 0 (pageCnt * pageSize % 2 ^ 32) }
    let m := m.store32 a 0
    let m := m.store32 (a + 4) pageCnt
    let m := m.store32 (a + 8) 1
    let m ← releasePool m pf
    return ((a + sizeofArena) % 2 ^ 32, m)
  else
    let m ← releasePool m pf
    return (0, m)

/-- The part of `sys_malloc` that provides blocks when the free list is empty:
whether there are any now. -/
def refill (mallocPages : PageSource) (m : Machine) (pf : PoolFlags) (desc : Nat) :
    Except Fault (Bool × Machine) :=
  if listEmpty m.mem (freeListOf desc) then do
    let (a, m) ← mallocPages m pf 1
    if a = 0 then return (false, m)
    let m ← initArena m desc a
    return (true, m)
  else .ok (true, m)

/-- The branch of `sys_malloc` for at most 1024 bytes. -/
def mallocBlock (mallocPages : PageSource) (m : Machine) (pf : PoolFlags) (size : Nat) :
    Except Fault (Nat × Machine) := do
  let desc ← kBlockDesc m (sizeClass m.mem m.image.kBlockDescs size)
  let (obtained, m) ← refill mallocPages m pf desc
  if obtained then
    let (b, m) := takeBlock m desc
    let m ← releasePool m pf
    return (b, m)
  else
    let m ← releasePool m pf
    return (0, m)

/-- `PF` in `sys_malloc` and `sys_free`: kernel threads have no page directory. -/
def callerFlags (m : Machine) : PoolFlags :=
  if pgdirOf m.mem m.runningThread = 0 then .kernel else .user

/-- `sys_malloc` over a given `malloc_pages`. -/
def sysMallocWith (mallocPages : PageSource) (m : Machine) (size : Nat) :
    Except Fault (Nat × Machine) := do
  let pf := callerFlags m
  let poolSize := (m.pool pf).poolSize
  if ¬(size > 0 ∧ size < poolSize) then return (0, m)
  let m ← acquirePool m pf
  if size > 1024 then mallocLarge mallocPages m pf size
  else mallocBlock mallocPages m pf size

/-- `sys_malloc` -/
def sysMalloc (m : Machine) (size : Nat) : Except Fault (Nat × Machine) :=
  sysMallocWith mallocPages m size

/-- The loop of `sys_free` that takes the blocks of an arena off the free list. -/
def releaseBlocks (m : Machine) (a : Nat) : (blockPerArena : Nat) → Except Fault Machine
  | 0 => .ok m
  | blockIdx + 1 => do
      let m ← releaseBlocks m a blockIdx
      let b := arenaToBlock m.mem a blockIdx
      let found ← listFind m.mem (freeListOf (arenaDesc m.mem a)) b
      assert (found = true) "list_find(&a->desc->free_list, &b->free_elem)"
      return listRemove m b

/-- The part of `sys_free` that puts a block back, and gives back its page when
it was the last one of the arena in use. -/
def putBlock (m : Machine) (pf : PoolFlags) (a b : Nat) : Except Fault Machine := do
  let m := listAppend m (freeListOf (arenaDesc m.mem a)) b
  let m := m.store32 (a + 4) ((arenaCnt m.mem a + 1) % 2 ^ 32)
  if arenaCnt m.mem a = blockPerArenaOf m.mem (arenaDesc m.mem a) then
    let m ← releaseBlocks m a (blockPerArenaOf m.mem (arenaDesc m.mem a))
    removeVirtualPages m pf a 1
  else return m

/-- `sys_free` -/
def sysFree (m : Machine) (ptr : Nat) : Except Fault Machine := do
  assert (ptr ≠ 0) "ptr != NULL"
  let pf := callerFlags m
  -- Asserted in the branch for kernel threads.
  assert (pf = .kernel → ptr ≥ kernelHeapStart) "(uint32_t)ptr >= KERNEL_HEAP_START"
  let m ← acquirePool m pf
  let a := blockToArena ptr
  assert (arenaLarge m.mem a = 0 ∨ arenaLarge m.mem a = 1) "a->large == 0 || a->large == 1"
  let m ←
    if arenaDesc m.mem a = 0 ∧ arenaLarge m.mem a = 1 then
      removeVirtualPages m pf a (arenaCnt m.mem a)
    else putBlock m pf a ptr
  releasePool m pf

end Pumelo
