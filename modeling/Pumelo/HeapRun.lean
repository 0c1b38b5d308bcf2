import Pumelo.Foundation.System
import Pumelo.MallocCall

/-!
# Runs of the kernel heap

Kernel threads call `sys_malloc` and `sys_free` in any order and store into the
blocks they hold.  Each live block is recorded with the memory it was returned
in, so that what held when it was returned can be stated in every later state.
-/

namespace Pumelo

open Foundation

/-- A block that was returned and not freed since: the size it was asked for, the
size of its class, and memory as it was when the block was returned. -/
structure LiveBlock where
  addr : Nat
  size : Nat
  room : Nat
  returned : Bytes

/-- The machine with the blocks in use. -/
structure HeapState where
  machine : Machine
  live : List LiveBlock

namespace HeapState

/-- The data of the allocator: descriptors, bitmaps, and the pages it uses without
the blocks in them that threads hold. -/
def Private (s : HeapState) (query : Nat) : Prop :=
  (s.machine.image.kBlockDescs ≤ query ∧ query < s.machine.image.kBlockDescs + 168) ∨
    s.machine.PoolByte query ∨
    (s.machine.kernelVaddr.vaddrBitmap.bitmapBits ≤ query ∧
      query < s.machine.kernelVaddr.vaddrBitmap.bitmapBits +
        s.machine.kernelVaddr.vaddrBitmap.bitmapLen) ∨
    (∃ page, s.machine.PageUsed page ∧ page ≤ query ∧ query < page + 4096) ∧
      ∀ block ∈ s.live, query < block.addr ∨ block.addr + block.room ≤ query

/-- The state after a call of `sys_malloc` returned `ptr`. -/
def allocated (s : HeapState) (size ptr : Nat) (m : Machine) : HeapState where
  machine := m
  live :=
    if ptr = 0 then s.live
    else ⟨ptr, size, blockSizeOf m.mem (arenaDesc m.mem (blockToArena ptr)), m.mem⟩ :: s.live

/-- The state after a call of `sys_free` with a live block. -/
def freed (s : HeapState) (block : LiveBlock) (m : Machine) : HeapState where
  machine := m
  live := s.live.filter fun other => other.addr ≠ block.addr

/-- One step: a call by a kernel thread, or stores to anything but the data of the
allocator. -/
inductive Step : HeapState → HeapState → Prop where
  | malloc {s : HeapState} {thread size ptr : Nat} {m : Machine} :
      KernelThread s.machine thread → 1 ≤ size → size ≤ 1023 →
      sysMalloc (s.machine.runBy thread) size = .ok (ptr, m) →
      Step s (s.allocated size ptr m)
  | free {s : HeapState} {thread : Nat} {block : LiveBlock} {m : Machine} :
      KernelThread s.machine thread → block ∈ s.live →
      sysFree (s.machine.runBy thread) block.addr = .ok m →
      Step s (s.freed block m)
  | store {s : HeapState} {mem : Bytes} :
      (∀ query, s.Private query → mem query = s.machine.mem query) →
      Step s ⟨{ s.machine with mem := mem }, s.live⟩

/-- The free list that serves requests of this size is empty. -/
def NeedsPage (s : HeapState) (size : Nat) : Prop :=
  listEmpty s.machine.mem (freeListOf (descAddr s.machine.image.kBlockDescs
    (sizeClass s.machine.mem s.machine.image.kBlockDescs size)))

/-- `malloc_pages(PF_KERNEL, 1)`, called by `sys_malloc` on behalf of a thread,
returns. -/
def PageReturned (s : HeapState) (thread : Nat) : Prop :=
  ∃ page m, mallocPages ((s.machine.runBy thread).locked .kernel) .kernel 1 =
    .ok (page, m)

/-- The contract of the heap in one state; `free` gives the entries of the seven
free lists. -/
structure Sound (s : HeapState) (free : Nat → List Nat) : Prop where
  lists : ∀ cls, cls < 7 → ListAt s.machine.mem
    (freeListOf (descAddr s.machine.image.kBlockDescs cls)) (free cls)
  once : ∀ cls, cls < 7 → (free cls).Nodup
  cnt : ∀ page, s.machine.PageUsed page → ∃ cls, cls < 7 ∧
    arenaDesc s.machine.mem page = descAddr s.machine.image.kBlockDescs cls ∧
    arenaCnt s.machine.mem page = (blocksOf page cls).countP (· ∈ free cls)
  notFree : ∀ block ∈ s.live, ∀ cls, cls < 7 → block.addr ∉ free cls
  placed : ∀ block ∈ s.live, ∃ page, s.machine.PageUsed page ∧ page + 12 ≤ block.addr ∧
    block.addr + block.room ≤ page + 4096
  apart : s.live.Pairwise fun block other =>
    block.addr + block.room ≤ other.addr ∨ other.addr + other.room ≤ block.addr
  large : ∀ block ∈ s.live, block.size ≤ block.room
  zero : ∀ block ∈ s.live, ∀ offset, offset < block.room →
    block.returned (block.addr + offset) = 0
  /-- No assert of `sys_malloc` fires: it returns if `malloc_pages` does, in case
  the list of the size's class is empty. -/
  malloc : ∀ thread size, KernelThread s.machine thread → 1 ≤ size → size ≤ 1023 →
    (s.NeedsPage size → s.PageReturned thread) →
    ∃ ptr m, sysMalloc (s.machine.runBy thread) size = .ok (ptr, m) ∧
      (size < (s.machine.pool .kernel).poolSize → ptr ≠ 0)
  /-- No assert of `sys_free` fires. -/
  release : ∀ thread block, KernelThread s.machine thread → block ∈ s.live →
    ∃ m, sysFree (s.machine.runBy thread) block.addr = .ok m

end HeapState

/-- The kernel heap after `mem_init` with a given amount of memory. -/
def heapSystem (m : Machine) (memBytesTotal : Nat) : System HeapState where
  init s := s = ⟨memInit m memBytesTotal, []⟩
  step := HeapState.Step

/-! ## The invariant -/

/-- Memory has the shape of `heap`, whose arenas are the pages in use and whose
blocks off the free lists include the live ones. -/
structure HeapState.Inv (kernelPages userPages : Nat) (s : HeapState) (heap : Heap) : Prop where
  laid : Laid s.machine kernelPages userPages
  lock : (s.machine.pool .kernel).lk = lockInit
  shape : HeapShape s.machine.image.kBlockDescs s.machine.mem heap
  used : ∀ page, s.machine.PageUsed page ↔ ∃ cls, (page, cls) ∈ heap.arenas
  live : ∀ block ∈ s.live, LiveIn heap block.addr block.room
  distinct : (s.live.map LiveBlock.addr).Nodup
  large : ∀ block ∈ s.live, block.size ≤ block.room
  zero : ∀ block ∈ s.live, ∀ offset, offset < block.room →
    block.returned (block.addr + offset) = 0

/-- The block size that the code reads for a block of an arena. -/
theorem HeapShape.room_eq {kBlockDescs : Nat} {mem : Bytes} {heap : Heap} {page cls b : Nat}
    (shape : HeapShape kBlockDescs mem heap) (arena : (page, cls) ∈ heap.arenas)
    (block : IsBlock page cls b) :
    blockSizeOf mem (arenaDesc mem (blockToArena b)) = classSize cls := by
  obtain ⟨small, aligned, pageLt, -⟩ := shape.placed page cls arena
  rw [block.blockToArena aligned pageLt, (shape.header page cls arena).1,
    shape.blockSize cls small]

/-- A live block is on no free list. -/
theorem HeapShape.liveIn_not_free {kBlockDescs : Nat} {mem : Bytes} {heap : Heap} {b size cls : Nat}
    (shape : HeapShape kBlockDescs mem heap) (live : LiveIn heap b size) (small : cls < 7) :
    b ∉ heap.free cls := by
  intro free
  obtain ⟨page, ownCls, arena, block, notFree, -⟩ := live
  obtain ⟨other, otherArena, otherBlock⟩ := shape.blocks cls small b free
  obtain ⟨-, aligned, pageLt, -⟩ := shape.placed page ownCls arena
  obtain ⟨-, otherAligned, otherLt, -⟩ := shape.placed other cls otherArena
  have samePage : page = other := (block.blockToArena aligned pageLt).symm.trans
    (otherBlock.blockToArena otherAligned otherLt)
  subst samePage
  obtain rfl := shape.class_unique arena otherArena
  exact notFree free

/-- Counting the free blocks of an arena on the list or in the arena. -/
theorem HeapShape.freeIn_eq {kBlockDescs : Nat} {mem : Bytes} {heap : Heap} {page cls : Nat}
    (shape : HeapShape kBlockDescs mem heap) (arena : (page, cls) ∈ heap.arenas) :
    heap.freeIn page cls = (blocksOf page cls).countP (· ∈ heap.free cls) := by
  obtain ⟨small, aligned, pageLt, -⟩ := shape.placed page cls arena
  rw [Heap.freeIn, List.countP_eq_length_filter, List.countP_eq_length_filter]
  apply List.Perm.length_eq
  refine (List.perm_ext_iff_of_nodup ((shape.lists cls small).nodup.filter _)
    ((blocksOf_nodup page cls).filter _)).mpr fun b => ?_
  simp only [List.mem_filter, decide_eq_true_eq]
  constructor
  · rintro ⟨free, samePage⟩
    obtain ⟨other, otherArena, block⟩ := shape.blocks cls small b free
    obtain ⟨-, otherAligned, otherLt, -⟩ := shape.placed other cls otherArena
    rw [block.blockToArena otherAligned otherLt] at samePage
    subst samePage
    obtain ⟨idx, idxLt, rfl⟩ := block
    exact ⟨List.mem_map.mpr ⟨idx, List.mem_range.mpr idxLt, rfl⟩, free⟩
  · rintro ⟨inBlocks, free⟩
    obtain ⟨idx, inRange, rfl⟩ := List.mem_map.mp inBlocks
    have block : IsBlock page cls (blockAt page cls idx) := ⟨idx, List.mem_range.mp inRange, rfl⟩
    exact ⟨free, block.blockToArena aligned pageLt⟩

namespace HeapState.Inv

variable {kernelPages userPages : Nat} {s : HeapState} {heap : Heap} {thread size : Nat}

/-- The heap as a call by a thread finds it. -/
theorem kernelHeap (inv : Inv kernelPages userPages s heap) (thread : Nat) :
    KernelHeap kernelPages userPages (s.machine.runBy thread) heap :=
  ⟨inv.laid.runBy thread, inv.lock, inv.shape, fun page cls arena =>
    (inv.used page).mpr ⟨cls, arena⟩⟩

/-- Calls that change memory in the heap only keep the pages in use. -/
theorem used_of_agree (inv : Inv kernelPages userPages s heap) {m : Machine}
    (kernelVaddr : m.kernelVaddr = s.machine.kernelVaddr)
    (agree : ∀ query, ¬HeapArea s.machine.image.kBlockDescs heap.arenas query →
      m.mem query = s.machine.mem query) (page : Nat) :
    m.PageUsed page ↔ s.machine.PageUsed page := by
  refine Machine.pageUsed_congr kernelVaddr (fun query lower upper => ?_) page
  have kernelLe := inv.laid.kernelPages_le
  have userLe := inv.laid.userPages_le
  rw [inv.laid.vaddr] at lower upper
  dsimp only at lower upper
  exact agree query ((inv.kernelHeap 0).bitmaps_off_heap (by omega) (by omega))

/-- The block that a call returned joins the live ones. -/
theorem allocated (inv : Inv kernelPages userPages s heap) {m : Machine} {heap' : Heap}
    {ptr page cls : Nat} (laid : Laid m kernelPages userPages)
    (lock : (m.pool .kernel).lk = lockInit)
    (shape : HeapShape m.image.kBlockDescs m.mem heap')
    (used : ∀ page, m.PageUsed page ↔ ∃ cls, (page, cls) ∈ heap'.arenas)
    (kept : ∀ block ∈ s.live, LiveIn heap' block.addr block.room)
    (arena : (page, cls) ∈ heap'.arenas) (isBlock : IsBlock page cls ptr)
    (taken : ptr ∉ heap'.free cls) (fresh : ∀ block ∈ s.live, block.addr ≠ ptr)
    (fits : size ≤ classSize cls) (zero : ∀ offset, offset < classSize cls →
      m.mem (ptr + offset) = 0) :
    Inv kernelPages userPages (s.allocated size ptr m) heap' := by
  have bounds := isBlock.bounds
  have nonNull : ptr ≠ 0 := by omega
  have live : (s.allocated size ptr m).live = ⟨ptr, size, classSize cls, m.mem⟩ :: s.live := by
    rw [HeapState.allocated, if_neg nonNull, shape.room_eq arena isBlock]
  refine ⟨laid, lock, shape, used, ?_, ?_, ?_, ?_⟩
  · rw [live, List.forall_mem_cons]
    exact ⟨⟨page, cls, arena, isBlock, taken, Nat.le_refl _⟩, kept⟩
  · rw [live, List.map_cons, List.nodup_cons]
    refine ⟨?_, inv.distinct⟩
    intro member
    obtain ⟨block, inLive, equal⟩ := List.mem_map.mp member
    exact fresh block inLive equal
  · rw [live, List.forall_mem_cons]
    exact ⟨fits, inv.large⟩
  · rw [live, List.forall_mem_cons]
    exact ⟨zero, inv.zero⟩

/-- `sys_malloc` when a block of the class is free. -/
theorem malloc_free (inv : Inv kernelPages userPages s heap)
    (kernel : KernelThread s.machine thread)
    (positive : 1 ≤ size) (sizeLe : size ≤ 1023)
    (accepted : size < (s.machine.pool .kernel).poolSize)
    {cls b : Nat} (clsEq : sizeClass s.machine.mem s.machine.image.kBlockDescs size = cls)
    {rest : List Nat} (free : heap.free cls = b :: rest) :
    ∃ ptr m heap', sysMalloc (s.machine.runBy thread) size = .ok (ptr, m) ∧ ptr ≠ 0 ∧
      Inv kernelPages userPages (s.allocated size ptr m) heap' := by
  obtain ⟨small, larger⟩ := inv.shape.sizeClass_lt (show size < 1024 by omega)
  rw [clsEq] at small larger
  obtain ⟨mem, call, shape, zero, agree⟩ := (inv.kernelHeap thread).sysMalloc_free
    kernel.callerFlags kernel.1 positive (by omega) accepted clsEq free
  obtain ⟨page, arena, isBlock⟩ := inv.shape.blocks cls small b (by simp [free])
  have nodup := (inv.shape.lists cls small).nodup
  rw [free, List.nodup_cons] at nodup
  have bounds := isBlock.bounds
  refine ⟨b, _, _, call, by omega, inv.allocated (inv.laid.congr (.of_eq rfl rfl)) inv.lock shape
    ?_ ?_ arena isBlock ?_ ?_ (Nat.le_of_lt larger) zero⟩
  · intro page
    refine Iff.trans ?_ (inv.used page)
    exact inv.used_of_agree (m := { s.machine.runBy thread with mem := mem, intr := .on }) rfl
      agree page
  · intro block member
    exact (inv.live block member).setFree_tail free
  · simpa [Heap.setFree] using nodup.1
  · rintro block member rfl
    exact inv.shape.liveIn_not_free (inv.live block member) small (by simp [free])

/-- `sys_malloc` when it has to make an arena. -/
theorem malloc_new (inv : Inv kernelPages userPages s heap) (kernel : KernelThread s.machine thread)
    (positive : 1 ≤ size) (sizeLe : size ≤ 1023)
    (accepted : size < (s.machine.pool .kernel).poolSize)
    {cls : Nat} (clsEq : sizeClass s.machine.mem s.machine.image.kBlockDescs size = cls)
    (empty : heap.free cls = []) (returned : s.PageReturned thread) :
    ∃ ptr m heap', sysMalloc (s.machine.runBy thread) size = .ok (ptr, m) ∧ ptr ≠ 0 ∧
      Inv kernelPages userPages (s.allocated size ptr m) heap' := by
  obtain ⟨small, larger⟩ := inv.shape.sizeClass_lt (show size < 1024 by omega)
  rw [clsEq] at small larger
  have kernelLe := inv.laid.kernelPages_le
  obtain ⟨page, m, source⟩ := returned
  obtain ⟨index, mem, inside, clear, pageEq, call, shape, zero, bits, -⟩ :=
    (inv.kernelHeap thread).sysMalloc_new kernel.callerFlags kernel.1 positive (by omega) accepted
      clsEq empty source
  have unused : ∀ other, (page, other) ∉ heap.arenas :=
    pageEq ▸ (inv.kernelHeap thread).unused clear
  have first : IsBlock page cls (blockAt page cls 0) := ⟨0, classCount_pos small, rfl⟩
  have bounds := first.bounds
  refine ⟨_, _, _, call, by omega, inv.allocated (inv.laid.congr (.of_eq rfl rfl)) inv.lock shape
    ?_ ?_ List.mem_cons_self first ?_ ?_ (Nat.le_of_lt larger) zero⟩
  · intro other
    have len : s.machine.kernelVaddr.vaddrBitmap.bitmapLen = kernelPages / 8 := by
      rw [inv.laid.vaddr]
    have inside' : index < 8 * s.machine.kernelVaddr.vaddrBitmap.bitmapLen := by rw [len]; omega
    have update := @Machine.pageUsed_update s.machine
      { s.machine.runBy thread with mem := mem, tables := m.tables, intr := .on } rfl index true
      inside' (by rw [len]; exact bits) other
    have samePage : s.machine.heapPage index = page :=
      ((inv.kernelHeap thread).heapPage_eq index).trans pageEq.symm
    refine update.trans ?_
    rw [samePage]
    split
    · next same => exact iff_of_true rfl ⟨cls, List.mem_cons.mpr (.inl (by rw [same]))⟩
    · next different =>
        rw [inv.used other]
        refine exists_congr fun otherCls => (List.mem_cons.trans (or_iff_right ?_)).symm
        exact fun equal => different (Prod.mk.inj equal).1
  · intro block member
    have kept : LiveIn (heap.addArena page cls) block.addr block.room :=
      inv.shape.liveIn_addArena (inv.live block member) (by omega) (by omega) unused
    exact kept.setFree_tail (Heap.addArena_free heap page small)
  · have nodup := blocksOf_nodup page cls
    rw [blocksOf_cons page small, List.nodup_cons] at nodup
    simpa [Heap.setFree] using nodup.1
  · intro block member equal
    obtain ⟨ownPage, ownCls, arena, isBlock, -⟩ := inv.live block member
    obtain ⟨-, aligned, pageLt, -⟩ := inv.shape.placed ownPage ownCls arena
    have samePage : ownPage = page := by
      rw [← isBlock.blockToArena aligned pageLt, equal, first.blockToArena (by omega) (by omega)]
    exact unused ownCls (samePage ▸ arena)

/-- `sys_malloc` keeps the invariant, and returns if `malloc_pages` does. -/
theorem malloc (inv : Inv kernelPages userPages s heap) (kernel : KernelThread s.machine thread)
    (positive : 1 ≤ size) (sizeLe : size ≤ 1023)
    (returned : s.NeedsPage size → s.PageReturned thread) :
    ∃ ptr m heap', sysMalloc (s.machine.runBy thread) size = .ok (ptr, m) ∧
      (size < (s.machine.pool .kernel).poolSize → ptr ≠ 0) ∧
      Inv kernelPages userPages (s.allocated size ptr m) heap' := by
  by_cases accepted : size < (s.machine.pool .kernel).poolSize
  · obtain ⟨small, -⟩ := inv.shape.sizeClass_lt (show size < 1024 by omega)
    cases free : heap.free (sizeClass s.machine.mem s.machine.image.kBlockDescs size) with
    | nil =>
        have needs : s.NeedsPage size := (inv.shape.lists _ small).listEmpty_iff.mpr free
        obtain ⟨ptr, m, heap', run, nonNull, inv'⟩ :=
          inv.malloc_new kernel positive sizeLe accepted rfl free (returned needs)
        exact ⟨ptr, m, heap', run, fun _ => nonNull, inv'⟩
    | cons b rest =>
        obtain ⟨ptr, m, heap', run, nonNull, inv'⟩ :=
          inv.malloc_free kernel positive sizeLe accepted rfl free
        exact ⟨ptr, m, heap', run, fun _ => nonNull, inv'⟩
  · have call := @sysMallocWith_rejected (s.machine.runBy thread) mallocPages .kernel size
      kernel.callerFlags (.inr (Nat.not_lt.mp accepted))
    exact ⟨0, _, heap, call, fun below => absurd below accepted,
      inv.laid.congr (.of_eq rfl rfl), inv.lock, inv.shape, inv.used, inv.live, inv.distinct,
      inv.large, inv.zero⟩

/-- `sys_free` of a live block returns and keeps the invariant. -/
theorem free (inv : Inv kernelPages userPages s heap) (kernel : KernelThread s.machine thread)
    {block : LiveBlock} (live : block ∈ s.live) :
    ∃ m heap', sysFree (s.machine.runBy thread) block.addr = .ok m ∧
      Inv kernelPages userPages (s.freed block m) heap' := by
  obtain ⟨page, cls, arena, isBlock, notFree, -⟩ := inv.live block live
  obtain ⟨small, aligned, pageLt, -⟩ := inv.shape.placed page cls arena
  have liveKept : ∀ other ∈ (s.freed block s.machine).live,
      LiveIn (heap.setFree cls (heap.free cls ++ [block.addr])) other.addr other.room := by
    intro other member
    obtain ⟨old, different⟩ := List.mem_filter.mp member
    exact (inv.live other old).append (by simpa using different)
  have distinct : ((s.freed block s.machine).live.map LiveBlock.addr).Nodup :=
    inv.distinct.sublist (List.filter_sublist.map _)
  have large : ∀ other ∈ (s.freed block s.machine).live, other.size ≤ other.room :=
    fun other member => inv.large other (List.mem_filter.mp member).1
  have zero : ∀ other ∈ (s.freed block s.machine).live, ∀ offset, offset < other.room →
      other.returned (other.addr + offset) = 0 :=
    fun other member => inv.zero other (List.mem_filter.mp member).1
  by_cases last : heap.freeIn page cls + 1 = classCount cls
  · obtain ⟨before, mem, beforeShape, shape, agree, call⟩ :=
      @HeapShape.sysFree_last (s.machine.runBy thread) heap
      .kernel cls page block.addr inv.shape small arena isBlock notFree last kernel.callerFlags
      (fun _ => (inv.kernelHeap 0).arena_lower arena) inv.lock kernel.1
    obtain ⟨index, inside, set, pageEq⟩ := (inv.used page).mpr ⟨cls, arena⟩
    have lower := (inv.kernelHeap 0).arena_lower arena
    have kernelLe := inv.laid.kernelPages_le
    have userLe := inv.laid.userPages_le
    have image := s.machine.image.descs_placed
    have vaddr := inv.laid.vaddr
    have bitmapBits : s.machine.kernelVaddr.vaddrBitmap.bitmapBits =
        0xc009a000 + kernelPages / 8 + userPages / 8 := by rw [vaddr]
    have len : s.machine.kernelVaddr.vaddrBitmap.bitmapLen = kernelPages / 8 := by rw [vaddr]
    have vaddrStart : s.machine.kernelVaddr.vaddrStart = 0xc0100000 := by rw [vaddr]
    rw [Machine.heapPage, vaddrStart] at pageEq
    rw [len] at inside
    -- `remove_virtual_pages` clears the bit of the page.
    have bitIdx :
        ((page + 2 ^ 32 - s.machine.kernelVaddr.vaddrStart) % 2 ^ 32 / 4096 + 0) % 2 ^ 32 =
          index := by
      rw [vaddrStart]
      omega
    have remove := removeVirtualPages_kernel
      { (s.machine.runBy thread).locked .kernel with mem := mem } page 1
    simp only [Machine.locked_kernelVaddr, Machine.runBy_kernelVaddr, Bytes.setBits,
      bitIdx] at remove
    have run := call _ remove
    have full : (heap.setFree cls (heap.free cls ++ [block.addr])).freeIn page cls =
        classCount cls := by
      rw [Heap.freeIn_append, if_pos (isBlock.blockToArena aligned pageLt)]
      exact last
    have arenasNodup : heap.arenas.Nodup := inv.shape.nodup.of_map
    refine ⟨_, (heap.setFree cls (heap.free cls ++ [block.addr])).release page cls, run,
      inv.laid.congr (.of_eq rfl rfl), inv.lock, ?_, ?_, ?_, distinct, large, zero⟩
    · refine shape.congr_area fun query inArea => Bytes.setBit_of_ne _ _ ?_
      rintro rfl
      rcases inArea with inDesc | ⟨other, otherCls, member, inPage⟩
      · rw [Machine.runBy_image] at inDesc
        omega
      · have above := (inv.kernelHeap 0).arena_lower (List.mem_of_mem_erase member)
        omega
    · intro other
      have bitEq : ∀ otherIndex, otherIndex < 8 * s.machine.kernelVaddr.vaddrBitmap.bitmapLen →
          s.machine.kernelVaddr.vaddrBitmap.bit (mem.setBit
            (8 * s.machine.kernelVaddr.vaddrBitmap.bitmapBits + index) false) otherIndex =
            if otherIndex = index then false
            else s.machine.kernelVaddr.vaddrBitmap.bit s.machine.mem otherIndex := by
        intro otherIndex otherInside
        have sameBit : 8 * s.machine.kernelVaddr.vaddrBitmap.bitmapBits + otherIndex =
            8 * s.machine.kernelVaddr.vaddrBitmap.bitmapBits + index ↔
              otherIndex = index := by omega
        rw [Bitmap.bit, Bytes.bit_setBit]
        simp only [sameBit]
        split
        · rfl
        · exact Bytes.bit_congr
            (agree _ ((inv.kernelHeap 0).bitmaps_off_heap (by omega) (by omega)))
      have inside' : index < 8 * s.machine.kernelVaddr.vaddrBitmap.bitmapLen := by rw [len]; omega
      have update := @Machine.pageUsed_update s.machine { s.machine.runBy thread with
        mem := mem.setBit (8 * s.machine.kernelVaddr.vaddrBitmap.bitmapBits + index) false
        intr := .on } rfl index false inside' bitEq other
      refine update.trans ?_
      rw [Machine.heapPage, vaddrStart, ← pageEq]
      simp only [Heap.release, Heap.setFree, arenasNodup.mem_erase_iff]
      split
      · next same =>
          subst same
          refine iff_of_false (by decide) ?_
          rintro ⟨otherCls, different, member⟩
          exact different (by rw [inv.shape.class_unique member arena])
      · next different =>
          rw [inv.used other]
          refine exists_congr fun otherCls => (and_iff_right ?_).symm
          exact fun equal => different (Prod.mk.inj equal).1
    · intro other member
      exact beforeShape.liveIn_release small arena full (liveKept other member)
  · obtain ⟨mem, call, shape, agree⟩ := @HeapShape.sysFree_put (s.machine.runBy thread) heap
      .kernel cls page block.addr inv.shape small arena isBlock notFree last kernel.callerFlags
      (fun _ => (inv.kernelHeap 0).arena_lower arena) inv.lock kernel.1
    refine ⟨_, _, call, inv.laid.congr (.of_eq rfl rfl), inv.lock, shape, ?_, liveKept, distinct,
      large, zero⟩
    intro other
    refine Iff.trans ?_ (inv.used other)
    exact inv.used_of_agree (m := { s.machine.runBy thread with mem := mem, intr := .on }) rfl agree
      other

/-- Stores to anything but the data of the allocator keep the invariant. -/
theorem store (inv : Inv kernelPages userPages s heap) {mem : Bytes}
    (agree : ∀ query, s.Private query → mem query = s.machine.mem query) :
    Inv kernelPages userPages ⟨{ s.machine with mem := mem }, s.live⟩ heap := by
  -- Headers and free blocks overlap no live block.
  have inPage : ∀ page cls, (page, cls) ∈ heap.arenas → ∀ query, page ≤ query →
      query < page + 4096 →
      (∀ block ∈ s.live, query < block.addr ∨ block.addr + block.room ≤ query) →
      mem query = s.machine.mem query := by
    intro page cls arena query lower upper offLive
    exact agree query (.inr (.inr (.inr ⟨⟨page, (inv.used page).mpr ⟨cls, arena⟩, lower, upper⟩,
      offLive⟩)))
  refine ⟨inv.laid.congr (.of_eq rfl rfl), inv.lock, ?_, ?_, inv.live, inv.distinct, inv.large,
    inv.zero⟩
  · refine inv.shape.congr fun query inside => ?_
    rcases inside with inDesc | ⟨page, cls, arena, lower, upper⟩ | ⟨cls, small, b, free,
      lower, upper⟩
    · exact agree query (.inl inDesc)
    · refine inPage page cls arena query lower (by omega) fun block member => ?_
      obtain ⟨ownPage, ownCls, ownArena, isBlock, -, fits⟩ := inv.live block member
      have bounds := isBlock.bounds
      by_cases same : ownPage = page
      · omega
      · have apart := inv.shape.pages_apart ownArena arena same
        omega
    · obtain ⟨page, arena, freeBlock⟩ := inv.shape.blocks cls small b free
      have freeBounds := freeBlock.bounds
      have size := classSize_ge cls
      refine inPage page cls arena query (by omega) (by omega) fun block member => ?_
      obtain ⟨ownPage, ownCls, ownArena, isBlock, notFree, fits⟩ := inv.live block member
      have bounds := isBlock.bounds
      by_cases same : ownPage = page
      · subst same
        obtain rfl := inv.shape.class_unique ownArena arena
        have apart := isBlock.apart freeBlock (fun equal => notFree (equal ▸ free))
        unfold Apart at apart
        omega
      · have apart := inv.shape.pages_apart ownArena arena same
        omega
  · intro page
    refine Iff.trans ?_ (inv.used page)
    exact @Machine.pageUsed_congr s.machine { s.machine with mem := mem } rfl
      (fun query lower upper => agree query (.inr (.inr (.inl ⟨lower, upper⟩)))) page

/-- Every step keeps the invariant. -/
theorem step (inv : Inv kernelPages userPages s heap) {next : HeapState} (taken : Step s next) :
    ∃ heap', Inv kernelPages userPages next heap' := by
  cases taken with
  | @malloc thread size ptr m kernel positive sizeLe run =>
      have returned : size < (s.machine.pool .kernel).poolSize → s.NeedsPage size →
          s.PageReturned thread := fun accepted =>
        (inv.kernelHeap thread).source_of_run kernel.callerFlags kernel.1 positive
          (by omega) accepted
          run
      by_cases accepted : size < (s.machine.pool .kernel).poolSize
      · obtain ⟨ptr', m', heap', run', -, inv'⟩ :=
          inv.malloc kernel positive sizeLe (returned accepted)
        rw [run] at run'
        cases run'
        exact ⟨heap', inv'⟩
      · have call := @sysMallocWith_rejected (s.machine.runBy thread) mallocPages .kernel size
          kernel.callerFlags (.inr (Nat.not_lt.mp accepted))
        rw [sysMalloc, call] at run
        cases run
        exact ⟨heap, inv.laid.congr (.of_eq rfl rfl), inv.lock, inv.shape, inv.used,
          inv.live, inv.distinct, inv.large, inv.zero⟩
  | @free thread block m kernel live run =>
      obtain ⟨m', heap', run', inv'⟩ := inv.free kernel live
      rw [run] at run'
      cases run'
      exact ⟨heap', inv'⟩
  | @store mem agree => exact ⟨heap, inv.store agree⟩

/-- The contract follows from the invariant. -/
theorem sound (inv : Inv kernelPages userPages s heap) : s.Sound heap.free where
  lists := inv.shape.lists
  once cls small := (inv.shape.lists cls small).nodup
  cnt page used := by
    obtain ⟨cls, arena⟩ := (inv.used page).mp used
    obtain ⟨small, -⟩ := inv.shape.placed page cls arena
    refine ⟨cls, small, (inv.shape.header page cls arena).1, ?_⟩
    rw [inv.shape.count page cls arena, inv.shape.freeIn_eq arena]
  notFree block member cls small := inv.shape.liveIn_not_free (inv.live block member) small
  placed block member := by
    obtain ⟨page, cls, arena, isBlock, -, fits⟩ := inv.live block member
    have bounds := isBlock.bounds
    exact ⟨page, (inv.used page).mpr ⟨cls, arena⟩, bounds.1, by omega⟩
  apart := by
    refine List.Pairwise.imp_of_mem ?_ (List.pairwise_map.mp inv.distinct)
    intro block other member otherMember different
    exact inv.shape.liveIn_apart (inv.live block member) (inv.live other otherMember) different
  large := inv.large
  zero := inv.zero
  malloc thread size kernel positive sizeLe returned := by
    obtain ⟨ptr, m, -, run, nonNull, -⟩ := inv.malloc kernel positive sizeLe returned
    exact ⟨ptr, m, run, nonNull⟩
  release thread block kernel live := by
    obtain ⟨m, -, run, -⟩ := inv.free kernel live
    exact ⟨m, run⟩

end HeapState.Inv

/-- `mem_init` establishes the invariant, with no arena. -/
theorem HeapState.Inv.init {m m' : Machine} {kernelPages userPages : Nat}
    (initial : MemInitialised kernelPages userPages m m') :
    Inv kernelPages userPages ⟨m', []⟩ ⟨[], fun _ => []⟩ := by
  refine ⟨initial.heap.laid, initial.heap.lock, initial.heap.shape, ?_, by simp, by simp, by simp,
    by simp⟩
  intro page
  simp only [List.not_mem_nil, exists_false, iff_false]
  rintro ⟨index, inside, set, -⟩
  rw [initial.pages index inside] at set
  cases set

/-- Every run of the kernel heap keeps its contract. -/
theorem heap_sound (m : Machine) {memBytesTotal : Nat} (lower : 0x200000 ≤ memBytesTotal)
    (upper : memBytesTotal < 2 ^ 32) {s : HeapState}
    (reachable : (heapSystem m memBytesTotal).Reachable s) : ∃ free, s.Sound free := by
  have inv : ∃ heap, HeapState.Inv ((memBytesTotal - 0x200000) / 4096 % 2 ^ 16 / 2)
      ((memBytesTotal - 0x200000) / 4096 % 2 ^ 16 -
        (memBytesTotal - 0x200000) / 4096 % 2 ^ 16 / 2) s heap := by
    induction reachable with
    | init initial =>
        rw [initial]
        exact ⟨_, HeapState.Inv.init (memInit_initialised m lower upper)⟩
    | step _ taken ih =>
        obtain ⟨heap, inv⟩ := ih
        exact inv.step taken
  obtain ⟨heap, inv⟩ := inv
  exact ⟨heap.free, inv.sound⟩

/-- With 32 MB of memory, after the main thread asked for 100 bytes. -/
theorem heap_sound_after_malloc :
    ∃ s, s.live ≠ [] ∧ (heapSystem Machine.booted 0x2000000).Reachable s ∧
      ∃ free, s.Sound free := by
  obtain ⟨m, start, initialised, tables, -, -, kernel⟩ := memInit_booted
  have initial : (heapSystem Machine.booted 0x2000000).Reachable ⟨m, []⟩ := by
    rw [← start]
    exact .init rfl
  obtain ⟨free, sound⟩ := heap_sound Machine.booted (by decide : 0x200000 ≤ 0x2000000) (by decide)
    initial
  have heap := (HeapState.Inv.init initialised).kernelHeap 0xc009e000
  obtain ⟨ptr, m', run, nonNull⟩ := sound.malloc 0xc009e000 100 kernel (by decide) (by decide)
    fun _ => (heap.obtained_iff tables (by decide) (by decide)).mpr
      (initialised.pagesAvailable (by decide))
  have reachable := System.Reachable.step initial (.malloc kernel (by decide) (by decide) run)
  refine ⟨_, ?_, reachable, heap_sound Machine.booted (by decide) (by decide) reachable⟩
  rw [HeapState.allocated, if_neg (nonNull ?_)]
  · exact List.cons_ne_nil _ _
  · rw [initialised.heap.laid.kernelSize]
    decide

end Pumelo
