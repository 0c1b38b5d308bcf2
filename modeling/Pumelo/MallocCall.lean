import Pumelo.HeapCalls
import Pumelo.KernelHalf

/-!
# One call of `sys_malloc` by a kernel thread

What a call does to a heap in any well-formed state, and exactly when it returns
memory that it obtained for the purpose.  The loop that looks for a size class
takes blocks larger than the request while the branch for whole pages starts
above 1024 bytes, so that a request of 1024 bytes finds no class.
-/

namespace Pumelo

open Foundation

/-- A heap state between two calls: the layout of `mem_init`, the kernel's lock
free, and arenas in pages that are in use. -/
structure KernelHeap (kernelPages userPages : Nat) (m : Machine) (heap : Heap) : Prop where
  laid : Laid m kernelPages userPages
  lock : (m.pool .kernel).lk = lockInit
  shape : HeapShape m.image.kBlockDescs m.mem heap
  used : ∀ page cls, (page, cls) ∈ heap.arenas → m.PageUsed page

namespace KernelHeap

variable {kernelPages userPages : Nat} {m : Machine} {heap : Heap} {size cls : Nat}

theorem heapPage_eq (state : KernelHeap kernelPages userPages m heap) (index : Nat) :
    m.heapPage index = 0xc0100000 + 4096 * index := by
  rw [Machine.heapPage, state.laid.vaddr]

/-- Arenas lie in the kernel heap, above the bitmaps. -/
theorem arena_lower (state : KernelHeap kernelPages userPages m heap) {page : Nat}
    (arena : (page, cls) ∈ heap.arenas) : 0xc0100000 ≤ page := by
  obtain ⟨index, -, -, rfl⟩ := state.used page cls arena
  rw [state.heapPage_eq]
  exact Nat.le_add_right _ _

/-- No part of the heap lies where the bitmaps are. -/
theorem bitmaps_off_heap (state : KernelHeap kernelPages userPages m heap) {query : Nat}
    (lower : 0xc009a000 ≤ query) (upper : query < 0xc0100000) :
    ¬HeapArea m.image.kBlockDescs heap.arenas query := by
  have image := m.image.descs_placed
  rintro (inDesc | ⟨page, cls, arena, inPage⟩)
  · omega
  · have above := state.arena_lower arena
    omega

/-- A page whose bit is clear belongs to no arena. -/
theorem unused (state : KernelHeap kernelPages userPages m heap) {index : Nat}
    (clear : m.kernelVaddr.vaddrBitmap.bit m.mem index = false) (other : Nat) :
    (0xc0100000 + 4096 * index, other) ∉ heap.arenas := by
  intro arena
  obtain ⟨otherIndex, -, set, equal⟩ := state.used _ other arena
  rw [state.heapPage_eq] at equal
  obtain rfl : otherIndex = index := by omega
  rw [clear] at set
  cases set

/-- With a free block in the class, `sys_malloc` returns the first one. -/
theorem sysMalloc_free (state : KernelHeap kernelPages userPages m heap)
    (caller : callerFlags m = .kernel) (thread : m.running ≠ 0) (positive : 0 < size)
    (sizeLt : size < 1024) (accepted : size < (m.pool .kernel).poolSize)
    (clsEq : sizeClass m.mem m.image.kBlockDescs size = cls) {b : Nat} {rest : List Nat}
    (free : heap.free cls = b :: rest) :
    ∃ mem, sysMalloc m size = .ok (b, { m with mem := mem, intr := .on }) ∧
      HeapShape m.image.kBlockDescs mem (heap.setFree cls rest) ∧
      (∀ offset, offset < classSize cls → mem (b + offset) = 0) ∧
      ∀ query, ¬HeapArea m.image.kBlockDescs heap.arenas query → mem query = m.mem query := by
  obtain ⟨small, -⟩ := state.shape.sizeClass_lt sizeLt
  rw [clsEq] at small
  obtain ⟨mem, run, shape, zero, agree⟩ :=
    @HeapShape.mallocBlock_free m heap mallocPages .kernel _ size state.shape small clsEq _ _ free
      state.lock
  refine ⟨mem, ?_, shape, zero, agree⟩
  rw [sysMalloc, sysMallocWith_eq caller positive accepted state.lock thread, if_neg (by omega)]
  exact run

/-- With no free block in the class, `sys_malloc` makes an arena of a page whose bit
was clear, and returns its first block. -/
theorem sysMalloc_new (state : KernelHeap kernelPages userPages m heap)
    (caller : callerFlags m = .kernel) (thread : m.running ≠ 0) (positive : 0 < size)
    (sizeLt : size < 1024) (accepted : size < (m.pool .kernel).poolSize)
    (clsEq : sizeClass m.mem m.image.kBlockDescs size = cls) (empty : heap.free cls = [])
    {page : Nat} {obtained : Machine}
    (source : mallocPages (m.locked .kernel) .kernel 1 = .ok (page, obtained)) :
    ∃ index mem, index < 8 * (kernelPages / 8) ∧
      m.kernelVaddr.vaddrBitmap.bit m.mem index = false ∧ page = 0xc0100000 + 4096 * index ∧
      sysMalloc m size = .ok (blockAt page cls 0,
        { m with mem := mem, tables := obtained.tables, intr := .on }) ∧
      HeapShape m.image.kBlockDescs mem
        ((heap.addArena page cls).setFree cls (blocksOf page cls).tail) ∧
      (∀ offset, offset < classSize cls → mem (blockAt page cls 0 + offset) = 0) ∧
      (∀ other, other < 8 * (kernelPages / 8) → m.kernelVaddr.vaddrBitmap.bit mem other =
        if other = index then true else m.kernelVaddr.vaddrBitmap.bit m.mem other) ∧
      ∀ query, (query < 0xc009a000 ∨ 0xc009e000 ≤ query) →
        ¬HeapArea m.image.kBlockDescs (heap.addArena page cls).arenas query →
        mem query = m.mem query := by
  obtain ⟨small, -⟩ := state.shape.sizeClass_lt sizeLt
  rw [clsEq] at small
  have kernelLe := state.laid.kernelPages_le
  have userLe := state.laid.userPages_le
  have image := m.image.descs_placed
  obtain ⟨index, inside, clear, pageEq, same, agree, bits⟩ :=
    (state.laid.locked .kernel).mallocPages_one source
  simp only [Machine.locked_mem, Machine.locked_kernelVaddr] at clear agree bits
  have keeps : ∀ query, HeapArea m.image.kBlockDescs heap.arenas query →
      obtained.mem query = m.mem query := by
    intro query inArea
    refine agree query ?_
    by_contra inBitmaps
    exact state.bitmaps_off_heap (by omega) (by omega) inArea
  rw [same] at source
  obtain ⟨mem, run, shape, zero, memAgree⟩ := @HeapShape.mallocBlock_new m heap mallocPages
    .kernel _ size state.shape small clsEq empty state.lock _ obtained.mem obtained.tables source
    keeps (by omega) (by omega) (by omega) (.inr (by omega)) (pageEq ▸ state.unused clear)
  refine ⟨index, mem, inside, clear, pageEq, ?_, shape, zero, ?_, ?_⟩
  · rw [sysMalloc, sysMallocWith_eq caller positive accepted state.lock thread, if_neg (by omega)]
    exact run
  · intro other otherInside
    have bitmapBits : m.kernelVaddr.vaddrBitmap.bitmapBits =
        0xc009a000 + kernelPages / 8 + userPages / 8 := by rw [state.laid.vaddr]
    rw [← bits other]
    refine Bytes.bit_congr (memAgree _ (not_heapArea.mpr ⟨by omega, ?_⟩))
    intro otherPage otherCls member
    rcases List.mem_cons.mp member with equal | arena
    · obtain ⟨rfl, rfl⟩ := Prod.mk.inj equal
      omega
    · have above := state.arena_lower arena
      omega
  · intro query offBitmaps offHeap
    exact (memAgree query offHeap).trans (agree query offBitmaps)

/-- A `sys_malloc` that returns although its list was empty got a page. -/
theorem source_of_run (state : KernelHeap kernelPages userPages m heap)
    (caller : callerFlags m = .kernel) (thread : m.running ≠ 0) (positive : 0 < size)
    (sizeLt : size < 1024) (accepted : size < (m.pool .kernel).poolSize) {p : Nat} {m' : Machine}
    (run : sysMalloc m size = .ok (p, m'))
    (needs : listEmpty m.mem (freeListOf (descAddr m.image.kBlockDescs
      (sizeClass m.mem m.image.kBlockDescs size)))) :
    ∃ page obtained, mallocPages (m.locked .kernel) .kernel 1 = .ok (page, obtained) := by
  obtain ⟨small, -⟩ := state.shape.sizeClass_lt sizeLt
  rw [sysMalloc, sysMallocWith_eq caller positive accepted state.lock thread, if_neg (by omega),
    mallocBlock] at run
  simp only [Machine.locked_mem, Machine.locked_image] at run
  rw [bind_ok (kBlockDesc_of_lt small), bind_eq_ok] at run
  obtain ⟨result, filled, -⟩ := run
  unfold refill at filled
  split at filled
  · rw [bind_eq_ok] at filled
    obtain ⟨⟨page, obtained⟩, source, -⟩ := filled
    exact ⟨page, obtained, source⟩
  · next notEmpty => exact absurd needs notEmpty

end KernelHeap

/-! ## What a call has to deliver -/

/-- The pages that a call has to obtain. -/
def pagesNeeded (m : Machine) (size : Nat) : Nat :=
  if size > 1024 then divRoundUp ((size + sizeofArena) % 2 ^ 32) pageSize
  else if listEmpty m.mem (freeListOf (descAddr m.image.kBlockDescs
    (sizeClass m.mem m.image.kBlockDescs size))) then 1
  else 0

/-- The kernel has that many pages left: the scan finds a run of virtual pages, and
the kernel pool has frames for them. -/
def PagesAvailable (m : Machine) (pgCnt : Nat) : Prop :=
  pgCnt = 0 ∨ (∃ start, bitmapScan m.mem m.kernelVaddr.vaddrBitmap pgCnt = .ok (some start)) ∧
    pgCnt ≤ (m.freeFrames .kernel).card

/-- `p` has `size` bytes in an arena behind its header. The arena belongs to one of
the descriptors, whose blocks are large enough, and its page was an arena before
or was obtained for it. -/
def ServedByArena (m m' : Machine) (heap : Heap) (size p : Nat) : Prop :=
  ∃ descIdx page, descIdx < descCnt ∧
    arenaDesc m'.mem page = descAddr m.image.kBlockDescs descIdx ∧
    size ≤ blockSizeOf m'.mem (descAddr m.image.kBlockDescs descIdx) ∧
    ((∃ cls, (page, cls) ∈ heap.arenas) ∨
      ∃ obtained, mallocPages (m.locked .kernel) .kernel 1 = .ok (page, obtained)) ∧
    page + sizeofArena ≤ p ∧ p + size ≤ page + pageSize

/-- `p` has `size` bytes behind the header in pages obtained for it, whose number
the header holds. -/
def ServedByPages (m m' : Machine) (size p : Nat) : Prop :=
  ∃ page pgCnt obtained, mallocPages (m.locked .kernel) .kernel pgCnt = .ok (page, obtained) ∧
    arenaCnt m'.mem page = pgCnt ∧ page + sizeofArena ≤ p ∧ p + size ≤ page + pgCnt * pageSize

/-- The call returns `NULL` or memory for the request. -/
def MallocContract (m : Machine) (heap : Heap) (size : Nat) : Prop :=
  ∃ p m', sysMalloc m size = .ok (p, m') ∧
    (p = 0 ∨ if size ≤ 1024 then ServedByArena m m' heap size p else ServedByPages m m' size p)

section Contract

variable {kernelPages userPages : Nat} {m : Machine} {heap : Heap} {size : Nat}

@[simp] theorem Machine.locked_poolBitmap (m : Machine) (pf query : PoolFlags) :
    ((m.locked pf).pool query).poolBitmap = (m.pool query).poolBitmap := by
  simp only [Machine.locked, Machine.setPool]
  split
  · next same => rw [same]
  · rfl

@[simp] theorem Machine.locked_freeFrames (m : Machine) (pf query : PoolFlags) :
    (m.locked pf).freeFrames query = m.freeFrames query := by
  ext index
  simp only [Machine.mem_freeFrames, Machine.frameCount, Machine.frameBit,
    Machine.locked_poolBitmap, Machine.locked_mem]

/-- Pages are obtained exactly when they are available. -/
theorem KernelHeap.obtained_iff (state : KernelHeap kernelPages userPages m heap)
    (tables : KernelTables m.tables m.cr3) {pgCnt : Nat} (positive : 1 ≤ pgCnt)
    (pgCntLe : pgCnt ≤ 65536) :
    (∃ page obtained, mallocPages (m.locked .kernel) .kernel pgCnt = .ok (page, obtained)) ↔
      PagesAvailable m pgCnt := by
  refine ((state.laid.locked .kernel).mallocPages_heap tables positive pgCntLe).trans ?_
  rw [Machine.locked_freeFrames, PagesAvailable, or_iff_right (by omega)]
  rfl

/-- The number of pages of a large request. -/
theorem largePages {size : Nat} (large : 1024 < size) (sizeLt : size < 2 ^ 27) :
    1 ≤ divRoundUp ((size + sizeofArena) % 2 ^ 32) pageSize ∧
      divRoundUp ((size + sizeofArena) % 2 ^ 32) pageSize ≤ 65536 ∧
      size + sizeofArena ≤ divRoundUp ((size + sizeofArena) % 2 ^ 32) pageSize * pageSize := by
  simp only [divRoundUp, sizeofArena, pageSize]
  omega

/-- `sys_malloc` of a large size once it has its pages. -/
theorem KernelHeap.sysMalloc_large (state : KernelHeap kernelPages userPages m heap)
    (caller : callerFlags m = .kernel) (thread : m.running ≠ 0) (large : 1024 < size)
    (accepted : size < (m.pool .kernel).poolSize) {page : Nat} {obtained : Machine}
    (source : mallocPages (m.locked .kernel) .kernel
      (divRoundUp ((size + sizeofArena) % 2 ^ 32) pageSize) = .ok (page, obtained)) :
    ∃ m', sysMalloc m size = .ok (page + 12, m') ∧ ServedByPages m m' size (page + 12) := by
  have kernelLe := state.laid.kernelPages_le
  have poolSize := state.laid.kernelSize
  obtain ⟨positive, pgCntLe, enough⟩ := largePages large (by omega)
  obtain ⟨start, inside, -, pageEq, map⟩ := (state.laid.locked .kernel).mallocPages_kernel_ok
    positive (by omega) source
  generalize pgCntEq : divRoundUp ((size + sizeofArena) % 2 ^ 32) pageSize = pgCnt at *
  obtain ⟨mem, tables, rfl⟩ : ∃ mem tables, obtained =
      { m.locked .kernel with mem := mem, tables := tables } := ⟨_, _, (mapPages_mapsOnly map).same⟩
  have nonNull : page ≠ 0 := by omega
  have ptr : (page + sizeofArena) % 2 ^ 32 = page + 12 := by
    rw [sizeofArena]
    omega
  refine ⟨{ m with
    mem := (((mem.fill page 0 (pgCnt * pageSize % 2 ^ 32)).write32 page 0).write32
      (page + 4) pgCnt).write32 (page + 8) 1
    tables := tables
    intr := .on }, ?_, page, pgCnt, _, source, ?_, Nat.le_refl _, ?_⟩
  · rw [sysMalloc, sysMallocWith_eq caller (by omega) accepted state.lock thread, if_pos large]
    simp only [mallocLarge, pgCntEq]
    rw [bind_ok source]
    simp only [ne_eq, nonNull, not_false_eq_true, if_true, Machine.store32, ptr]
    exact bind_ok (releasePool_locked state.lock _ tables)
  · rw [arenaCnt, Bytes.read32_write32_of_disjoint _ _ (by omega),
      Bytes.read32_write32_self _ (by omega)]
  · rw [sizeofArena] at enough
    omega

/-- `sys_malloc` of a small size with a class, once it has the page it may need. -/
theorem KernelHeap.sysMalloc_small (state : KernelHeap kernelPages userPages m heap)
    (caller : callerFlags m = .kernel) (thread : m.running ≠ 0) (positive : 0 < size)
    (sizeLt : size < 1024) (accepted : size < (m.pool .kernel).poolSize)
    (source : pagesNeeded m size = 1 →
      ∃ page obtained, mallocPages (m.locked .kernel) .kernel 1 = .ok (page, obtained)) :
    ∃ p m', sysMalloc m size = .ok (p, m') ∧ ServedByArena m m' heap size p := by
  obtain ⟨small, larger⟩ := state.shape.sizeClass_lt sizeLt
  cases free : heap.free (sizeClass m.mem m.image.kBlockDescs size) with
  | nil =>
      have needed : pagesNeeded m size = 1 := by
        rw [pagesNeeded, if_neg (by omega),
          if_pos ((state.shape.lists _ small).listEmpty_iff.mpr free)]
      obtain ⟨page, obtained, source⟩ := source needed
      obtain ⟨index, mem, inside, clear, -, run, shape, -⟩ :=
        state.sysMalloc_new caller thread positive sizeLt accepted rfl free source
      have arena : (page, sizeClass m.mem m.image.kBlockDescs size) ∈
          (heap.addArena page (sizeClass m.mem m.image.kBlockDescs size)).arenas :=
        List.mem_cons_self
      have bounds := IsBlock.bounds (⟨0, classCount_pos small, rfl⟩ : IsBlock page _ _)
      refine ⟨_, _, run, _, page, small, (shape.header page _ arena).1, ?_,
        .inr ⟨obtained, source⟩, bounds.1, ?_⟩
      · rw [shape.blockSize _ small]
        omega
      · rw [pageSize]
        omega
  | cons b rest =>
      obtain ⟨mem, run, shape, -⟩ :=
        state.sysMalloc_free caller thread positive sizeLt accepted rfl free
      obtain ⟨page, arena, block⟩ := state.shape.blocks _ small b (by simp [free])
      have bounds := block.bounds
      refine ⟨_, _, run, _, page, small, (shape.header page _ arena).1, ?_, .inl ⟨_, arena⟩,
        bounds.1, ?_⟩
      · rw [shape.blockSize _ small]
        omega
      · rw [pageSize]
        omega

/-- A request of 1024 bytes is looked up past the end of the descriptors. -/
theorem KernelHeap.sysMalloc_none (state : KernelHeap kernelPages userPages m heap)
    (caller : callerFlags m = .kernel) (thread : m.running ≠ 0)
    (accepted : 1024 < (m.pool .kernel).poolSize) :
    sysMalloc m 1024 = .error (.outOfBounds "k_block_descs" 7) := by
  have noClass : kBlockDesc (m.locked .kernel)
      (sizeClass m.mem m.image.kBlockDescs 1024) = .error (.outOfBounds "k_block_descs" 7) := by
    rw [state.shape.sizeClass_1024]
    rfl
  rw [sysMalloc, sysMallocWith_eq caller (by decide) accepted state.lock thread, if_neg (by decide)]
  exact bind_error noClass

/-- Calls that return, and deliver what they should, are those for other sizes than
1024 for which the pages they need are available. -/
theorem sysMalloc_contract (state : KernelHeap kernelPages userPages m heap)
    (tables : KernelTables m.tables m.cr3) (caller : callerFlags m = .kernel)
    (thread : m.running ≠ 0) (positive : 0 < size) (accepted : size < (m.pool .kernel).poolSize) :
    MallocContract m heap size ↔ size ≠ 1024 ∧ PagesAvailable m (pagesNeeded m size) := by
  have kernelLe := state.laid.kernelPages_le
  have poolSize := state.laid.kernelSize
  have eq := @sysMallocWith_eq m mallocPages .kernel size caller positive accepted state.lock thread
  rcases Nat.lt_trichotomy size 1024 with small | same | large
  · have needed : pagesNeeded m size = 1 ∨ pagesNeeded m size = 0 := by
      rw [pagesNeeded, if_neg (by omega)]
      split
      · exact .inl rfl
      · exact .inr rfl
    constructor
    · rintro ⟨p, m', run, -⟩
      refine ⟨by omega, ?_⟩
      rcases needed with one | none
      · have empty : listEmpty m.mem (freeListOf (descAddr m.image.kBlockDescs
            (sizeClass m.mem m.image.kBlockDescs size))) := by
          by_contra notEmpty
          rw [pagesNeeded, if_neg (by omega), if_neg notEmpty] at one
          cases one
        rw [one, ← state.obtained_iff tables (by decide) (by decide)]
        exact state.source_of_run caller thread positive small accepted run empty
      · exact .inl none
    · rintro ⟨-, available⟩
      obtain ⟨p, m', run, served⟩ := state.sysMalloc_small caller thread positive small accepted
        fun one => (state.obtained_iff tables (by decide) (by decide)).mpr (one ▸ available)
      exact ⟨p, m', run, .inr (by rwa [if_pos (by omega)])⟩
  · subst same
    refine iff_of_false ?_ (fun both => both.1 rfl)
    rintro ⟨p, m', run, -⟩
    rw [state.sysMalloc_none caller thread accepted] at run
    cases run
  · have needed : pagesNeeded m size = divRoundUp ((size + sizeofArena) % 2 ^ 32) pageSize :=
      if_pos large
    obtain ⟨pagesPos, pagesLe, -⟩ := largePages large (by omega)
    rw [needed, ← state.obtained_iff tables pagesPos pagesLe]
    constructor
    · rintro ⟨p, m', run, -⟩
      refine ⟨by omega, ?_⟩
      rw [sysMalloc, eq, if_pos large, mallocLarge, bind_eq_ok] at run
      obtain ⟨⟨page, obtained⟩, source, -⟩ := run
      exact ⟨page, obtained, source⟩
    · rintro ⟨-, page, obtained, source⟩
      obtain ⟨m', run, served⟩ := state.sysMalloc_large caller thread large accepted source
      exact ⟨page + 12, m', run, .inr (by rwa [if_neg (by omega)])⟩

end Contract

/-- What `mem_init` leaves: an empty heap, free locks and clear bitmaps; elsewhere
memory is as it was. -/
structure MemInitialised (kernelPages userPages : Nat) (m m' : Machine) : Prop where
  heap : KernelHeap kernelPages userPages m' ⟨[], fun _ => []⟩
  locks : ∀ pf, (m'.pool pf).lk = lockInit
  frames : ∀ pf index, index < m'.frameCount pf → m'.frameBit pf index = false
  pages : ∀ index, index < 8 * m'.kernelVaddr.vaddrBitmap.bitmapLen →
    m'.kernelVaddr.vaddrBitmap.bit m'.mem index = false
  mem : ∀ query, (query < m.image.kBlockDescs ∨ m.image.kBlockDescs + 168 ≤ query) →
    (query < 0xc009a000 ∨ 0xc009e000 ≤ query) → m'.mem query = m.mem query
  image : m'.image = m.image
  tables : m'.tables = m.tables
  cr3 : m'.cr3 = m.cr3
  running : m'.running = m.running

namespace MemInitialised

variable {kernelPages userPages : Nat} {m m' : Machine}

/-- The descriptors are set up after the pools, away from the bitmaps. -/
theorem of_pools {pools : Machine} {mem : Bytes} (laid : Laid pools kernelPages userPages)
    (locks : ∀ pf, (pools.pool pf).lk = lockInit)
    (frames : ∀ pf index, index < pools.frameCount pf → pools.frameBit pf index = false)
    (pages : ∀ index, index < 8 * pools.kernelVaddr.vaddrBitmap.bitmapLen →
      pools.kernelVaddr.vaddrBitmap.bit pools.mem index = false)
    (poolMem : ∀ query, (query < 0xc009a000 ∨ 0xc009e000 ≤ query) → pools.mem query = m.mem query)
    (image : pools.image = m.image) (tables : pools.tables = m.tables) (cr3 : pools.cr3 = m.cr3)
    (running : pools.running = m.running)
    (shape : HeapShape pools.image.kBlockDescs mem ⟨[], fun _ => []⟩)
    (agree : ∀ query,
      (query < pools.image.kBlockDescs ∨ pools.image.kBlockDescs + 168 ≤ query) →
      mem query = pools.mem query) :
    MemInitialised kernelPages userPages m { pools with mem := mem } := by
  have placed := pools.image.descs_placed
  have bitmapBits : pools.kernelVaddr.vaddrBitmap.bitmapBits =
      0xc009a000 + kernelPages / 8 + userPages / 8 := by rw [laid.vaddr]
  refine ⟨⟨laid.of_mem mem, locks .kernel, shape, by simp⟩, locks, ?_, ?_, ?_, image, tables, cr3,
    running⟩
  · intro pf index inside
    have poolBits : 0xc009a000 ≤ (pools.pool pf).poolBitmap.bitmapBits := by
      cases pf with
      | kernel => rw [laid.kernelBitmap]
      | user =>
          rw [laid.userBitmap]
          exact Nat.le_add_right _ _
    have kept : (pools.pool pf).poolBitmap.bit mem index =
        (pools.pool pf).poolBitmap.bit pools.mem index := Bytes.bit_congr (agree _ (by omega))
    exact kept.trans (frames pf index inside)
  · intro index inside
    have kept : pools.kernelVaddr.vaddrBitmap.bit mem index =
        pools.kernelVaddr.vaddrBitmap.bit pools.mem index := Bytes.bit_congr (agree _ (by omega))
    exact kept.trans (pages index inside)
  · intro query offDescs offBitmaps
    rw [← image] at offDescs
    exact (agree query offDescs).trans (poolMem query offBitmaps)

/-- A page is available as soon as the bitmap has a byte. -/
theorem pagesAvailable (initial : MemInitialised kernelPages userPages m m')
    (enough : 8 ≤ kernelPages) : PagesAvailable m' 1 := by
  have laid := initial.heap.laid
  have len : m'.kernelVaddr.vaddrBitmap.bitmapLen = kernelPages / 8 := by rw [laid.vaddr]
  have inside : 0 < m'.frameCount .kernel := by
    rw [laid.frameCount_kernel]
    omega
  refine .inr ⟨bitmapScan_one_of_clear (by omega) (initial.pages 0 (by omega)), ?_⟩
  exact Finset.card_pos.mpr
    ⟨0, Machine.mem_freeFrames.mpr ⟨inside, initial.frames .kernel 0 inside⟩⟩

/-- A thread that was a kernel thread still is one. -/
theorem kernelThread (initial : MemInitialised kernelPages userPages m m') {thread : Nat}
    (kernel : KernelThread m thread) (above : 0xc009e000 ≤ thread) : KernelThread m' thread := by
  have placed := m.image.descs_placed
  refine ⟨kernel.1, ?_⟩
  rw [← kernel.2]
  exact Bytes.read32_congr fun query lower _ => initial.mem query (by omega) (by omega)

end MemInitialised

theorem memInit_initialised (m : Machine) {memBytesTotal : Nat} (lower : 0x200000 ≤ memBytesTotal)
    (upper : memBytesTotal < 2 ^ 32) :
    MemInitialised ((memBytesTotal - 0x200000) / 4096 % 2 ^ 16 / 2)
      ((memBytesTotal - 0x200000) / 4096 % 2 ^ 16 -
        (memBytesTotal - 0x200000) / 4096 % 2 ^ 16 / 2) m (memInit m memBytesTotal) := by
  obtain ⟨mem, start, shape, agree⟩ := memInit_spec m memBytesTotal
  rw [← memPoolInit_image m memBytesTotal] at shape agree
  rw [start]
  exact .of_pools (memPoolInit_laid m lower upper) (memPoolInit_lk m memBytesTotal)
    (fun _ _ => memPoolInit_frameBit m) (fun _ => memPoolInit_virtualBit m)
    (fun _ => memPoolInit_mem m) (memPoolInit_image m _) (memPoolInit_tables m _)
    (memPoolInit_cr3 m _) (memPoolInit_running m _) shape agree

/-- With 32 MB of memory and the directory that the loader built. -/
theorem memInit_booted :
    ∃ m, memInit Machine.booted 0x2000000 = m ∧ MemInitialised 3840 3840 Machine.booted m ∧
      KernelTables m.tables m.cr3 ∧ callerFlags m = .kernel ∧ m.running ≠ 0 ∧
      KernelThread m 0xc009e000 := by
  have initial := memInit_initialised Machine.booted (by decide : 0x200000 ≤ 0x2000000) (by decide)
  have thread : KernelThread Machine.booted 0xc009e000 := by
    refine ⟨by decide, ?_⟩
    decide
  have kernel := initial.kernelThread thread (Nat.le_refl _)
  refine ⟨_, rfl, initial, ?_, ?_, ?_, kernel⟩
  · rw [initial.tables, initial.cr3]
    exact setupPage_kernelTables _
  · rw [callerFlags, Machine.runningThread, initial.running]
    exact if_pos kernel.2
  · rw [initial.running]
    decide

/-- The main thread asks for 100 bytes after `mem_init`. -/
theorem sysMalloc_contract_booted :
    MallocContract (memInit Machine.booted 0x2000000) ⟨[], fun _ => []⟩ 100 := by
  obtain ⟨m, start, initial, tables, caller, thread, -⟩ := memInit_booted
  rw [start]
  have accepted : 100 < (m.pool .kernel).poolSize := by
    rw [initial.heap.laid.kernelSize]
    decide
  refine (sysMalloc_contract initial.heap tables caller thread (by decide) accepted).mpr
    ⟨by decide, ?_⟩
  rw [pagesNeeded, if_neg (by decide)]
  split
  · exact initial.pagesAvailable (by decide)
  · exact .inl rfl

/-- There 1024 bytes, far fewer than the pool has, are not to be had. -/
theorem sysMalloc_contract_1024 :
    ∃ m, memInit Machine.booted 0x2000000 = m ∧ KernelHeap 3840 3840 m ⟨[], fun _ => []⟩ ∧
      KernelTables m.tables m.cr3 ∧ callerFlags m = .kernel ∧
      1024 < (m.pool .kernel).poolSize ∧ PagesAvailable m 1 ∧
      sysMalloc m 1024 = .error (.outOfBounds "k_block_descs" 7) ∧
      ¬MallocContract m ⟨[], fun _ => []⟩ 1024 := by
  obtain ⟨m, start, initial, tables, caller, thread, -⟩ := memInit_booted
  have accepted : 1024 < (m.pool .kernel).poolSize := by
    rw [initial.heap.laid.kernelSize]
    decide
  have run := initial.heap.sysMalloc_none caller thread accepted
  refine ⟨m, start, initial.heap, tables, caller, accepted, initial.pagesAvailable (by decide), run,
    ?_⟩
  rintro ⟨p, m', returned, -⟩
  rw [run] at returned
  cases returned

end Pumelo
