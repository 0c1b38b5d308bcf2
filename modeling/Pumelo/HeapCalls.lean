import Pumelo.Arenas

/-!
# Heap calls

What `sys_malloc` and `sys_free` do to a heap of the shape of `Pumelo.Arenas`,
for small blocks and over any `malloc_pages`, and the shape that `mem_init`
leaves.
-/

namespace Pumelo

open Foundation

theorem sizeClassFrom_spec {kBlockDescs size descIdx left : Nat} {mem : Bytes} {heap : Heap}
    (shape : HeapShape kBlockDescs mem heap) (total : descIdx + left = 7) :
    sizeClassFrom mem kBlockDescs size descIdx left ≤ 7 ∧
      (sizeClassFrom mem kBlockDescs size descIdx left < 7 →
        size < classSize (sizeClassFrom mem kBlockDescs size descIdx left)) ∧
      ∀ cls, descIdx ≤ cls → cls < sizeClassFrom mem kBlockDescs size descIdx left →
        classSize cls ≤ size := by
  induction left generalizing descIdx with
  | zero =>
      simp only [sizeClassFrom]
      refine ⟨by omega, by omega, by omega⟩
  | succ left ih =>
      simp only [sizeClassFrom]
      rw [shape.blockSize descIdx (by omega)]
      split
      · next found => exact ⟨by omega, fun _ => found, by omega⟩
      · next larger =>
          obtain ⟨le, found, smaller⟩ := @ih (descIdx + 1) (by omega)
          refine ⟨le, found, fun cls lower upper => ?_⟩
          rcases Nat.eq_or_lt_of_le lower with rfl | later
          · omega
          · exact smaller cls later upper

/-- A request below 1024 bytes has a class with larger blocks. -/
theorem HeapShape.sizeClass_lt {kBlockDescs size : Nat} {mem : Bytes} {heap : Heap}
    (shape : HeapShape kBlockDescs mem heap) (sizeLt : size < 1024) :
    sizeClass mem kBlockDescs size < 7 ∧ size < classSize (sizeClass mem kBlockDescs size) := by
  obtain ⟨le, found, smaller⟩ := @sizeClassFrom_spec kBlockDescs size 0 7 mem heap shape rfl
  have inside : sizeClass mem kBlockDescs size < 7 := by
    by_contra outside
    have last : classSize 6 ≤ size := smaller 6 (by omega) (by
      rw [sizeClass, descCnt] at outside
      omega)
    have largest : classSize 6 = 1024 := by decide
    omega
  exact ⟨inside, found inside⟩

/-- A request of 1024 bytes has none. -/
theorem HeapShape.sizeClass_1024 {kBlockDescs : Nat} {mem : Bytes} {heap : Heap}
    (shape : HeapShape kBlockDescs mem heap) : sizeClass mem kBlockDescs 1024 = 7 := by
  obtain ⟨le, found, -⟩ := @sizeClassFrom_spec kBlockDescs 1024 0 7 mem heap shape rfl
  by_contra different
  have inside : sizeClass mem kBlockDescs 1024 < 7 := by
    rw [sizeClass, descCnt] at different ⊢
    omega
  have larger := found inside
  have bound := classSize_le inside
  exact absurd larger (by rw [← descCnt, ← sizeClass]; omega)

section Calls

variable {m : Machine} {heap : Heap} {mallocPages : PageSource} {pf : PoolFlags} {cls size : Nat}

/-- A thread without a page directory. -/
def KernelThread (m : Machine) (thread : Nat) : Prop := thread ≠ 0 ∧ pgdirOf m.mem thread = 0

/-- Kernel threads allocate from the kernel pool. -/
theorem KernelThread.callerFlags {m : Machine} {thread : Nat} (kernel : KernelThread m thread) :
    callerFlags (m.runBy thread) = .kernel :=
  if_pos kernel.2

theorem kBlockDesc_of_lt (small : cls < 7) :
    kBlockDesc m cls = .ok (descAddr m.image.kBlockDescs cls) :=
  if_pos small

/-- With a free block in the class, `sys_malloc` returns the first one. -/
theorem HeapShape.mallocBlock_free (shape : HeapShape m.image.kBlockDescs m.mem heap)
    (small : cls < 7) (clsEq : sizeClass m.mem m.image.kBlockDescs size = cls)
    {b : Nat} {rest : List Nat} (free : heap.free cls = b :: rest)
    (lock : (m.pool pf).lk = lockInit) :
    ∃ mem, mallocBlock mallocPages (m.locked pf) pf size =
        .ok (b, { m with mem := mem, intr := .on }) ∧
      HeapShape m.image.kBlockDescs mem (heap.setFree cls rest) ∧
      (∀ offset, offset < classSize cls → mem (b + offset) = 0) ∧
      ∀ query, ¬HeapArea m.image.kBlockDescs heap.arenas query → mem query = m.mem query := by
  have notEmpty : ¬listEmpty m.mem (freeListOf (descAddr m.image.kBlockDescs cls)) := by
    rw [(shape.lists cls small).listEmpty_iff, free]
    simp
  obtain ⟨mem, take, shape', zero, agree⟩ :=
    @HeapShape.takeBlock (m.locked pf) heap cls b shape small rest free
  refine ⟨mem, ?_, shape', zero, agree⟩
  have filled : refill mallocPages (m.locked pf) pf (descAddr m.image.kBlockDescs cls) =
      .ok (true, m.locked pf) := if_neg notEmpty
  simp only [mallocBlock, Machine.locked_mem, Machine.locked_image, clsEq]
  rw [bind_ok (kBlockDesc_of_lt small)]
  simp only [Machine.locked_image]
  rw [bind_ok filled]
  simp only [Machine.locked_image] at take
  simp only [if_true, take]
  exact bind_ok (releasePool_locked lock mem m.tables)

/-- The blocks of an arena start with the first one. -/
theorem blocksOf_cons (page : Nat) (small : cls < 7) :
    blocksOf page cls = blockAt page cls 0 :: (blocksOf page cls).tail := by
  obtain ⟨count, countEq⟩ := Nat.exists_eq_add_one_of_ne_zero (classCount_pos small).ne'
  simp only [blocksOf, countEq, List.range_succ_eq_map, List.map_cons, List.tail_cons]

theorem Heap.addArena_free (heap : Heap) (page : Nat) (small : cls < 7) :
    (heap.addArena page cls).free cls = blockAt page cls 0 :: (blocksOf page cls).tail := by
  rw [← blocksOf_cons page small]
  exact if_pos rfl

/-- No block of an arena is listed twice. -/
theorem blocksOf_nodup (page cls : Nat) : (blocksOf page cls).Nodup :=
  List.Nodup.map (fun _ _ => blockAt_inj) List.nodup_range

/-- With no free block in the class, `sys_malloc` makes an arena of the page that
`malloc_pages` returns, and returns its first block. -/
theorem HeapShape.mallocBlock_new (shape : HeapShape m.image.kBlockDescs m.mem heap)
    (small : cls < 7) (clsEq : sizeClass m.mem m.image.kBlockDescs size = cls)
    (empty : heap.free cls = []) (lock : (m.pool pf).lk = lockInit)
    {page : Nat} {pageMem : Bytes} {pageTables : Words}
    (source : mallocPages (m.locked pf) pf 1 =
      .ok (page, { m.locked pf with mem := pageMem, tables := pageTables }))
    (keeps : ∀ query, HeapArea m.image.kBlockDescs heap.arenas query →
      pageMem query = m.mem query)
    (nonNull : page ≠ 0) (aligned : page % 4096 = 0) (pageLt : page < 2 ^ 32)
    (placed : page + 4096 ≤ m.image.kBlockDescs ∨ m.image.kBlockDescs + 168 ≤ page)
    (unused : ∀ other, (page, other) ∉ heap.arenas) :
    ∃ mem, mallocBlock mallocPages (m.locked pf) pf size =
        .ok (blockAt page cls 0, { m with mem := mem, tables := pageTables, intr := .on }) ∧
      HeapShape m.image.kBlockDescs mem
        ((heap.addArena page cls).setFree cls (blocksOf page cls).tail) ∧
      (∀ offset, offset < classSize cls → mem (blockAt page cls 0 + offset) = 0) ∧
      ∀ query, ¬HeapArea m.image.kBlockDescs (heap.addArena page cls).arenas query →
        mem query = pageMem query := by
  have isEmpty : listEmpty m.mem (freeListOf (descAddr m.image.kBlockDescs cls)) :=
    (shape.lists cls small).listEmpty_iff.mpr empty
  -- The machine with the page, then with the arena in it.
  let obtained : Machine := { m.locked pf with mem := pageMem, tables := pageTables }
  obtain ⟨arenaMem, init, arenaShape, arenaAgree⟩ :=
    @HeapShape.initArena obtained heap page cls (shape.congr_area keeps) small empty aligned pageLt
      placed unused
  let arena : Machine := { obtained with mem := arenaMem }
  have first := Heap.addArena_free heap page small
  obtain ⟨mem, take, shape', zero, agree⟩ :=
    @HeapShape.takeBlock arena (heap.addArena page cls) cls (blockAt page cls 0) arenaShape small
      (blocksOf page cls).tail first
  refine ⟨mem, ?_, shape', zero, fun query outside =>
    (agree query outside).trans (arenaAgree query outside)⟩
  have filled : refill mallocPages (m.locked pf) pf (descAddr m.image.kBlockDescs cls) =
      .ok (true, arena) := by
    rw [refill, Machine.locked_mem, if_pos isEmpty, bind_ok source]
    simp only [if_neg nonNull]
    exact bind_ok init
  simp only [mallocBlock, Machine.locked_mem, Machine.locked_image, clsEq]
  rw [bind_ok (kBlockDesc_of_lt small)]
  simp only [Machine.locked_image]
  rw [bind_ok filled]
  have take' : Pumelo.takeBlock arena (descAddr m.image.kBlockDescs cls) =
      (blockAt page cls 0, { arena with mem := mem }) := take
  simp only [if_true, take']
  exact bind_ok (releasePool_locked lock mem pageTables)

/-- `sys_malloc` once its checks have passed and it holds the lock. -/
theorem sysMallocWith_eq (caller : callerFlags m = pf)
    (positive : 0 < size) (sizeLt : size < (m.pool pf).poolSize)
    (lock : (m.pool pf).lk = lockInit) (thread : m.running ≠ 0) :
    sysMallocWith mallocPages m size =
      if size > 1024 then mallocLarge mallocPages (m.locked pf) pf size
      else mallocBlock mallocPages (m.locked pf) pf size := by
  have accepted : ¬¬(size > 0 ∧ size < (m.pool pf).poolSize) := fun rejected =>
    rejected ⟨positive, sizeLt⟩
  simp only [sysMallocWith, caller]
  rw [if_neg accepted, bind_ok (acquirePool_free lock thread)]

/-- The check at the entry of `sys_malloc` returns `NULL` and changes nothing. -/
theorem sysMallocWith_rejected
    (caller : callerFlags m = pf)
    (rejected : size = 0 ∨ (m.pool pf).poolSize ≤ size) :
    sysMallocWith mallocPages m size = .ok (0, m) := by
  have notAccepted : ¬(size > 0 ∧ size < (m.pool pf).poolSize) := by omega
  simp only [sysMallocWith, caller]
  rw [if_pos notAccepted]
  rfl

/-- `remove_virtual_pages` clears the bits of the run. -/
theorem removeVirtualPages_kernel (m : Machine) (vaddr pgCnt : Nat) :
    removeVirtualPages m .kernel vaddr pgCnt =
      .ok { m with
        mem := m.mem.setBits (fun idx => 8 * m.kernelVaddr.vaddrBitmap.bitmapBits +
          ((vaddr + 2 ^ 32 - m.kernelVaddr.vaddrStart) % 2 ^ 32 / 4096 + idx) % 2 ^ 32)
          false pgCnt } := by
  simp only [removeVirtualPages, setRun_zero, pageSize]
  rfl

section Free

variable {page b : Nat}

/-- `sys_free` of a block up to the point where the block is back on its list. -/
theorem HeapShape.sysFree_eq (shape : HeapShape m.image.kBlockDescs m.mem heap)
    (arena : (page, cls) ∈ heap.arenas) (block : IsBlock page cls b)
    (caller : callerFlags m = pf)
    (kernelPage : pf = .kernel → 0xc0100000 ≤ page)
    (lock : (m.pool pf).lk = lockInit) (thread : m.running ≠ 0) :
    sysFree m b = (putBlock (m.locked pf) pf page b >>= fun m => releasePool m pf) := by
  obtain ⟨-, aligned, pageLt, -⟩ := shape.placed page cls arena
  obtain ⟨-, largeEq⟩ := shape.header page cls arena
  have bounds := block.bounds
  have nonNull : b ≠ 0 := by omega
  have pageEq := block.blockToArena aligned pageLt
  have notLarge : ¬(arenaDesc m.mem page = 0 ∧ arenaLarge m.mem page = 1) := by
    rw [largeEq]
    rintro ⟨-, one⟩
    cases one
  have lower : pf = .kernel → b ≥ kernelHeapStart := by
    intro isKernel
    have lower := kernelPage isKernel
    rw [kernelHeapStart]
    omega
  have largeOk : arenaLarge (m.locked pf).mem page = 0 ∨ arenaLarge (m.locked pf).mem page = 1 :=
    .inl largeEq
  simp only [sysFree, caller, pageEq]
  rw [bind_ok (assert_of nonNull _), bind_ok (assert_of lower _),
    bind_ok (acquirePool_free lock thread), bind_ok (assert_of largeOk _)]
  exact if_neg notLarge

/-- `sys_free` of a block that is not the last live one of its arena. -/
theorem HeapShape.sysFree_put (shape : HeapShape m.image.kBlockDescs m.mem heap) (small : cls < 7)
    (arena : (page, cls) ∈ heap.arenas) (block : IsBlock page cls b) (live : b ∉ heap.free cls)
    (notLast : heap.freeIn page cls + 1 ≠ classCount cls)
    (caller : callerFlags m = pf) (kernelPage : pf = .kernel → 0xc0100000 ≤ page)
    (lock : (m.pool pf).lk = lockInit) (thread : m.running ≠ 0) :
    ∃ mem, sysFree m b = .ok { m with mem := mem, intr := .on } ∧
      HeapShape m.image.kBlockDescs mem (heap.setFree cls (heap.free cls ++ [b])) ∧
      ∀ query, ¬HeapArea m.image.kBlockDescs heap.arenas query → mem query = m.mem query := by
  obtain ⟨-, aligned, pageLt, -⟩ := shape.placed page cls arena
  have pageEq := block.blockToArena aligned pageLt
  obtain ⟨mem, append, shape', agree⟩ :=
    @HeapShape.appendBlock (m.locked pf) heap page cls b shape small arena block live
  have counts : arenaCnt mem page ≠ blockPerArenaOf mem (arenaDesc mem page) := by
    rw [shape'.count page cls arena, (shape'.header page cls arena).1, shape'.perArena cls small,
      Heap.freeIn_append, if_pos pageEq]
    exact notLast
  refine ⟨mem, ?_, shape', agree⟩
  rw [shape.sysFree_eq arena block caller kernelPage lock thread, putBlock]
  simp only [append]
  rw [if_neg counts]
  exact releasePool_locked lock mem m.tables

/-- `sys_free` of the last live block of an arena gives its page back. -/
theorem HeapShape.sysFree_last (shape : HeapShape m.image.kBlockDescs m.mem heap) (small : cls < 7)
    (arena : (page, cls) ∈ heap.arenas) (block : IsBlock page cls b) (live : b ∉ heap.free cls)
    (last : heap.freeIn page cls + 1 = classCount cls)
    (caller : callerFlags m = pf) (kernelPage : pf = .kernel → 0xc0100000 ≤ page)
    (lock : (m.pool pf).lk = lockInit) (thread : m.running ≠ 0) :
    ∃ before mem, HeapShape m.image.kBlockDescs before (heap.setFree cls (heap.free cls ++ [b])) ∧
      HeapShape m.image.kBlockDescs mem
        ((heap.setFree cls (heap.free cls ++ [b])).release page cls) ∧
      (∀ query, ¬HeapArea m.image.kBlockDescs heap.arenas query → mem query = m.mem query) ∧
      ∀ mem', removeVirtualPages { m.locked pf with mem := mem } pf page 1 =
          .ok { m.locked pf with mem := mem' } →
        sysFree m b = .ok { m with mem := mem', intr := .on } := by
  obtain ⟨-, aligned, pageLt, -⟩ := shape.placed page cls arena
  have pageEq := block.blockToArena aligned pageLt
  obtain ⟨mem, append, shape', agree⟩ :=
    @HeapShape.appendBlock (m.locked pf) heap page cls b shape small arena block live
  have full : (heap.setFree cls (heap.free cls ++ [b])).freeIn page cls = classCount cls := by
    rw [Heap.freeIn_append, if_pos pageEq]
    exact last
  have perArena : blockPerArenaOf mem (arenaDesc mem page) = classCount cls := by
    rw [(shape'.header page cls arena).1, shape'.perArena cls small]
  have counts : arenaCnt mem page = blockPerArenaOf mem (arenaDesc mem page) := by
    rw [shape'.count page cls arena, perArena, full]
  obtain ⟨released, run, releasedShape, releasedAgree⟩ :=
    @HeapShape.release { m.locked pf with mem := mem } (heap.setFree cls (heap.free cls ++ [b]))
      page cls shape' small arena full
  refine ⟨mem, released, shape', releasedShape, fun query outside =>
    (releasedAgree query outside).trans (agree query outside), fun mem' remove => ?_⟩
  rw [shape.sysFree_eq arena block caller kernelPage lock thread, putBlock]
  simp only [append]
  rw [if_pos counts, perArena, bind_ok run, bind_ok remove]
  exact releasePool_locked lock mem' m.tables

end Free

end Calls

/-! ## Live blocks -/

/-- A block of some arena that is on no free list and has room for `size` bytes. -/
def LiveIn (heap : Heap) (b size : Nat) : Prop :=
  ∃ page cls, (page, cls) ∈ heap.arenas ∧ IsBlock page cls b ∧ b ∉ heap.free cls ∧
    size ≤ classSize cls

section Live

variable {kBlockDescs : Nat} {mem : Bytes} {heap : Heap} {page cls b other size : Nat}

/-- A live block stays live while another one is taken. -/
theorem LiveIn.setFree_tail (live : LiveIn heap b size) {rest : List Nat}
    (free : heap.free cls = other :: rest) : LiveIn (heap.setFree cls rest) b size := by
  obtain ⟨page, ownCls, arena, block, notFree, fits⟩ := live
  refine ⟨page, ownCls, arena, block, ?_, fits⟩
  simp only [Heap.setFree]
  split
  · next same =>
      rw [same, free, List.mem_cons, not_or] at notFree
      exact notFree.2
  · exact notFree

/-- A live block stays live when an arena is added. -/
theorem HeapShape.liveIn_addArena (shape : HeapShape kBlockDescs mem heap)
    (live : LiveIn heap b size) (aligned : page % 4096 = 0) (pageLt : page < 2 ^ 32)
    (unused : ∀ other, (page, other) ∉ heap.arenas) : LiveIn (heap.addArena page cls) b size := by
  obtain ⟨ownPage, ownCls, arena, block, notFree, fits⟩ := live
  refine ⟨ownPage, ownCls, List.mem_cons_of_mem _ arena, block, ?_, fits⟩
  simp only [Heap.addArena, Heap.setFree]
  split
  · intro member
    obtain ⟨idx, inRange, equal⟩ := List.mem_map.mp member
    have new : IsBlock page cls b := ⟨idx, List.mem_range.mp inRange, equal.symm⟩
    obtain ⟨-, ownAligned, ownLt, -⟩ := shape.placed ownPage ownCls arena
    have samePage := (block.blockToArena ownAligned ownLt).symm.trans
      (new.blockToArena aligned pageLt)
    exact unused ownCls (samePage ▸ arena)
  · exact notFree

/-- A live block stays live when another one is put back. -/
theorem LiveIn.append (live : LiveIn heap b size) (different : b ≠ other) :
    LiveIn (heap.setFree cls (heap.free cls ++ [other])) b size := by
  obtain ⟨page, ownCls, arena, block, notFree, fits⟩ := live
  refine ⟨page, ownCls, arena, block, ?_, fits⟩
  simp only [Heap.setFree]
  split
  · next same =>
      rw [List.mem_append, not_or, ← same]
      exact ⟨notFree, by simpa using different⟩
  · exact notFree

/-- No live block lies in an arena that is released. -/
theorem HeapShape.liveIn_release (shape : HeapShape kBlockDescs mem heap) (small : cls < 7)
    (arena : (page, cls) ∈ heap.arenas) (full : heap.freeIn page cls = classCount cls)
    (live : LiveIn heap b size) : LiveIn (heap.release page cls) b size := by
  obtain ⟨ownPage, ownCls, ownArena, block, notFree, fits⟩ := live
  have different : (ownPage, ownCls) ≠ (page, cls) := by
    rintro equal
    cases equal
    obtain ⟨idx, idxLt, rfl⟩ := block
    exact notFree (shape.mem_free_of_full small arena full idxLt)
  refine ⟨ownPage, ownCls, (List.mem_erase_of_ne different).mpr ownArena, block, ?_, fits⟩
  simp only [Heap.release, Heap.setFree]
  split
  · next same =>
      rw [List.mem_filter, not_and_or]
      exact .inl (same ▸ notFree)
  · exact notFree

/-- Two live blocks do not overlap. -/
theorem HeapShape.liveIn_apart (shape : HeapShape kBlockDescs mem heap) {otherSize : Nat}
    (live : LiveIn heap b size) (otherLive : LiveIn heap other otherSize) (different : b ≠ other) :
    b + size ≤ other ∨ other + otherSize ≤ b := by
  obtain ⟨page, cls, arena, block, -, fits⟩ := live
  obtain ⟨otherPage, otherCls, otherArena, otherBlock, -, otherFits⟩ := otherLive
  have bounds := block.bounds
  have otherBounds := otherBlock.bounds
  by_cases samePage : page = otherPage
  · subst samePage
    obtain rfl := shape.class_unique arena otherArena
    have apart := block.apart otherBlock different
    unfold Apart at apart
    omega
  · have apart := shape.pages_apart arena otherArena samePage
    omega

end Live

theorem blockDescInitFrom_spec {kBlockDescs : Nat} (placed : kBlockDescs + 168 ≤ 2 ^ 32)
    {left : Nat} (m : Machine) {descIdx : Nat} (total : descIdx + left = 7) :
    ∃ mem, blockDescInitFrom m kBlockDescs descIdx (classSize descIdx) left =
        { m with mem := mem } ∧
      (∀ cls, descIdx ≤ cls → cls < 7 →
        blockSizeOf mem (descAddr kBlockDescs cls) = classSize cls ∧
        blockPerArenaOf mem (descAddr kBlockDescs cls) = classCount cls ∧
        ListAt mem (freeListOf (descAddr kBlockDescs cls)) []) ∧
      ∀ query, (query < kBlockDescs + 24 * descIdx ∨ kBlockDescs + 168 ≤ query) →
        mem query = m.mem query := by
  induction left generalizing m descIdx with
  | zero => exact ⟨m.mem, rfl, by omega, fun _ _ => rfl⟩
  | succ left ih =>
      have sizeLe := classSize_le (show descIdx < 7 by omega)
      have countLe := classCount_le descIdx
      have desc : descAddr kBlockDescs descIdx = kBlockDescs + 24 * descIdx := rfl
      have nextSize : classSize descIdx * 2 % 2 ^ 16 = classSize (descIdx + 1) := by
        rw [Nat.mod_eq_of_lt (by omega), classSize, classSize, Nat.pow_succ, Nat.mul_assoc]
      -- Memory after the stores for this descriptor.
      let first := linkInit (((m.mem.write32 (descAddr kBlockDescs descIdx)
        (classSize descIdx)).write32 (descAddr kBlockDescs descIdx + 4) (classCount descIdx)))
        (freeListOf (descAddr kBlockDescs descIdx))
      have firstAgree : ∀ query, (query < kBlockDescs + 24 * descIdx ∨
          kBlockDescs + 24 * descIdx + 24 ≤ query) → first query = m.mem query := by
        intro query off
        simp only [first, freeListOf, desc]
        rw [linkInit_of_outside _ (by omega), Bytes.write32_of_outside _ _ (by omega),
          Bytes.write32_of_outside _ _ (by omega)]
      obtain ⟨mem, run, classes, agree⟩ := @ih { m with mem := first } (descIdx + 1) (by omega)
      refine ⟨mem, ?_, ?_, ?_⟩
      · rw [blockDescInitFrom, nextSize]
        exact run
      · intro cls lower upper
        rcases Nat.eq_or_lt_of_le lower with rfl | later
        · have kept : ∀ query, kBlockDescs + 24 * descIdx ≤ query →
              query < kBlockDescs + 24 * descIdx + 24 → mem query = first query :=
            fun query _ _ => agree query (by omega)
          refine ⟨?_, ?_, ?_⟩
          · rw [blockSizeOf, Bytes.read32_congr fun query lower upper =>
              kept query (by omega) (by omega)]
            simp only [first, freeListOf, desc]
            rw [Bytes.read32_congr fun query lower upper => linkInit_of_outside _ (by omega),
              Bytes.read32_write32_of_disjoint _ _ (by omega),
              Bytes.read32_write32_self _ (by omega)]
          · rw [blockPerArenaOf, Bytes.read32_congr fun query lower upper =>
              kept query (by omega) (by omega)]
            simp only [first, freeListOf, desc]
            rw [Bytes.read32_congr fun query lower upper => linkInit_of_outside _ (by omega),
              Bytes.read32_write32_self _ (by omega)]
          · have list : ListAt first (freeListOf (descAddr kBlockDescs descIdx)) [] :=
              linkInit_listAt _ (by simp only [freeListOf, desc]; omega)
            refine list.congr fun query inside => kept query ?_ ?_ <;>
            · have someNode : ∃ node ∈ listNodes (freeListOf (descAddr kBlockDescs descIdx)) [],
                  node ≤ query ∧ query < node + 8 := by
                simpa [Outside] using inside
              obtain ⟨node, member, lower, upper⟩ := someNode
              simp only [mem_listNodes, List.not_mem_nil, false_or, freeListOf, desc,
                tailer] at member
              omega
        · exact classes cls later upper
      · intro query off
        rw [agree query (by omega)]
        exact firstAgree query (by omega)

theorem resetLocks_eq {m : Machine} (free : ∀ pf, (m.pool pf).lk = lockInit) :
    resetLocks m = m := by
  rw [resetLocks, Machine.setPool_lk m (free .kernel), Machine.setPool_lk m (free .user)]

/-- `block_desc_init` on the seven descriptors of the kernel. -/
theorem blockDescInit_spec (m : Machine) {kBlockDescs : Nat} (placed : kBlockDescs + 168 ≤ 2 ^ 32) :
    ∃ mem, blockDescInit m kBlockDescs = { m with mem := mem } ∧
      HeapShape kBlockDescs mem ⟨[], fun _ => []⟩ ∧
      ∀ query, (query < kBlockDescs ∨ kBlockDescs + 168 ≤ query) → mem query = m.mem query := by
  obtain ⟨mem, run, classes, agree⟩ := @blockDescInitFrom_spec kBlockDescs placed 7 m 0 rfl
  refine ⟨mem, run, ?_, fun query off => agree query (by omega)⟩
  refine ⟨fun cls small => (classes cls (by omega) small).1,
    fun cls small => (classes cls (by omega) small).2.1,
    fun cls small => (classes cls (by omega) small).2.2, List.nodup_nil, ?_, ?_, ?_, ?_⟩ <;>
  simp

/-- The part of `mem_init` after `mem_pool_init`. -/
theorem heapInit_spec {m : Machine} (free : ∀ pf, (m.pool pf).lk = lockInit) :
    ∃ mem, resetLocks (blockDescInit m m.image.kBlockDescs) = { m with mem := mem } ∧
      HeapShape m.image.kBlockDescs mem ⟨[], fun _ => []⟩ ∧
      ∀ query, (query < m.image.kBlockDescs ∨ m.image.kBlockDescs + 168 ≤ query) →
        mem query = m.mem query := by
  have image := m.image.descs_placed
  obtain ⟨mem, run, shape, agree⟩ := @blockDescInit_spec m m.image.kBlockDescs (by omega)
  refine ⟨mem, ?_, shape, agree⟩
  rw [run]
  exact resetLocks_eq free

/-- `mem_init` leaves empty lists and no arena; outside the descriptors memory is
as `mem_pool_init` left it. -/
theorem memInit_spec (m : Machine) (memBytesTotal : Nat) :
    ∃ mem, memInit m memBytesTotal = { memPoolInit m memBytesTotal with mem := mem } ∧
      HeapShape m.image.kBlockDescs mem ⟨[], fun _ => []⟩ ∧
      ∀ query, (query < m.image.kBlockDescs ∨ m.image.kBlockDescs + 168 ≤ query) →
        mem query = (memPoolInit m memBytesTotal).mem query := by
  obtain ⟨mem, run, shape, agree⟩ := heapInit_spec (memPoolInit_lk m memBytesTotal)
  rw [memPoolInit_image] at shape agree
  exact ⟨mem, run, shape, agree⟩

end Pumelo
