import Pumelo.Sync
import Pumelo.Bitmap

/-!
# Physical memory pools

`mem_pool_init`, `alloc_physical_pages` and `free_physical_pages` of `mem.c`.
The two pools split the memory above 2 MB; their bitmaps and the bitmap of the
kernel heap's virtual pages follow each other from `MEM_BITMAP_BASE` on.
-/

namespace Pumelo

open Foundation

/-- The values `mem_pool_init` gives to `kernel_pool`, `user_pool` and
`kernel_vaddr`. -/
structure PoolLayout where
  kernelPool : Pool
  userPool : Pool
  kernelVaddr : VirtualAddr

/-- The arithmetic of `mem_pool_init`. -/
def poolLayout (allMem : Nat) : PoolLayout :=
  let pageTableSize := pageSize * 256
  let usedMem := pageTableSize + 0x100000
  let freeMem := (allMem + 2 ^ 32 - usedMem) % 2 ^ 32
  let allFreePages := freeMem / pageSize % 2 ^ 16
  let kernelFreePages := allFreePages / 2
  let userFreePages := (allFreePages + 2 ^ 16 - kernelFreePages) % 2 ^ 16
  let kbmLength := kernelFreePages / 8
  let ubmLength := userFreePages / 8
  let kpStart := usedMem
  let upStart := (kpStart + kernelFreePages * pageSize) % 2 ^ 32
  { kernelPool :=
      ⟨⟨kbmLength, memBitmapBase⟩, kpStart, kernelFreePages * pageSize % 2 ^ 32, lockInit⟩
    userPool :=
      ⟨⟨ubmLength, memBitmapBase + kbmLength⟩, upStart, userFreePages * pageSize % 2 ^ 32, lockInit⟩
    kernelVaddr := ⟨⟨kbmLength, memBitmapBase + kbmLength + ubmLength⟩, kernelHeapStart⟩ }

/-- Clear the three bitmaps of a layout and install it. -/
def installLayout (m : Machine) (layout : PoolLayout) : Machine :=
  let mem := bitmapInit m.mem layout.kernelPool.poolBitmap
  let mem := bitmapInit mem layout.userPool.poolBitmap
  let mem := bitmapInit mem layout.kernelVaddr.vaddrBitmap
  { m with
    mem := mem
    pool := fun pf =>
      match pf with
      | .kernel => layout.kernelPool
      | .user => layout.userPool
    kernelVaddr := layout.kernelVaddr }

/-- `mem_pool_init` -/
def memPoolInit (m : Machine) (allMem : Nat) : Machine := installLayout m (poolLayout allMem)

/-- `alloc_physical_pages`; `NULL` is 0. -/
def allocPhysicalPages (m : Machine) (mPool : PoolFlags) : Except Fault (Nat × Machine) := do
  let some bitIdx ← bitmapScan m.mem (m.pool mPool).poolBitmap 1 | return (0, m)
  let mem ← bitmapSet m.mem (m.pool mPool).poolBitmap bitIdx 1
  let pagePaddr := (bitIdx * pageSize + (m.pool mPool).paddrStart) % 2 ^ 32
  return (pagePaddr, { m with mem := mem })

/-- `free_physical_pages` -/
def freePhysicalPages (m : Machine) (pgPhyAddr : Nat) : Except Fault Machine := do
  let memPool : PoolFlags :=
    if pgPhyAddr ≥ (m.pool .user).paddrStart then .user else .kernel
  let bitIdx := (pgPhyAddr + 2 ^ 32 - (m.pool memPool).paddrStart) % 2 ^ 32 / pageSize
  let mem ← bitmapSet m.mem (m.pool memPool).poolBitmap bitIdx 0
  return { m with mem := mem }

/-! ## Layout -/

/-- The pools as `mem_pool_init` lays them out for given numbers of pages; no
later call changes any of this. -/
structure Laid (m : Machine) (kernelPages userPages : Nat) : Prop where
  kernelPages_le : kernelPages ≤ 32767
  userPages_le : userPages ≤ 32768
  kernelBitmap : (m.pool .kernel).poolBitmap = ⟨kernelPages / 8, 0xc009a000⟩
  userBitmap : (m.pool .user).poolBitmap = ⟨userPages / 8, 0xc009a000 + kernelPages / 8⟩
  kernelStart : (m.pool .kernel).paddrStart = 0x200000
  userStart : (m.pool .user).paddrStart = 0x200000 + kernelPages * 4096
  kernelSize : (m.pool .kernel).poolSize = kernelPages * 4096
  userSize : (m.pool .user).poolSize = userPages * 4096
  vaddr : m.kernelVaddr =
    ⟨⟨kernelPages / 8, 0xc009a000 + kernelPages / 8 + userPages / 8⟩, 0xc0100000⟩

/-- Two machines whose pools and virtual bitmap lie at the same places. Their locks
may differ. -/
structure SameLayout (m m' : Machine) : Prop where
  poolBitmap : ∀ pf, (m'.pool pf).poolBitmap = (m.pool pf).poolBitmap
  paddrStart : ∀ pf, (m'.pool pf).paddrStart = (m.pool pf).paddrStart
  poolSize : ∀ pf, (m'.pool pf).poolSize = (m.pool pf).poolSize
  kernelVaddr : m'.kernelVaddr = m.kernelVaddr

theorem SameLayout.of_eq {m m' : Machine} (pool : m'.pool = m.pool)
    (kernelVaddr : m'.kernelVaddr = m.kernelVaddr) : SameLayout m m' :=
  ⟨fun _ => by rw [pool], fun _ => by rw [pool], fun _ => by rw [pool], kernelVaddr⟩

theorem SameLayout.trans {m m' m'' : Machine} (first : SameLayout m m')
    (second : SameLayout m' m'') : SameLayout m m'' where
  poolBitmap pf := (second.poolBitmap pf).trans (first.poolBitmap pf)
  paddrStart pf := (second.paddrStart pf).trans (first.paddrStart pf)
  poolSize pf := (second.poolSize pf).trans (first.poolSize pf)
  kernelVaddr := second.kernelVaddr.trans first.kernelVaddr

theorem memPoolInit_laid (m : Machine) {allMem : Nat} (lower : 0x200000 ≤ allMem)
    (upper : allMem < 2 ^ 32) :
    Laid (memPoolInit m allMem) ((allMem - 0x200000) / 4096 % 2 ^ 16 / 2)
      ((allMem - 0x200000) / 4096 % 2 ^ 16 - (allMem - 0x200000) / 4096 % 2 ^ 16 / 2) := by
  have freeMem : (allMem + 2 ^ 32 - (4096 * 256 + 0x100000)) % 2 ^ 32 = allMem - 0x200000 := by
    omega
  have pagesLt : (allMem - 0x200000) / 4096 % 2 ^ 16 < 2 ^ 16 := Nat.mod_lt _ (by decide)
  generalize pagesEq : (allMem - 0x200000) / 4096 % 2 ^ 16 = pages at pagesLt ⊢
  have userPages : (pages + 2 ^ 16 - pages / 2) % 2 ^ 16 = pages - pages / 2 := by omega
  refine ⟨by omega, by omega, ?_, ?_, ?_, ?_, ?_, ?_, ?_⟩ <;>
    simp only [memPoolInit, installLayout, poolLayout, pageSize, memBitmapBase, kernelHeapStart,
      freeMem, pagesEq, userPages] <;>
    omega

@[simp] theorem installLayout_image (m : Machine) (layout : PoolLayout) :
    (installLayout m layout).image = m.image := rfl

@[simp] theorem memPoolInit_image (m : Machine) (allMem : Nat) :
    (memPoolInit m allMem).image = m.image :=
  installLayout_image m (poolLayout allMem)

@[simp] theorem installLayout_tables (m : Machine) (layout : PoolLayout) :
    (installLayout m layout).tables = m.tables := rfl

@[simp] theorem memPoolInit_tables (m : Machine) (allMem : Nat) :
    (memPoolInit m allMem).tables = m.tables :=
  installLayout_tables m (poolLayout allMem)

@[simp] theorem installLayout_cr3 (m : Machine) (layout : PoolLayout) :
    (installLayout m layout).cr3 = m.cr3 := rfl

@[simp] theorem memPoolInit_cr3 (m : Machine) (allMem : Nat) :
    (memPoolInit m allMem).cr3 = m.cr3 :=
  installLayout_cr3 m (poolLayout allMem)

@[simp] theorem installLayout_running (m : Machine) (layout : PoolLayout) :
    (installLayout m layout).running = m.running := rfl

@[simp] theorem memPoolInit_running (m : Machine) (allMem : Nat) :
    (memPoolInit m allMem).running = m.running :=
  installLayout_running m (poolLayout allMem)

/-- `mem_pool_init` stores into the bitmaps only. -/
theorem memPoolInit_mem (m : Machine) {allMem query : Nat}
    (off : query < 0xc009a000 ∨ 0xc009e000 ≤ query) :
    (memPoolInit m allMem).mem query = m.mem query := by
  simp only [memPoolInit, installLayout, poolLayout, bitmapInit, pageSize, memBitmapBase]
  rw [Bytes.fill_of_outside _ _ (by omega), Bytes.fill_of_outside _ _ (by omega),
    Bytes.fill_of_outside _ _ (by omega)]

theorem installLayout_virtualBit (m : Machine) (layout : PoolLayout) {index : Nat}
    (inside : index < 8 * layout.kernelVaddr.vaddrBitmap.bitmapLen) :
    layout.kernelVaddr.vaddrBitmap.bit (installLayout m layout).mem index = false := by
  apply Bytes.bit_eq_false_of_byte_zero
  exact Bytes.fill_of_inside _ _ (by omega) (by omega)

@[simp] theorem memPoolInit_kernelVaddr (m : Machine) (allMem : Nat) :
    (memPoolInit m allMem).kernelVaddr = (poolLayout allMem).kernelVaddr := rfl

/-- `mem_pool_init` clears the bitmap of the kernel's virtual pages. -/
theorem memPoolInit_virtualBit (m : Machine) {allMem index : Nat}
    (inside : index < 8 * (memPoolInit m allMem).kernelVaddr.vaddrBitmap.bitmapLen) :
    (memPoolInit m allMem).kernelVaddr.vaddrBitmap.bit
      (memPoolInit m allMem).mem index = false := by
  rw [memPoolInit_kernelVaddr] at inside ⊢
  exact installLayout_virtualBit m (poolLayout allMem) inside

theorem memPoolInit_lk (m : Machine) (allMem : Nat) (pf : PoolFlags) :
    ((memPoolInit m allMem).pool pf).lk = lockInit := by
  cases pf <;> rfl

namespace Machine

variable (m : Machine)

/-- The bit of a pool's bitmap for its frame number `index`. -/
def frameBit (pf : PoolFlags) (index : Nat) : Bool := (m.pool pf).poolBitmap.bit m.mem index

/-- The number of frames a pool's bitmap has bits for. -/
def frameCount (pf : PoolFlags) : Nat := 8 * (m.pool pf).poolBitmap.bitmapLen

/-- The physical address of a pool's frame number `index`. -/
def frameAddr (pf : PoolFlags) (index : Nat) : Nat := (m.pool pf).paddrStart + 4096 * index

/-- The address, in bits, of a pool's bit. -/
def frameBitAddr (pf : PoolFlags) (index : Nat) : Nat :=
  8 * (m.pool pf).poolBitmap.bitmapBits + index

theorem frameBit_congr {m m' : Machine} {pf : PoolFlags} {index : Nat} (mem : m'.mem = m.mem)
    (pool : m'.pool = m.pool) : m'.frameBit pf index = m.frameBit pf index := by
  simp only [frameBit, mem, pool]

end Machine

/-- `mem_pool_init` clears both bitmaps. -/
theorem memPoolInit_frameBit (m : Machine) {allMem : Nat} {pf : PoolFlags} {index : Nat}
    (inside : index < (memPoolInit m allMem).frameCount pf) :
    (memPoolInit m allMem).frameBit pf index = false := by
  apply Bytes.bit_eq_false_of_byte_zero
  simp only [memPoolInit, installLayout, poolLayout, bitmapInit, memBitmapBase]
  cases pf with
  | kernel =>
      simp only [memPoolInit, installLayout, poolLayout, Machine.frameCount, pageSize,
        memBitmapBase] at inside ⊢
      rw [Bytes.fill_of_outside _ _ (.inl (by omega)), Bytes.fill_of_outside _ _ (.inl (by omega)),
        Bytes.fill_of_inside _ _ (by omega) (by omega)]
  | user =>
      simp only [memPoolInit, installLayout, poolLayout, Machine.frameCount, pageSize,
        memBitmapBase] at inside ⊢
      rw [Bytes.fill_of_outside _ _ (.inl (by omega)),
        Bytes.fill_of_inside _ _ (by omega) (by omega)]

namespace Laid

variable {m : Machine} {kernelPages userPages : Nat}

/-- The layout does not change as long as no pool is moved or resized. -/
theorem congr (laid : Laid m kernelPages userPages) {m' : Machine} (same : SameLayout m m') :
    Laid m' kernelPages userPages where
  kernelPages_le := laid.kernelPages_le
  userPages_le := laid.userPages_le
  kernelBitmap := (same.poolBitmap .kernel).trans laid.kernelBitmap
  userBitmap := (same.poolBitmap .user).trans laid.userBitmap
  kernelStart := (same.paddrStart .kernel).trans laid.kernelStart
  userStart := (same.paddrStart .user).trans laid.userStart
  kernelSize := (same.poolSize .kernel).trans laid.kernelSize
  userSize := (same.poolSize .user).trans laid.userSize
  vaddr := same.kernelVaddr.trans laid.vaddr

theorem frameCount_kernel (laid : Laid m kernelPages userPages) :
    m.frameCount .kernel = 8 * (kernelPages / 8) := by
  rw [Machine.frameCount, laid.kernelBitmap]

theorem frameCount_user (laid : Laid m kernelPages userPages) :
    m.frameCount .user = 8 * (userPages / 8) := by
  rw [Machine.frameCount, laid.userBitmap]

/-- A frame with a bit lies inside its pool, and in 32 bits. -/
theorem frameAddr_spec (laid : Laid m kernelPages userPages) {pf : PoolFlags} {index : Nat}
    (inside : index < m.frameCount pf) :
    (index * 4096 + (m.pool pf).paddrStart) % 2 ^ 32 = m.frameAddr pf index ∧
      m.frameAddr pf index % 4096 = 0 ∧ (m.pool pf).paddrStart ≤ m.frameAddr pf index ∧
      m.frameAddr pf index + 4096 ≤ (m.pool pf).paddrStart + (m.pool pf).poolSize ∧
      0x200000 ≤ m.frameAddr pf index ∧ m.frameAddr pf index < 2 ^ 32 := by
  have kernelPagesLe := laid.kernelPages_le
  have userPagesLe := laid.userPages_le
  cases pf with
  | kernel =>
      rw [laid.frameCount_kernel] at inside
      rw [Machine.frameAddr, laid.kernelStart, laid.kernelSize]
      omega
  | user =>
      rw [laid.frameCount_user] at inside
      rw [Machine.frameAddr, laid.userStart, laid.userSize]
      omega

/-- Frames of the kernel pool lie below the user pool. -/
theorem frameAddr_kernel_lt (laid : Laid m kernelPages userPages) {index : Nat}
    (inside : index < m.frameCount .kernel) :
    m.frameAddr .kernel index < (m.pool .user).paddrStart := by
  rw [laid.frameCount_kernel] at inside
  rw [Machine.frameAddr, laid.kernelStart, laid.userStart]
  omega

/-- An address determines the pool and the number of its frame. -/
theorem frameAddr_inj (laid : Laid m kernelPages userPages) {pf pf' : PoolFlags}
    {index index' : Nat} (inside : index < m.frameCount pf) (inside' : index' < m.frameCount pf')
    (equal : m.frameAddr pf index = m.frameAddr pf' index') : pf = pf' ∧ index = index' := by
  cases pf <;> cases pf'
  · exact ⟨rfl, by rw [Machine.frameAddr, Machine.frameAddr] at equal; omega⟩
  · have below := laid.frameAddr_kernel_lt inside
    have above : (m.pool .user).paddrStart ≤ m.frameAddr .user index' := Nat.le_add_right _ _
    omega
  · have below := laid.frameAddr_kernel_lt inside'
    have above : (m.pool .user).paddrStart ≤ m.frameAddr .user index := Nat.le_add_right _ _
    omega
  · exact ⟨rfl, by rw [Machine.frameAddr, Machine.frameAddr] at equal; omega⟩

/-- The bitmaps of the two pools share no bit. -/
theorem frameBitAddr_inj (laid : Laid m kernelPages userPages) {pf pf' : PoolFlags}
    {index index' : Nat} (inside : index < m.frameCount pf) (inside' : index' < m.frameCount pf')
    (equal : m.frameBitAddr pf index = m.frameBitAddr pf' index') : pf = pf' ∧ index = index' := by
  have kernelCount := laid.frameCount_kernel
  have kernelBitmap := laid.kernelBitmap
  have userBitmap := laid.userBitmap
  cases pf <;> cases pf' <;>
    simp only [Machine.frameBitAddr, kernelBitmap, userBitmap] at equal <;>
    first
    | exact ⟨rfl, by omega⟩
    | (rw [kernelCount] at inside; omega)
    | (rw [kernelCount] at inside'; omega)

end Laid

/-- Mark a frame as used or free. -/
def Machine.setFrame (m : Machine) (pf : PoolFlags) (index : Nat) (value : Bool) : Machine :=
  { m with mem := m.mem.setBit (m.frameBitAddr pf index) value }

theorem Laid.setFrame {m : Machine} {kernelPages userPages : Nat}
    (laid : Laid m kernelPages userPages) (pf : PoolFlags) (index : Nat) (value : Bool) :
    Laid (m.setFrame pf index value) kernelPages userPages :=
  laid.congr (.of_eq rfl rfl)

/-- Marking a frame changes its own bit and no other bit of the pools. -/
theorem Laid.frameBit_setFrame {m : Machine} {kernelPages userPages : Nat}
    (laid : Laid m kernelPages userPages) {pf pf' : PoolFlags} {index index' : Nat} (value : Bool)
    (inside : index < m.frameCount pf) (inside' : index' < m.frameCount pf') :
    (m.setFrame pf index value).frameBit pf' index' =
      if pf' = pf ∧ index' = index then value else m.frameBit pf' index' := by
  have sameBit : 8 * (m.pool pf').poolBitmap.bitmapBits + index' = m.frameBitAddr pf index ↔
      pf' = pf ∧ index' = index := by
    constructor
    · exact laid.frameBitAddr_inj inside' inside
    · rintro ⟨rfl, rfl⟩
      rfl
  simp only [Machine.frameBit, Machine.setFrame, Bitmap.bit, Bytes.bit_setBit, sameBit]

/-- An allocation that returns took the lowest clear frame of the pool. -/
theorem allocPhysicalPages_ok {m m' : Machine} {pf : PoolFlags} {paddr : Nat}
    (run : allocPhysicalPages m pf = .ok (paddr, m')) :
    ∃ index, index < m.frameCount pf ∧ m.frameBit pf index = false ∧
      (∀ lower, lower < index → m.frameBit pf lower = true) ∧
      paddr = (index * 4096 + (m.pool pf).paddrStart) % 2 ^ 32 ∧
      m' = m.setFrame pf index true := by
  simp only [allocPhysicalPages, bind_eq_ok] at run
  obtain ⟨scanned, scan, run⟩ := run
  obtain ⟨index, rfl, inside, clear, lowest⟩ := bitmapScan_one_ok scan
  simp only [bitmapSet_one, bind_eq_ok, Except.ok.injEq, exists_eq_left', pure_eq_ok,
    Prod.mk.injEq] at run
  exact ⟨index, inside, clear, lowest, run.1.symm, run.2.symm⟩

/-- An allocation returns when the pool has a clear bit. -/
theorem allocPhysicalPages_of_clear {m : Machine} {pf : PoolFlags} {index : Nat}
    (inside : index < m.frameCount pf) (clear : m.frameBit pf index = false) :
    ∃ paddr m', allocPhysicalPages m pf = .ok (paddr, m') := by
  obtain ⟨found, scan⟩ := bitmapScan_one_of_clear inside clear
  simp only [allocPhysicalPages, bind_ok scan, bitmapSet_one]
  exact ⟨_, _, rfl⟩

/-- Freeing a frame of a pool clears its bit in that pool. -/
theorem Laid.freePhysicalPages_eq {m : Machine} {kernelPages userPages : Nat}
    (laid : Laid m kernelPages userPages) {pf : PoolFlags} {index : Nat}
    (inside : index < m.frameCount pf) :
    freePhysicalPages m (m.frameAddr pf index) = .ok (m.setFrame pf index false) := by
  obtain ⟨_, _, _, _, _, fits⟩ := laid.frameAddr_spec inside
  have bitIdx : (m.frameAddr pf index + 2 ^ 32 - (m.pool pf).paddrStart) % 2 ^ 32 / 4096 =
      index := by
    rw [Machine.frameAddr] at fits ⊢
    omega
  have memPool : (if m.frameAddr pf index ≥ (m.pool .user).paddrStart then PoolFlags.user
      else .kernel) = pf := by
    cases pf with
    | kernel => exact if_neg (Nat.not_le.mpr (laid.frameAddr_kernel_lt inside))
    | user => exact if_pos (Nat.le_add_right _ _)
  simp only [freePhysicalPages, memPool, pageSize, bitIdx, bitmapSet_zero]
  rfl

end Pumelo
