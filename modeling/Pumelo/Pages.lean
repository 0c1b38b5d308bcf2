import Pumelo.PageTable

/-!
# Virtual pages

`get_virtual_pages`, `remove_virtual_pages`, `malloc_pages`, `free_pages`,
`get_kernel_pages`, `get_user_pages` and `get_a_page` of `mem.c`.  An allocation
marks a run in a virtual bitmap, takes a frame for each page and enters the
pages in the page tables one after the other.
-/

namespace Pumelo

open Foundation PageWalk

/-- The loops that set or clear a run of a virtual bitmap. -/
def setRun (mem : Bytes) (btmp : Bitmap) (bitIdxStart : Nat) (value : Int) :
    (pgCnt : Nat) → Except Fault Bytes
  | 0 => .ok mem
  | cnt + 1 => do
      let mem ← setRun mem btmp bitIdxStart value cnt
      bitmapSet mem btmp ((bitIdxStart + cnt) % 2 ^ 32) value

/-- `get_virtual_pages` -/
def getVirtualPages (m : Machine) (pf : PoolFlags) (pgCnt : Nat) :
    Except Fault (Nat × Machine) := do
  match pf with
  | .kernel =>
      let btmp := m.kernelVaddr.vaddrBitmap
      let some bitIdxStart ← bitmapScan m.mem btmp pgCnt | return (0, m)
      let mem ← setRun m.mem btmp bitIdxStart 1 pgCnt
      return ((m.kernelVaddr.vaddrStart + bitIdxStart * pageSize) % 2 ^ 32, { m with mem := mem })
  | .user =>
      let vaddr := userprogVaddr m.mem m.runningThread
      let btmp := vaddr.vaddrBitmap
      let some bitIdxStart ← bitmapScan m.mem btmp pgCnt | return (0, m)
      let mem ← setRun m.mem btmp bitIdxStart 1 pgCnt
      let vaddrStart := (vaddr.vaddrStart + bitIdxStart * pageSize) % 2 ^ 32
      assert (vaddrStart < 0xc0000000 - pageSize) "(uint32_t)vaddr_start < (0xc0000000 - PAGE_SIZE)"
      return (vaddrStart, { m with mem := mem })

/-- `remove_virtual_pages` -/
def removeVirtualPages (m : Machine) (pf : PoolFlags) (vaddr pgCnt : Nat) :
    Except Fault Machine := do
  let virtual :=
    match pf with
    | .kernel => m.kernelVaddr
    | .user => userprogVaddr m.mem m.runningThread
  let bitIdxStart := (vaddr + 2 ^ 32 - virtual.vaddrStart) % 2 ^ 32 / pageSize
  let mem ← setRun m.mem virtual.vaddrBitmap bitIdxStart 0 pgCnt
  return { m with mem := mem }

/-- The loop of `malloc_pages`: whether all pages were mapped. -/
def mapPages (m : Machine) (memPool : PoolFlags) (vaddr : Nat) :
    (cnt : Nat) → Except Fault (Bool × Machine)
  | 0 => .ok (true, m)
  | cnt + 1 => do
      let (pagePaddr, m) ← allocPhysicalPages m memPool
      if pagePaddr = 0 then return (false, m)
      let m ← insertPageTable m vaddr pagePaddr
      mapPages m memPool ((vaddr + pageSize) % 2 ^ 32) cnt

/-- `malloc_pages` -/
def mallocPages (m : Machine) (pf : PoolFlags) (pgCnt : Nat) : Except Fault (Nat × Machine) := do
  let (vaddrStart, m) ← getVirtualPages m pf pgCnt
  if vaddrStart = 0 then return (0, m)
  let (mapped, m) ← mapPages m pf vaddrStart pgCnt
  if mapped then return (vaddrStart, m)
  return (0, m)

/-- The loops of `free_pages`, for the pool that the first page's frame is in. -/
def freeRun (m : Machine) (memPool : PoolFlags) (vaddr : Nat) : (pgCnt : Nat) → Except Fault Machine
  | 0 => .ok m
  | pgCnt + 1 => do
      let pgPhyAddr ← addrV2p m vaddr
      match memPool with
      | .user =>
          assert (pgPhyAddr % pageSize = 0 ∧ pgPhyAddr ≥ (m.pool .user).paddrStart)
            "(pg_phy_addr % PAGE_SIZE) == 0 && pg_phy_addr >= user_pool.paddr_start"
      | .kernel =>
          assert (pgPhyAddr % pageSize = 0 ∧ pgPhyAddr ≥ (m.pool .kernel).paddrStart ∧
              pgPhyAddr < (m.pool .user).paddrStart)
            "(pg_phy_addr % PAGE_SIZE) == 0 && pg_phy_addr >= kernel_pool.paddr_start && pg_phy_addr < user_pool.paddr_start"
      let m ← freePhysicalPages m pgPhyAddr
      let m ← removePageTable m vaddr
      freeRun m memPool ((vaddr + pageSize) % 2 ^ 32) pgCnt

/-- `free_pages` -/
def freePages (m : Machine) (pf : PoolFlags) (vaddr pgCnt : Nat) : Except Fault Machine := do
  assert (pgCnt ≥ 1 ∧ vaddr % pageSize = 0) "pg_cnt >= 1 && vaddr % PAGE_SIZE == 0"
  let pgPhyAddr ← addrV2p m vaddr
  assert (pgPhyAddr % pageSize = 0 ∧ pgPhyAddr ≥ 0x102000)
    "(pg_phy_addr % PAGE_SIZE) == 0 && pg_phy_addr >= 0x102000"
  let m ← freeRun m (if pgPhyAddr ≥ (m.pool .user).paddrStart then .user else .kernel) vaddr pgCnt
  removeVirtualPages m pf vaddr pgCnt

/-- `memset` with zero, both in data and in what the MMU sees. -/
def clearPages (m : Machine) (vaddr pgCnt : Nat) : Except Fault Machine := do
  let size := pgCnt * pageSize % 2 ^ 32
  clearVirt { m with mem := m.mem.fill vaddr 0 size } vaddr (size / 4)

/-- `get_kernel_pages` -/
def getKernelPages (m : Machine) (pgCnt : Nat) : Except Fault (Nat × Machine) := do
  let (vaddr, m) ← mallocPages m .kernel pgCnt
  let m ← if vaddr ≠ 0 then clearPages m vaddr pgCnt else pure m
  return (vaddr, m)

/-- `lock_acquire` on the lock of a pool. -/
def acquirePool (m : Machine) (pf : PoolFlags) : Except Fault Machine := do
  let (lk, m) ← lockAcquire m (m.pool pf).lk
  return m.setPool pf { m.pool pf with lk := lk }

/-- `lock_release` on the lock of a pool. -/
def releasePool (m : Machine) (pf : PoolFlags) : Except Fault Machine := do
  let (lk, m) ← lockRelease m (m.pool pf).lk
  return m.setPool pf { m.pool pf with lk := lk }

/-- `get_user_pages` -/
def getUserPages (m : Machine) (pgCnt : Nat) : Except Fault (Nat × Machine) := do
  let m ← acquirePool m .user
  let (vaddr, m) ← mallocPages m .user pgCnt
  let m ← clearPages m vaddr pgCnt
  let m ← releasePool m .user
  return (vaddr, m)

/-- `get_a_page` -/
def getAPage (m : Machine) (pf : PoolFlags) (vaddr : Nat) : Except Fault (Nat × Machine) := do
  let m ← acquirePool m pf
  let cur := m.runningThread
  let m ←
    if pgdirOf m.mem cur ≠ 0 ∧ pf = .user then do
      let virtual := userprogVaddr m.mem cur
      let bitIdx := (vaddr + 2 ^ 32 - virtual.vaddrStart) % 2 ^ 32 / pageSize
      assert (bitIdx > 0) "bit_idx > 0"
      let mem ← bitmapSet m.mem virtual.vaddrBitmap bitIdx 1
      pure { m with mem := mem }
    else if pgdirOf m.mem cur = 0 ∧ pf = .kernel then do
      let bitIdx := (vaddr + 2 ^ 32 - m.kernelVaddr.vaddrStart) % 2 ^ 32 / pageSize
      assert (bitIdx > 0) "bit_idx > 0"
      let mem ← bitmapSet m.mem m.kernelVaddr.vaddrBitmap bitIdx 1
      pure { m with mem := mem }
    else
      .error (.panic
        "get_a_page: not allow kernel alloc userspace or user alloc kernelspac by get_a_page")
  let (pagePhyaddr, m) ← allocPhysicalPages m pf
  if pagePhyaddr = 0 then return (0, m)
  let m ← insertPageTable m vaddr pagePhyaddr
  let m ← releasePool m pf
  return (vaddr, m)

/-- A machine whose running thread holds the lock of a pool. -/
def Machine.locked (m : Machine) (pf : PoolFlags) : Machine :=
  { m with intr := .off }.setPool pf { m.pool pf with lk := Lock.heldBy m.running }

section

variable (m : Machine) (pf : PoolFlags)

@[simp] theorem Machine.locked_image : (m.locked pf).image = m.image := rfl
@[simp] theorem Machine.locked_mem : (m.locked pf).mem = m.mem := rfl
@[simp] theorem Machine.locked_tables : (m.locked pf).tables = m.tables := rfl
@[simp] theorem Machine.locked_cr3 : (m.locked pf).cr3 = m.cr3 := rfl
@[simp] theorem Machine.locked_running : (m.locked pf).running = m.running := rfl
@[simp] theorem Machine.locked_kernelVaddr : (m.locked pf).kernelVaddr = m.kernelVaddr := rfl

end

/-- `Locking` changes the lock of a pool and the interrupt flag, and nothing else. -/
structure Locking (m m' : Machine) : Prop where
  layout : SameLayout m m'
  mem : m'.mem = m.mem
  running : m'.running = m.running

theorem Locking.of_lock (m : Machine) (pf : PoolFlags) (lk : Lock) (intr : IntrStatus) :
    Locking m ({ m with intr := intr }.setPool pf { m.pool pf with lk := lk }) := by
  refine ⟨⟨fun query => ?_, fun query => ?_, fun query => ?_, rfl⟩, rfl, rfl⟩ <;>
  · simp only [Machine.setPool]
    split
    · next same => rw [same]
    · rfl

theorem acquirePool_locking {m m' : Machine} {pf : PoolFlags} (run : acquirePool m pf = .ok m') :
    Locking m m' := by
  obtain ⟨⟨lk, m1⟩, acquired, rest⟩ := bind_eq_ok.mp run
  cases rest
  have only := lockAcquire_machine acquired
  generalize m1.intr = intr at only
  subst only
  exact .of_lock m pf lk intr

theorem releasePool_locking {m m' : Machine} {pf : PoolFlags} (run : releasePool m pf = .ok m') :
    Locking m m' := by
  obtain ⟨⟨lk, m1⟩, released, rest⟩ := bind_eq_ok.mp run
  cases rest
  have only := lockRelease_machine released
  generalize m1.intr = intr at only
  subst only
  exact .of_lock m pf lk intr

/-- Taking the lock of a pool that nobody holds. -/
theorem acquirePool_free {m : Machine} {pf : PoolFlags} (free : (m.pool pf).lk = lockInit)
    (thread : m.running ≠ 0) : acquirePool m pf = .ok (m.locked pf) := by
  rw [acquirePool, free, bind_ok (lockAcquire_free thread)]
  rfl

/-- The matching release restores the pool, whatever memory became. -/
theorem releasePool_locked {m : Machine} {pf : PoolFlags} (free : (m.pool pf).lk = lockInit)
    (mem : Bytes) (tables : Words) :
    releasePool { m.locked pf with mem := mem, tables := tables } pf =
      .ok { m with mem := mem, tables := tables, intr := .on } := by
  have held : (({ m.locked pf with mem := mem, tables := tables } : Machine).pool pf).lk =
      Lock.heldBy ({ m.locked pf with mem := mem, tables := tables } : Machine).running := by
    simp [Machine.locked, Machine.setPool]
  rw [releasePool, held, bind_ok (lockRelease_heldBy _)]
  simp only [Machine.locked, Machine.setPool, pure_eq_ok, Except.ok.injEq, Machine.mk.injEq,
    true_and, and_true, if_true]
  funext query
  split
  · next same => rw [same, ← free]
  · rfl

theorem setRun_eq (mem : Bytes) (btmp : Bitmap) (start : Nat) (value : Bool) (pgCnt : Nat) :
    setRun mem btmp start (if value then 1 else 0) pgCnt =
      .ok (mem.setBits (fun idx => 8 * btmp.bitmapBits + (start + idx) % 2 ^ 32) value pgCnt) := by
  induction pgCnt with
  | zero => rfl
  | succ cnt ih => rw [setRun, bind_ok ih, bitmapSet_eq, Bytes.setBits]

@[simp] theorem setRun_one (mem : Bytes) (btmp : Bitmap) (start pgCnt : Nat) :
    setRun mem btmp start 1 pgCnt =
      .ok (mem.setBits (fun idx => 8 * btmp.bitmapBits + (start + idx) % 2 ^ 32) true pgCnt) :=
  setRun_eq mem btmp start true pgCnt

@[simp] theorem setRun_zero (mem : Bytes) (btmp : Bitmap) (start pgCnt : Nat) :
    setRun mem btmp start 0 pgCnt =
      .ok (mem.setBits (fun idx => 8 * btmp.bitmapBits + (start + idx) % 2 ^ 32) false pgCnt) :=
  setRun_eq mem btmp start false pgCnt

/-! ## What a call leaves alone -/

/-- The byte belongs to the bitmap of a pool. -/
def Machine.PoolByte (m : Machine) (query : Nat) : Prop :=
  ∃ pf, (m.pool pf).poolBitmap.bitmapBits ≤ query ∧
    query < (m.pool pf).poolBitmap.bitmapBits + (m.pool pf).poolBitmap.bitmapLen

/-- Nothing changed but the bitmaps of the pools and the page tables. -/
structure MapsOnly (m m' : Machine) : Prop where
  same : m' = { m with mem := m'.mem, tables := m'.tables }
  mem : ∀ query, ¬m.PoolByte query → m'.mem query = m.mem query

namespace MapsOnly

variable {m m' m'' : Machine}

theorem refl (m : Machine) : MapsOnly m m := ⟨rfl, fun _ _ => rfl⟩

theorem of_tables (m : Machine) (tables : Words) : MapsOnly m { m with tables := tables } :=
  ⟨rfl, fun _ _ => rfl⟩

theorem pool_eq (only : MapsOnly m m') : m'.pool = m.pool := by rw [only.same]

theorem kernelVaddr_eq (only : MapsOnly m m') : m'.kernelVaddr = m.kernelVaddr := by
  rw [only.same]

theorem trans (first : MapsOnly m m') (second : MapsOnly m' m'') : MapsOnly m m'' := by
  constructor
  · rw [second.same, first.same]
  · intro query outside
    have outside' : ¬m'.PoolByte query := by
      simpa only [Machine.PoolByte, first.pool_eq] using outside
    exact (second.mem query outside').trans (first.mem query outside)

theorem setFrame {pf : PoolFlags} {index : Nat} (inside : index < m.frameCount pf) (value : Bool) :
    MapsOnly m (m.setFrame pf index value) := by
  refine ⟨rfl, fun query outside => Bytes.setBit_of_ne _ _ ?_⟩
  rintro rfl
  simp only [Machine.frameCount] at inside
  refine outside ⟨pf, ?_, ?_⟩ <;>
  · rw [Machine.frameBitAddr]
    omega

theorem laid (only : MapsOnly m m') {kernelPages userPages : Nat}
    (laid : Laid m kernelPages userPages) : Laid m' kernelPages userPages :=
  laid.congr (.of_eq only.pool_eq only.kernelVaddr_eq)

end MapsOnly

theorem allocPhysicalPages_mapsOnly {m m' : Machine} {pf : PoolFlags} {paddr : Nat}
    (run : allocPhysicalPages m pf = .ok (paddr, m')) : MapsOnly m m' := by
  obtain ⟨index, inside, -, -, -, rfl⟩ := allocPhysicalPages_ok run
  exact .setFrame inside true

theorem writeVirt_ok {m m' : Machine} {vaddr word : Nat} (run : writeVirt m vaddr word = .ok m') :
    ∃ slot, walk m.tables m.cr3 vaddr = some slot ∧
      m' = { m with tables := m.tables.write slot word } := by
  rw [writeVirt] at run
  split at run
  · next slot mapped => exact ⟨slot, mapped, (Except.ok.inj run).symm⟩
  · cases run

theorem writeVirt_mapsOnly {m m' : Machine} {vaddr word : Nat}
    (run : writeVirt m vaddr word = .ok m') : MapsOnly m m' := by
  obtain ⟨slot, -, rfl⟩ := writeVirt_ok run
  exact .of_tables m _

theorem clearVirt_mapsOnly {m m' : Machine} {vaddr count : Nat}
    (run : clearVirt m vaddr count = .ok m') : MapsOnly m m' := by
  induction count generalizing m' with
  | zero =>
      cases run
      exact .refl m
  | succ count ih =>
      rw [clearVirt, bind_eq_ok] at run
      obtain ⟨between, first, last⟩ := run
      exact (ih first).trans (writeVirt_mapsOnly last)

theorem insertPageTable_mapsOnly {m m' : Machine} {vaddr paddr : Nat}
    (run : insertPageTable m vaddr paddr = .ok m') : MapsOnly m m' := by
  rw [insertPageTable, bind_eq_ok] at run
  obtain ⟨pde, -, run⟩ := run
  split at run
  · rw [bind_eq_ok] at run
    obtain ⟨pte, -, run⟩ := run
    split at run <;> exact writeVirt_mapsOnly run
  · simp only [bind_eq_ok] at run
    obtain ⟨⟨frame, m1⟩, alloc, m2, install, m3, clear, last⟩ := run
    exact (((allocPhysicalPages_mapsOnly alloc).trans (writeVirt_mapsOnly install)).trans
      (clearVirt_mapsOnly clear)).trans (writeVirt_mapsOnly last)

theorem mapPages_mapsOnly {m m' : Machine} {memPool : PoolFlags} {vaddr cnt : Nat} {mapped : Bool}
    (run : mapPages m memPool vaddr cnt = .ok (mapped, m')) : MapsOnly m m' := by
  induction cnt generalizing m vaddr with
  | zero =>
      cases run
      exact .refl _
  | succ cnt ih =>
      rw [mapPages, bind_eq_ok] at run
      obtain ⟨⟨paddr, m1⟩, alloc, run⟩ := run
      have first := allocPhysicalPages_mapsOnly alloc
      dsimp only at run
      split at run
      · cases run
        exact first
      · rw [bind_eq_ok] at run
        obtain ⟨m2, insert, rest⟩ := run
        exact (first.trans (insertPageTable_mapsOnly insert)).trans (ih rest)

/-- `get_virtual_pages` for the kernel marks a run of clear bits. -/
theorem getVirtualPages_kernel_ok {m m' : Machine} {pgCnt vaddr : Nat} (positive : 1 ≤ pgCnt)
    (pgCntLt : pgCnt < 2 ^ 32) (lenLe : 8 * m.kernelVaddr.vaddrBitmap.bitmapLen ≤ 2 ^ 32)
    (run : getVirtualPages m .kernel pgCnt = .ok (vaddr, m')) :
    ∃ start, bitmapScan m.mem m.kernelVaddr.vaddrBitmap pgCnt = .ok (some start) ∧
      start < 8 * m.kernelVaddr.vaddrBitmap.bitmapLen ∧
      (∀ offset, offset < pgCnt →
        m.kernelVaddr.vaddrBitmap.bit m.mem ((start + offset) % 2 ^ 32) = false) ∧
      vaddr = (m.kernelVaddr.vaddrStart + start * 4096) % 2 ^ 32 ∧
      m' = { m with mem := m.mem.setBits (fun idx =>
        8 * m.kernelVaddr.vaddrBitmap.bitmapBits + (start + idx) % 2 ^ 32) true pgCnt } := by
  simp only [getVirtualPages, bind_eq_ok] at run
  obtain ⟨scanned, scan, run⟩ := run
  obtain ⟨start, rfl, inside, clear⟩ := bitmapScan_ok positive pgCntLt lenLe scan
  simp only [setRun_one, bind_eq_ok, Except.ok.injEq, exists_eq_left', pure_eq_ok,
    Prod.mk.injEq] at run
  exact ⟨start, scan, inside, clear, run.1.symm, run.2.symm⟩

/-- `malloc_pages` taken apart: the run of virtual pages, then their frames. -/
theorem mallocPages_ok {m m' : Machine} {pf : PoolFlags} {pgCnt vaddr : Nat} (nonNull : vaddr ≠ 0)
    (run : mallocPages m pf pgCnt = .ok (vaddr, m')) :
    ∃ m1, getVirtualPages m pf pgCnt = .ok (vaddr, m1) ∧
      mapPages m1 pf vaddr pgCnt = .ok (true, m') := by
  rw [mallocPages, bind_eq_ok] at run
  obtain ⟨⟨start, m1⟩, virtual, run⟩ := run
  dsimp only at run
  split at run
  · cases run
    exact absurd rfl nonNull
  · rw [bind_eq_ok] at run
    obtain ⟨⟨mapped, m2⟩, map, run⟩ := run
    cases mapped with
    | true =>
        cases run
        exact ⟨m1, virtual, map⟩
    | false =>
        cases run
        exact absurd rfl nonNull

/-- The first turn of the loops of `free_pages`, and the turns after it. -/
theorem freeRun_succ_ok {m m' : Machine} {memPool : PoolFlags} {vaddr pgCnt : Nat}
    (run : freeRun m memPool vaddr (pgCnt + 1) = .ok m') :
    ∃ pgPhyAddr m1 m2, addrV2p m vaddr = .ok pgPhyAddr ∧
      freePhysicalPages m pgPhyAddr = .ok m1 ∧ removePageTable m1 vaddr = .ok m2 ∧
      freeRun m2 memPool ((vaddr + pageSize) % 2 ^ 32) pgCnt = .ok m' := by
  simp only [freeRun, bind_eq_ok] at run
  obtain ⟨pgPhyAddr, translated, run⟩ := run
  cases memPool <;>
  · simp only [bind_eq_ok] at run
    obtain ⟨_, -, m1, freed, m2, removed, rest⟩ := run
    exact ⟨pgPhyAddr, m1, m2, translated, freed, removed, rest⟩

namespace Laid

variable {m m' : Machine} {kernelPages userPages : Nat}

theorem of_mem (laid : Laid m kernelPages userPages) (mem : Bytes) :
    Laid { m with mem := mem } kernelPages userPages :=
  laid.congr (.of_eq rfl rfl)

theorem runBy (laid : Laid m kernelPages userPages) (thread : Nat) :
    Laid (m.runBy thread) kernelPages userPages :=
  laid.congr (.of_eq rfl rfl)

theorem locked (laid : Laid m kernelPages userPages) (pf : PoolFlags) :
    Laid (m.locked pf) kernelPages userPages := by
  refine laid.congr ⟨fun query => ?_, fun query => ?_, fun query => ?_, rfl⟩ <;>
  · simp only [Machine.locked, Machine.setPool]
    split
    · next same => rw [same]
    · rfl

/-- The bitmaps of the pools lie below that of the kernel's virtual pages. -/
theorem poolByte_bounds (laid : Laid m kernelPages userPages) {query : Nat}
    (byte : m.PoolByte query) :
    0xc009a000 ≤ query ∧ query < m.kernelVaddr.vaddrBitmap.bitmapBits := by
  obtain ⟨pf, lower, upper⟩ := byte
  rw [laid.vaddr]
  cases pf with
  | kernel =>
      rw [laid.kernelBitmap] at lower upper
      dsimp only at lower upper ⊢
      omega
  | user =>
      rw [laid.userBitmap] at lower upper
      dsimp only at lower upper ⊢
      omega

/-- A bit of the kernel's virtual bitmap lies outside those of the pools. -/
theorem virtualBit_mapsOnly (laid : Laid m kernelPages userPages) (only : MapsOnly m m')
    (index : Nat) :
    m.kernelVaddr.vaddrBitmap.bit m'.mem index = m.kernelVaddr.vaddrBitmap.bit m.mem index := by
  refine Bytes.bit_congr (only.mem _ fun byte => ?_)
  have bounds := laid.poolByte_bounds byte
  omega

/-- An allocated frame is not `NULL`. -/
theorem alloc_ne_zero (laid : Laid m kernelPages userPages) {pf : PoolFlags} {paddr : Nat}
    (run : allocPhysicalPages m pf = .ok (paddr, m')) : paddr ≠ 0 := by
  obtain ⟨index, inside, -, -, rfl, -⟩ := allocPhysicalPages_ok run
  obtain ⟨addr, -, -, -, lower, -⟩ := laid.frameAddr_spec inside
  omega

/-- The loop of `malloc_pages` never runs into a `NULL` frame. -/
theorem mapPages_true (laid : Laid m kernelPages userPages) {pf : PoolFlags} {vaddr cnt : Nat}
    {mapped : Bool} (run : mapPages m pf vaddr cnt = .ok (mapped, m')) : mapped = true := by
  induction cnt generalizing m vaddr with
  | zero =>
      cases run
      rfl
  | succ cnt ih =>
      rw [mapPages, bind_eq_ok] at run
      obtain ⟨⟨paddr, m1⟩, alloc, run⟩ := run
      dsimp only at run
      rw [if_neg (laid.alloc_ne_zero alloc), bind_eq_ok] at run
      obtain ⟨m2, insert, rest⟩ := run
      exact ih ((insertPageTable_mapsOnly insert).laid
        ((allocPhysicalPages_mapsOnly alloc).laid laid)) rest

/-- A successful `malloc_pages` for the kernel: a run of pages whose bits were
clear and are set now, entered in the page tables. -/
theorem mallocPages_kernel_ok (laid : Laid m kernelPages userPages) {pgCnt vaddr : Nat}
    (positive : 1 ≤ pgCnt) (pgCntLt : pgCnt < 2 ^ 32)
    (run : mallocPages m .kernel pgCnt = .ok (vaddr, m')) :
    ∃ start, start < 8 * (kernelPages / 8) ∧
      (∀ offset, offset < pgCnt →
        m.kernelVaddr.vaddrBitmap.bit m.mem ((start + offset) % 2 ^ 32) = false) ∧
      vaddr = 0xc0100000 + 4096 * start ∧
      mapPages { m with mem := m.mem.setBits (fun idx =>
        8 * m.kernelVaddr.vaddrBitmap.bitmapBits + (start + idx) % 2 ^ 32) true pgCnt }
        .kernel vaddr pgCnt = .ok (true, m') := by
  have pagesLe := laid.kernelPages_le
  have len : m.kernelVaddr.vaddrBitmap.bitmapLen = kernelPages / 8 := by rw [laid.vaddr]
  have vaddrStart : m.kernelVaddr.vaddrStart = 0xc0100000 := by rw [laid.vaddr]
  rw [mallocPages, bind_eq_ok] at run
  obtain ⟨⟨first, m1⟩, virtual, run⟩ := run
  obtain ⟨start, -, inside, clear, rfl, rfl⟩ :=
    getVirtualPages_kernel_ok positive pgCntLt (by rw [len]; omega) virtual
  rw [len] at inside
  have firstEq : (m.kernelVaddr.vaddrStart + start * 4096) % 2 ^ 32 =
      0xc0100000 + 4096 * start := by
    rw [vaddrStart]
    omega
  dsimp only at run
  rw [firstEq, if_neg (by omega), bind_eq_ok] at run
  obtain ⟨⟨mapped, m2⟩, map, run⟩ := run
  obtain rfl := (laid.of_mem _).mapPages_true map
  cases run
  exact ⟨start, inside, clear, rfl, map⟩

/-- What `malloc_pages(PF_KERNEL, 1)` does, when it returns. -/
theorem mallocPages_one (laid : Laid m kernelPages userPages) {page : Nat}
    (run : mallocPages m .kernel 1 = .ok (page, m')) :
    ∃ index, index < 8 * (kernelPages / 8) ∧
      m.kernelVaddr.vaddrBitmap.bit m.mem index = false ∧ page = 0xc0100000 + 4096 * index ∧
      m' = { m with mem := m'.mem, tables := m'.tables } ∧
      (∀ query, (query < 0xc009a000 ∨ 0xc009e000 ≤ query) → m'.mem query = m.mem query) ∧
      ∀ other, m.kernelVaddr.vaddrBitmap.bit m'.mem other =
        if other = index then true else m.kernelVaddr.vaddrBitmap.bit m.mem other := by
  have kernelLe := laid.kernelPages_le
  have userLe := laid.userPages_le
  have bits : m.kernelVaddr.vaddrBitmap.bitmapBits =
      0xc009a000 + kernelPages / 8 + userPages / 8 := by rw [laid.vaddr]
  obtain ⟨index, inside, clear, rfl, map⟩ :=
    laid.mallocPages_kernel_ok (by decide) (by decide) run
  have small : index % 2 ^ 32 = index := Nat.mod_eq_of_lt (by omega)
  have first := clear 0 (by decide)
  rw [Nat.add_zero, small] at first
  simp only [Bytes.setBits, Nat.add_zero, small] at map
  have only := mapPages_mapsOnly map
  have laid1 := laid.of_mem (m.mem.setBit (8 * m.kernelVaddr.vaddrBitmap.bitmapBits + index) true)
  refine ⟨index, inside, first, rfl, only.same, ?_, ?_⟩
  · intro query off
    rw [only.mem]
    · exact Bytes.setBit_of_ne _ _ (by omega)
    · intro byte
      have bounds := laid1.poolByte_bounds byte
      dsimp only at bounds
      omega
  · intro other
    have kept := laid1.virtualBit_mapsOnly only other
    dsimp only at kept
    rw [kept, Bitmap.bit, Bytes.bit_setBit]
    have same : 8 * m.kernelVaddr.vaddrBitmap.bitmapBits + other =
        8 * m.kernelVaddr.vaddrBitmap.bitmapBits + index ↔ other = index := by omega
    simp only [same, Bitmap.bit]

end Laid

end Pumelo
