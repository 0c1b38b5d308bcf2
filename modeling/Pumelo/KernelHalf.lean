import Mathlib.Data.Finset.Card
import Mathlib.Data.Finset.Range
import Pumelo.Pages

/-!
# The kernel half of the address space

`setup_page` of `loader.S` builds the first page directory: it maps itself
through entry 1023, and entries 768 to 1022 name 255 page tables that lie one
after the other above it.  As long as a directory has these entries, a kernel
page is mapped by one store into its fixed slot, and `malloc_pages` for the
kernel takes one frame for each page and no frame for tables.
-/

namespace Pumelo

open Foundation PageWalk

/-- The loop `.create_pte`, which maps the first megabyte. -/
def createPte (ram : Words) : (count : Nat) → Words
  | 0 => ram
  | esi + 1 => (createPte ram esi).write (0x101000 + 4 * esi) (7 + 0x1000 * esi)

/-- The loop `.create_kernel_pde`, for entries from 769 on. -/
def createKernelPde (ram : Words) : (count : Nat) → Words
  | 0 => ram
  | count + 1 =>
      (createKernelPde ram count).write (0x100000 + 4 * (769 + count)) (0x102007 + 0x1000 * count)

/-- `setup_page`, in physical memory. The page tables are not cleared. -/
def setupPage (ram : Words) : Words :=
  let ram := ram.clearFrame 0x100000
  let ram := ram.write 0x100000 0x101007
  let ram := ram.write (0x100000 + 4 * 768) 0x101007
  let ram := ram.write (0x100000 + 4092) 0x100007
  let ram := createPte ram 256
  createKernelPde ram 254

/-- A machine as the loader hands it over, with zeros wherever it stored nothing. -/
def Machine.booted : Machine := { Machine.blank with tables := setupPage fun _ => 0 }

/-- The page table that entry `index` of every directory names, for `index` from
768 to 1022. -/
def kernelTable (index : Nat) : Nat := 0x101000 + 0x1000 * (index - 768)

/-- The directory maps itself and has the page tables of the kernel. -/
structure KernelTables (ram : Words) (cr3 : Nat) : Prop where
  self : SelfMapped ram cr3
  entries : ∀ index, 768 ≤ index → index < 1023 →
    Present (ram (frameOf cr3 + 4 * index)) ∧
      frameOf (ram (frameOf cr3 + 4 * index)) = kernelTable index
  apart : frameOf cr3 < 0x101000 ∨ 0x200000 ≤ frameOf cr3

/-- The slot of page number `page` of the kernel heap. -/
def heapSlot (page : Nat) : Nat := 0x101400 + 4 * page

theorem createPte_of_outside (ram : Words) {count query : Nat}
    (outside : query < 0x101000 ∨ 0x101000 + 4 * count ≤ query) :
    createPte ram count query = ram query := by
  induction count with
  | zero => rfl
  | succ count ih =>
      rw [createPte, Words.write_of_ne _ _ (by omega)]
      exact ih (by omega)

theorem createKernelPde_of_outside (ram : Words) {count query : Nat}
    (outside : query < 0x100000 + 4 * 769 ∨ 0x100000 + 4 * (769 + count) ≤ query) :
    createKernelPde ram count query = ram query := by
  induction count with
  | zero => rfl
  | succ count ih =>
      rw [createKernelPde, Words.write_of_ne _ _ (by omega)]
      exact ih (by omega)

theorem createKernelPde_entry (ram : Words) {count index : Nat} (indexLt : index < count) :
    createKernelPde ram count (0x100000 + 4 * (769 + index)) = 0x102007 + 0x1000 * index := by
  induction count with
  | zero => exact absurd indexLt (Nat.not_lt_zero index)
  | succ count ih =>
      rw [createKernelPde]
      by_cases same : index = count
      · rw [same, Words.write_self]
      · rw [Words.write_of_ne _ _ (by omega)]
        exact ih (by omega)

theorem setupPage_outside (ram : Words) {query : Nat}
    (outside : query < 0x100000 ∨ 0x101400 ≤ query) : setupPage ram query = ram query := by
  rw [setupPage, createKernelPde_of_outside _ (by omega), createPte_of_outside _ (by omega),
    Words.write_of_ne _ _ (by omega), Words.write_of_ne _ _ (by omega),
    Words.write_of_ne _ _ (by omega), Words.clearFrame_outside _ (by omega)]

/-- The entries of the boot directory. -/
theorem setupPage_entry (ram : Words) {index : Nat} (indexLt : index < 1024) :
    setupPage ram (0x100000 + 4 * index) =
      if index = 0 ∨ index = 768 then 0x101007
      else if index = 1023 then 0x100007
      else if index < 768 then 0
      else 0x102007 + 0x1000 * (index - 769) := by
  rw [setupPage]
  by_cases kernel : 769 ≤ index ∧ index < 1023
  · have entry := createKernelPde_entry (createPte ((((ram.clearFrame 0x100000).write 0x100000
      0x101007).write (0x100000 + 4 * 768) 0x101007).write (0x100000 + 4092) 0x100007) 256)
      (show index - 769 < 254 by omega)
    rw [show 769 + (index - 769) = index by omega] at entry
    rw [entry, if_neg (by omega), if_neg (by omega), if_neg (by omega)]
  · rw [createKernelPde_of_outside _ (by omega), createPte_of_outside _ (by omega)]
    by_cases self : index = 1023
    · subst self
      rfl
    · rw [Words.write_of_ne _ _ (by omega)]
      by_cases first : index = 768
      · subst first
        rfl
      · rw [Words.write_of_ne _ _ (by omega)]
        by_cases zero : index = 0
        · subst zero
          rfl
        · rw [Words.write_of_ne _ _ (by omega), Words.clearFrame_slot _ _ indexLt,
            if_neg (by omega), if_neg self, if_pos (by omega)]

theorem setupPage_kernelTables (ram : Words) : KernelTables (setupPage ram) 0x100000 := by
  have dir : frameOf 0x100000 = 0x100000 := by decide
  refine ⟨?_, ?_, ?_⟩
  · rw [SelfMapped, dir, setupPage_entry ram (by decide)]
    decide
  · intro index lower upper
    rw [dir, setupPage_entry ram (by omega)]
    unfold kernelTable Present frameOf
    split
    · omega
    · rw [if_neg (by omega), if_neg (by omega)]
      omega
  · rw [dir]
    decide

namespace KernelTables

variable {ram : Words} {cr3 : Nat}

/-- The kernel's tables depend on the upper quarter of the directory. -/
theorem congr (kernel : KernelTables ram cr3) {ram' : Words}
    (agree : ∀ index, 768 ≤ index → index < 1024 →
      ram' (frameOf cr3 + 4 * index) = ram (frameOf cr3 + 4 * index)) : KernelTables ram' cr3 := by
  refine ⟨?_, ?_, kernel.apart⟩
  · rw [SelfMapped, agree 1023 (by decide) (by decide)]
    exact kernel.self
  · intro index lower upper
    rw [agree index lower (by omega)]
    exact kernel.entries index lower upper

/-- Stores into the kernel's tables leave directories alone. -/
theorem write (kernel : KernelTables ram cr3) {slot : Nat} (word : Nat) (lower : 0x101000 ≤ slot)
    (upper : slot < 0x200000) : KernelTables (ram.write slot word) cr3 := by
  have apart := kernel.apart
  have aligned := frameOf_mod cr3
  exact kernel.congr fun index _ _ => Words.write_of_ne _ _ (by omega)

theorem heapSlot_bounds {page : Nat} (inside : page < 260864) :
    0x101000 ≤ heapSlot page ∧ heapSlot page < 0x200000 := by
  rw [heapSlot]
  omega

theorem heapSlot_inj {page other : Nat} (equal : heapSlot page = heapSlot other) :
    page = other := by
  rw [heapSlot, heapSlot] at equal
  omega

/-- The slot of a page of the kernel heap. -/
theorem pteSlot_heap (kernel : KernelTables ram cr3) {page : Nat} (inside : page < 260864) :
    pteSlot ram cr3 (0xc0100000 + 4096 * page) = some (heapSlot page) := by
  obtain ⟨present, table⟩ := kernel.entries (dirIndex (0xc0100000 + 4096 * page))
    (by simp only [dirIndex]; omega) (by simp only [dirIndex]; omega)
  have slot : kernelTable (dirIndex (0xc0100000 + 4096 * page)) +
      4 * tableIndex (0xc0100000 + 4096 * page) = heapSlot page := by
    unfold kernelTable heapSlot dirIndex tableIndex
    omega
  rw [pteSlot_of_present present, pdeSlot, table, slot]

/-- Every address of a kernel page has the slot of the page. -/
theorem pteSlot_page (kernel : KernelTables ram cr3) {page offset : Nat} (inside : page < 260864)
    (small : offset < 4096) :
    pteSlot ram cr3 (0xc0100000 + 4096 * page + offset) = some (heapSlot page) := by
  rw [← kernel.pteSlot_heap inside]
  apply pteSlot_of_page
  omega

theorem walk_page (kernel : KernelTables ram cr3) {page offset frame : Nat} (inside : page < 260864)
    (small : offset < 4096) (aligned : frame % 4096 = 0) (fits : frame < 2 ^ 32)
    (entry : ram (heapSlot page) = frame + 7) :
    walk ram cr3 (0xc0100000 + 4096 * page + offset) = some (frame + offset) := by
  have present : Present (frame + 7) := by
    unfold Present
    omega
  have within : pageOffset (0xc0100000 + 4096 * page + offset) = offset := by
    unfold pageOffset
    omega
  rw [walk, kernel.pteSlot_page inside small, Option.bind_some, entry, if_pos present, within,
    frameOf_add aligned fits (by decide)]

theorem walk_absent (kernel : KernelTables ram cr3) {page offset : Nat} (inside : page < 260864)
    (small : offset < 4096) (absent : ¬Present (ram (heapSlot page))) :
    walk ram cr3 (0xc0100000 + 4096 * page + offset) = none := by
  rw [walk, kernel.pteSlot_page inside small, Option.bind_some, if_neg absent]

end KernelTables

/-- A kernel page is entered by one store. -/
theorem insertPageTable_heap {m : Machine} (kernel : KernelTables m.tables m.cr3) {page paddr : Nat}
    (inside : page < 260864) (aligned : paddr % 4096 = 0) :
    insertPageTable m (0xc0100000 + 4096 * page) paddr =
      .ok { m with tables := m.tables.write (heapSlot page) (paddr + 7) } :=
  insertPageTable_present kernel.self (by omega) (kernel.pteSlot_heap inside) aligned

/-- The frames of a pool whose bits are clear. -/
def Machine.freeFrames (m : Machine) (pf : PoolFlags) : Finset Nat :=
  (Finset.range (m.frameCount pf)).filter fun index => m.frameBit pf index = false

theorem Machine.mem_freeFrames {m : Machine} {pf : PoolFlags} {index : Nat} :
    index ∈ m.freeFrames pf ↔ index < m.frameCount pf ∧ m.frameBit pf index = false := by
  simp [Machine.freeFrames]

/-- Which frames are free is in the bitmaps of the pools. -/
theorem Machine.freeFrames_congr {m m' : Machine} (layout : SameLayout m m')
    (same : ∀ query, m.PoolByte query → m'.mem query = m.mem query) (pf : PoolFlags) :
    m'.freeFrames pf = m.freeFrames pf := by
  ext index
  simp only [Machine.mem_freeFrames, Machine.frameCount, Machine.frameBit, layout.poolBitmap]
  refine and_congr_right fun inside => ?_
  rw [show (m.pool pf).poolBitmap.bit m'.mem index = (m.pool pf).poolBitmap.bit m.mem index from
    Bytes.bit_congr (same _ ⟨pf, by omega, by omega⟩)]

/-- Taking a frame leaves one free frame less. -/
theorem Laid.freeFrames_setFrame {m : Machine} {kernelPages userPages : Nat}
    (laid : Laid m kernelPages userPages) {pf : PoolFlags} {index : Nat}
    (inside : index < m.frameCount pf) :
    (m.setFrame pf index true).freeFrames pf = (m.freeFrames pf).erase index := by
  ext other
  rw [Finset.mem_erase, Machine.mem_freeFrames, Machine.mem_freeFrames]
  have count : (m.setFrame pf index true).frameCount pf = m.frameCount pf := rfl
  rw [count]
  constructor
  · rintro ⟨otherInside, clear⟩
    rw [laid.frameBit_setFrame true inside otherInside] at clear
    split at clear
    · cases clear
    · next different => exact ⟨fun same => different ⟨rfl, same⟩, otherInside, clear⟩
  · rintro ⟨different, otherInside, clear⟩
    refine ⟨otherInside, ?_⟩
    rw [laid.frameBit_setFrame true inside otherInside, if_neg fun both => different both.2]
    exact clear

/-- An allocation returns exactly when a frame is free. -/
theorem allocPhysicalPages_returns {m : Machine} {pf : PoolFlags} :
    (∃ paddr m', allocPhysicalPages m pf = .ok (paddr, m')) ↔ (m.freeFrames pf).Nonempty := by
  constructor
  · rintro ⟨paddr, m', run⟩
    obtain ⟨index, inside, clear, -⟩ := allocPhysicalPages_ok run
    exact ⟨index, Machine.mem_freeFrames.mpr ⟨inside, clear⟩⟩
  · rintro ⟨index, member⟩
    obtain ⟨inside, clear⟩ := Machine.mem_freeFrames.mp member
    exact allocPhysicalPages_of_clear inside clear

/-! ## Mapping kernel pages -/

/-- The machine after a frame of the kernel pool was taken and entered as a page of
the kernel heap. -/
def Machine.withPage (m : Machine) (index page : Nat) : Machine :=
  { m.setFrame .kernel index true with
    tables := m.tables.write (heapSlot page) (m.frameAddr .kernel index + 7) }

section WithPage

variable {m : Machine} {kernelPages userPages index page : Nat}

theorem Laid.withPage (laid : Laid m kernelPages userPages) (index page : Nat) :
    Laid (m.withPage index page) kernelPages userPages :=
  laid.congr (.of_eq rfl rfl)

theorem KernelTables.withPage (kernel : KernelTables m.tables m.cr3) (inside : page < 260864)
    (index : Nat) : KernelTables (m.withPage index page).tables (m.withPage index page).cr3 := by
  obtain ⟨lower, upper⟩ := heapSlot_bounds inside
  exact kernel.write _ lower upper

theorem Laid.freeFrames_withPage (laid : Laid m kernelPages userPages)
    (inside : index < m.frameCount .kernel) (page : Nat) :
    (m.withPage index page).freeFrames .kernel = (m.freeFrames .kernel).erase index :=
  laid.freeFrames_setFrame inside

/-- One turn of the loop of `malloc_pages` for a kernel page. -/
theorem Laid.mapPages_heap_succ (laid : Laid m kernelPages userPages)
    (kernel : KernelTables m.tables m.cr3) (inside : page < 260864) (cnt : Nat)
    {paddr : Nat} {m1 : Machine} (alloc : allocPhysicalPages m .kernel = .ok (paddr, m1)) :
    ∃ index, index < m.frameCount .kernel ∧ m.frameBit .kernel index = false ∧
      mapPages m .kernel (0xc0100000 + 4096 * page) (cnt + 1) =
        mapPages (m.withPage index page) .kernel (0xc0100000 + 4096 * (page + 1)) cnt := by
  have nonNull := laid.alloc_ne_zero alloc
  obtain ⟨index, frameInside, clear, -, rfl, rfl⟩ := allocPhysicalPages_ok alloc
  obtain ⟨addr, aligned, -⟩ := laid.frameAddr_spec frameInside
  rw [addr] at alloc nonNull
  have insert := @insertPageTable_heap (m.setFrame .kernel index true) kernel page
    (m.frameAddr .kernel index) inside aligned
  have next : (0xc0100000 + 4096 * page + pageSize) % 2 ^ 32 = 0xc0100000 + 4096 * (page + 1) := by
    rw [pageSize]
    omega
  refine ⟨index, frameInside, clear, ?_⟩
  rw [mapPages, bind_ok alloc]
  dsimp only
  rw [if_neg nonNull, bind_ok insert, next]
  rfl

/-- `malloc_pages` can enter a run of kernel pages exactly when the kernel pool has
a frame for each of them. -/
theorem Laid.mapPages_heap {cnt : Nat} (laid : Laid m kernelPages userPages)
    (kernel : KernelTables m.tables m.cr3) (inside : page + cnt ≤ 260864) :
    (∃ m', mapPages m .kernel (0xc0100000 + 4096 * page) cnt = .ok (true, m')) ↔
      cnt ≤ (m.freeFrames .kernel).card := by
  induction cnt generalizing m page with
  | zero => exact iff_of_true ⟨m, rfl⟩ (Nat.zero_le _)
  | succ cnt ih =>
      by_cases returns : ∃ paddr m1, allocPhysicalPages m .kernel = .ok (paddr, m1)
      · obtain ⟨paddr, m1, alloc⟩ := returns
        obtain ⟨index, frameInside, clear, turn⟩ :=
          laid.mapPages_heap_succ kernel (show page < 260864 by omega) cnt alloc
        have member := Machine.mem_freeFrames.mpr ⟨frameInside, clear⟩
        have positive := Finset.card_pos.mpr ⟨index, member⟩
        rw [turn, ih (laid.withPage index page) (kernel.withPage (by omega) index) (by omega),
          laid.freeFrames_withPage frameInside, Finset.card_erase_of_mem member]
        omega
      · have none : (m.freeFrames .kernel).card = 0 := by
          rw [Finset.card_eq_zero, ← Finset.not_nonempty_iff_eq_empty, ← allocPhysicalPages_returns]
          exact returns
        rw [none]
        refine iff_of_false ?_ (by omega)
        rintro ⟨m', run⟩
        rw [mapPages, bind_eq_ok] at run
        obtain ⟨⟨paddr, m1⟩, alloc, -⟩ := run
        exact returns ⟨paddr, m1, alloc⟩

end WithPage

/-- Marking virtual pages changes no bit of a pool. -/
theorem Laid.freeFrames_of_virtual {m : Machine} {kernelPages userPages : Nat}
    (laid : Laid m kernelPages userPages) {mem : Bytes}
    (agree : ∀ query, query < m.kernelVaddr.vaddrBitmap.bitmapBits → mem query = m.mem query)
    (pf : PoolFlags) : ({ m with mem := mem } : Machine).freeFrames pf = m.freeFrames pf :=
  @Machine.freeFrames_congr m { m with mem := mem } (.of_eq rfl rfl)
    (fun query byte => agree query (laid.poolByte_bounds byte).2) pf

/-- So does marking a run of them. -/
theorem Laid.freeFrames_marked {m : Machine} {kernelPages userPages : Nat}
    (laid : Laid m kernelPages userPages) (start pgCnt : Nat) (pf : PoolFlags) :
    ({ m with mem := m.mem.setBits (fun idx =>
      8 * m.kernelVaddr.vaddrBitmap.bitmapBits + (start + idx) % 2 ^ 32) true pgCnt } :
      Machine).freeFrames pf = m.freeFrames pf := by
  refine laid.freeFrames_of_virtual (fun query below => Bytes.setBits_of_ne _ _ ?_) pf
  intro idx idxLt
  omega

/-- What `get_virtual_pages` returns for the run that the scan finds. -/
theorem Laid.getVirtualPages_heap {m : Machine} {kernelPages userPages pgCnt start : Nat}
    (laid : Laid m kernelPages userPages) (positive : 1 ≤ pgCnt) (pgCntLe : pgCnt ≤ 65536)
    (scan : bitmapScan m.mem m.kernelVaddr.vaddrBitmap pgCnt = .ok (some start)) :
    start < kernelPages ∧
      getVirtualPages m .kernel pgCnt = .ok (0xc0100000 + 4096 * start,
        { m with mem := m.mem.setBits (fun idx =>
          8 * m.kernelVaddr.vaddrBitmap.bitmapBits + (start + idx) % 2 ^ 32) true pgCnt }) := by
  have kernelLe := laid.kernelPages_le
  have len : m.kernelVaddr.vaddrBitmap.bitmapLen = kernelPages / 8 := by rw [laid.vaddr]
  have vaddrStart : m.kernelVaddr.vaddrStart = 0xc0100000 := by rw [laid.vaddr]
  obtain ⟨found, equal, inside, -⟩ :=
    bitmapScan_ok positive (by omega) (by rw [len]; omega) scan
  cases equal
  rw [len] at inside
  have firstEq : (m.kernelVaddr.vaddrStart + start * pageSize) % 2 ^ 32 =
      0xc0100000 + 4096 * start := by
    rw [vaddrStart, pageSize]
    omega
  refine ⟨by omega, ?_⟩
  simp only [getVirtualPages, bind_ok scan, setRun_one, firstEq]
  rfl

/-- `malloc_pages` for the kernel returns exactly when the scan finds a run of
virtual pages and the kernel pool has a frame for each of them. -/
theorem Laid.mallocPages_heap {m : Machine} {kernelPages userPages pgCnt : Nat}
    (laid : Laid m kernelPages userPages) (kernel : KernelTables m.tables m.cr3)
    (positive : 1 ≤ pgCnt) (pgCntLe : pgCnt ≤ 65536) :
    (∃ vaddr m', mallocPages m .kernel pgCnt = .ok (vaddr, m')) ↔
      (∃ start, bitmapScan m.mem m.kernelVaddr.vaddrBitmap pgCnt = .ok (some start)) ∧
        pgCnt ≤ (m.freeFrames .kernel).card := by
  have kernelLe := laid.kernelPages_le
  have len : m.kernelVaddr.vaddrBitmap.bitmapLen = kernelPages / 8 := by rw [laid.vaddr]
  have marked := fun start => laid.freeFrames_marked start pgCnt .kernel
  constructor
  · rintro ⟨vaddr, m', run⟩
    obtain ⟨start, scanned, clear, rfl, map⟩ :=
      laid.mallocPages_kernel_ok positive (by omega) run
    rw [mallocPages, bind_eq_ok] at run
    obtain ⟨⟨first, m1⟩, virtual, -⟩ := run
    obtain ⟨found, scan, -⟩ :=
      getVirtualPages_kernel_ok positive (by omega) (by rw [len]; omega) virtual
    refine ⟨⟨found, scan⟩, ?_⟩
    have enough := ((laid.of_mem (m.mem.setBits (fun idx =>
      8 * m.kernelVaddr.vaddrBitmap.bitmapBits + (start + idx) % 2 ^ 32) true
      pgCnt)).mapPages_heap kernel (show start + pgCnt ≤ 260864 by omega)).mp ⟨m', map⟩
    rwa [marked] at enough
  · rintro ⟨⟨start, scan⟩, enough⟩
    obtain ⟨inside, virtual⟩ := laid.getVirtualPages_heap positive pgCntLe scan
    rw [← marked start] at enough
    obtain ⟨m', map⟩ := ((laid.of_mem (m.mem.setBits (fun idx =>
      8 * m.kernelVaddr.vaddrBitmap.bitmapBits + (start + idx) % 2 ^ 32) true
      pgCnt)).mapPages_heap kernel (show start + pgCnt ≤ 260864 by omega)).mpr enough
    refine ⟨0xc0100000 + 4096 * start, m', ?_⟩
    rw [mallocPages, bind_ok virtual]
    dsimp only
    rw [if_neg (by omega), bind_ok map]
    rfl

/-- `malloc_pages(PF_KERNEL, 1)` taken apart. -/
theorem Laid.mallocPages_withPage {m m' : Machine} {kernelPages userPages vaddr : Nat}
    (laid : Laid m kernelPages userPages) (kernel : KernelTables m.tables m.cr3)
    (run : mallocPages m .kernel 1 = .ok (vaddr, m')) :
    ∃ start index mem, start < 260864 ∧ index < m.frameCount .kernel ∧
      vaddr = 0xc0100000 + 4096 * start ∧
      m' = ({ m with mem := mem } : Machine).withPage index start ∧
      ({ m with mem := mem } : Machine).freeFrames .kernel = m.freeFrames .kernel := by
  have kernelLe := laid.kernelPages_le
  obtain ⟨start, inside, -, rfl, map⟩ := laid.mallocPages_kernel_ok (by decide) (by decide) run
  have returned := map
  rw [mapPages, bind_eq_ok] at map
  obtain ⟨⟨paddr, m1⟩, alloc, -⟩ := map
  have turns (mem : Bytes) {paddr : Nat} {m1 : Machine}
      (alloc : allocPhysicalPages { m with mem := mem } .kernel = .ok (paddr, m1)) :=
    (laid.of_mem mem).mapPages_heap_succ kernel (show start < 260864 by omega) 0 alloc
  obtain ⟨index, frameInside, -, turn⟩ := turns _ alloc
  rw [turn] at returned
  cases returned
  exact ⟨start, index, _, by omega, frameInside, rfl, rfl, laid.freeFrames_marked start 1 .kernel⟩

/-- The page of the kernel heap whose bit in the bitmap of virtual pages is `index`. -/
def Machine.heapPage (m : Machine) (index : Nat) : Nat := m.kernelVaddr.vaddrStart + 4096 * index

/-- The page is in use: it has a bit, and the bit is set. -/
def Machine.PageUsed (m : Machine) (page : Nat) : Prop :=
  ∃ index, index < 8 * m.kernelVaddr.vaddrBitmap.bitmapLen ∧
    m.kernelVaddr.vaddrBitmap.bit m.mem index = true ∧ page = m.heapPage index

/-- Which pages are in use is read off the bitmap of the kernel's virtual pages. -/
theorem Machine.pageUsed_congr {m m' : Machine} (kernelVaddr : m'.kernelVaddr = m.kernelVaddr)
    (agree : ∀ query, m.kernelVaddr.vaddrBitmap.bitmapBits ≤ query →
      query < m.kernelVaddr.vaddrBitmap.bitmapBits + m.kernelVaddr.vaddrBitmap.bitmapLen →
      m'.mem query = m.mem query) (page : Nat) : m'.PageUsed page ↔ m.PageUsed page := by
  simp only [Machine.PageUsed, Machine.heapPage, kernelVaddr]
  refine exists_congr fun index => and_congr_right fun inside => ?_
  have bit : m.kernelVaddr.vaddrBitmap.bit m'.mem index =
      m.kernelVaddr.vaddrBitmap.bit m.mem index :=
    Bytes.bit_congr (agree _ (by omega) (by omega))
  rw [bit]

/-- One bit of the bitmap decides about one page. -/
theorem Machine.pageUsed_update {m m' : Machine} (kernelVaddr : m'.kernelVaddr = m.kernelVaddr)
    {index : Nat} {value : Bool} (inside : index < 8 * m.kernelVaddr.vaddrBitmap.bitmapLen)
    (bits : ∀ other, other < 8 * m.kernelVaddr.vaddrBitmap.bitmapLen →
      m.kernelVaddr.vaddrBitmap.bit m'.mem other =
        if other = index then value else m.kernelVaddr.vaddrBitmap.bit m.mem other) (page : Nat) :
    m'.PageUsed page ↔ if page = m.heapPage index then value = true else m.PageUsed page := by
  have sameIndex : ∀ other, m.heapPage other = m.heapPage index → other = index := by
    intro other equal
    simp only [Machine.heapPage] at equal
    omega
  simp only [Machine.PageUsed, kernelVaddr]
  constructor
  · rintro ⟨other, otherInside, set, rfl⟩
    rw [bits other otherInside] at set
    simp only [Machine.heapPage, kernelVaddr] at sameIndex ⊢
    split at set
    · next same => rw [same, if_pos rfl, set]
    · next different =>
        rw [if_neg (fun equal => different (sameIndex other equal))]
        exact ⟨other, otherInside, set, rfl⟩
  · split
    · next same =>
        intro set
        refine ⟨index, inside, ?_, ?_⟩
        · rw [bits index inside, if_pos rfl, set]
        · simpa only [Machine.heapPage, kernelVaddr] using same
    · next different =>
        rintro ⟨other, otherInside, set, rfl⟩
        refine ⟨other, otherInside, ?_, by simp only [Machine.heapPage, kernelVaddr]⟩
        rw [bits other otherInside, if_neg (fun same => different (by rw [same])), set]

end Pumelo
