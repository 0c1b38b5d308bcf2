import Pumelo.Tlb

/-!
# Pages obtained and given back

`malloc_pages` marks a run of virtual pages and enters a frame for each; `free_pages` finds the
frames again in the page tables.  For kernel pages the second undoes the first, for every number
of pages.
-/

namespace Pumelo

open Foundation PageWalk KernelTables

/-- Frames of the kernel pool are marked, and the slots of pages from `page` on get a word for
each. -/
def Machine.setPages (m : Machine) (value : Bool) (word : Nat → Nat) (page : Nat) :
    (frames : List Nat) → Machine
  | [] => m
  | index :: rest =>
      Machine.setPages { m.setFrame .kernel index value with
        tables := m.tables.write (heapSlot page) (word index) } value word (page + 1) rest

section SetPages

variable {m : Machine} {value : Bool} {word : Nat → Nat} {page : Nat} {frames : List Nat}

theorem Machine.setPages_same : m.setPages value word page frames =
    { m with
      mem := (m.setPages value word page frames).mem
      tables := (m.setPages value word page frames).tables } := by
  induction frames generalizing m page with
  | nil => rfl
  | cons index rest ih =>
      rw [Machine.setPages, ih]
      rfl

@[simp] theorem Machine.setPages_pool :
    (m.setPages value word page frames).pool = m.pool := by
  rw [Machine.setPages_same]

@[simp] theorem Machine.setPages_kernelVaddr :
    (m.setPages value word page frames).kernelVaddr = m.kernelVaddr := by
  rw [Machine.setPages_same]

@[simp] theorem Machine.setPages_cr3 : (m.setPages value word page frames).cr3 = m.cr3 := by
  rw [Machine.setPages_same]

@[simp] theorem Machine.setPages_frameBitAddr :
    (m.setPages value word page frames).frameBitAddr = m.frameBitAddr := by
  funext pf index
  simp only [Machine.frameBitAddr, Machine.setPages_pool]

theorem Machine.setPages_bit (query : Nat) : (m.setPages value word page frames).mem.bit query =
    if query ∈ frames.map (m.frameBitAddr .kernel) then value else m.mem.bit query := by
  induction frames generalizing m page with
  | nil => simp [Machine.setPages]
  | cons index rest ih =>
      rw [Machine.setPages, ih]
      show (if query ∈ rest.map (m.frameBitAddr .kernel) then value
        else (m.mem.setBit (m.frameBitAddr .kernel index) value).bit query) = _
      rw [Bytes.bit_setBit, List.map_cons]
      by_cases later : query ∈ rest.map (m.frameBitAddr .kernel)
      · rw [if_pos later, if_pos (List.mem_cons_of_mem _ later)]
      · rw [if_neg later]
        simp only [List.mem_cons, later, or_false]

theorem Machine.setPages_tables_of_ne {query : Nat}
    (other : ∀ k < frames.length, query ≠ heapSlot (page + k)) :
    (m.setPages value word page frames).tables query = m.tables query := by
  induction frames generalizing m page with
  | nil => rfl
  | cons index rest ih =>
      rw [List.length_cons] at other
      rw [Machine.setPages, ih]
      · exact Words.write_of_ne _ _ (other 0 (by omega))
      · intro k lt
        have different := other (k + 1) (by omega)
        rwa [show page + (k + 1) = page + 1 + k by omega] at different

theorem Machine.setPages_tables {k index : Nat} (at' : frames[k]? = some index) :
    (m.setPages value word page frames).tables (heapSlot (page + k)) = word index := by
  induction frames generalizing m page k with
  | nil => cases at'
  | cons head rest ih =>
      rw [Machine.setPages]
      cases k with
      | zero =>
          cases at'
          rw [Machine.setPages_tables_of_ne]
          · exact Words.write_self _ _ _
          · intro k lt same
            have equal := heapSlot_inj same
            omega
      | succ k =>
          have later := @ih { m.setFrame .kernel head value with
            tables := m.tables.write (heapSlot page) (word head) } (page + 1) k at'
          rwa [show page + 1 + k = page + (k + 1) by omega] at later

theorem Laid.setPages {kernelPages userPages : Nat} (laid : Laid m kernelPages userPages) :
    Laid (m.setPages value word page frames) kernelPages userPages := by
  rw [Machine.setPages_same]
  exact laid.congr (.of_eq rfl rfl)

theorem KernelTables.setPages (kernel : KernelTables m.tables m.cr3)
    (inside : page + frames.length ≤ 260864) :
    KernelTables (m.setPages value word page frames).tables m.cr3 := by
  have apart := kernel.apart
  have aligned := frameOf_mod m.cr3
  apply kernel.congr
  intro index lower upper
  apply Machine.setPages_tables_of_ne
  intro k lt same
  have bounds := heapSlot_bounds (show page + k < 260864 by omega)
  omega

end SetPages

/-- Fewer pages can be entered too. -/
theorem mapPages_le {m m' : Machine} {pf : PoolFlags} {vaddr cnt less : Nat} (le : less ≤ cnt)
    (run : mapPages m pf vaddr cnt = .ok (true, m')) :
    ∃ m'', mapPages m pf vaddr less = .ok (true, m'') := by
  induction less generalizing m vaddr cnt with
  | zero => exact ⟨m, rfl⟩
  | succ less ih =>
      obtain ⟨cnt, rfl⟩ : ∃ left, cnt = left + 1 := ⟨cnt - 1, by omega⟩
      rw [mapPages, bind_eq_ok] at run
      obtain ⟨⟨paddr, m1⟩, alloc, run⟩ := run
      dsimp only at run
      split at run
      · cases run
      · next nonNull =>
          obtain ⟨m2, insert, rest⟩ := bind_eq_ok.mp run
          obtain ⟨m'', shorter⟩ := ih (by omega) rest
          refine ⟨m'', ?_⟩
          rw [mapPages, bind_ok alloc]
          dsimp only
          rw [if_neg nonNull, bind_ok insert]
          exact shorter

section Kernel

variable {m m' : Machine} {kernelPages userPages page : Nat}

/-- The frames of kernel pages that are entered were free, and no two are the same. -/
theorem Laid.mapPages_frames {cnt : Nat} (laid : Laid m kernelPages userPages)
    (kernel : KernelTables m.tables m.cr3) (inside : page + cnt ≤ 260864)
    (run : mapPages m .kernel (0xc0100000 + 4096 * page) cnt = .ok (true, m')) :
    ∃ frames, frames.length = cnt ∧ frames.Nodup ∧
      (∀ index ∈ frames, index ∈ m.freeFrames .kernel) ∧
      m' = m.setPages true (fun index => m.frameAddr .kernel index + 7) page frames := by
  induction cnt generalizing m page with
  | zero =>
      cases run
      exact ⟨[], rfl, List.nodup_nil, nofun, rfl⟩
  | succ cnt ih =>
      have returned := run
      rw [mapPages, bind_eq_ok] at run
      obtain ⟨⟨paddr, m1⟩, alloc, -⟩ := run
      obtain ⟨index, frameInside, clear, turn⟩ :=
        laid.mapPages_heap_succ kernel (show page < 260864 by omega) cnt alloc
      rw [turn] at returned
      obtain ⟨frames, length, nodup, free, rfl⟩ :=
        ih (laid.withPage index page) (kernel.withPage (by omega) index) (by omega) returned
      have member := Machine.mem_freeFrames.mpr ⟨frameInside, clear⟩
      rw [laid.freeFrames_withPage frameInside] at free
      refine ⟨index :: frames, by rw [List.length_cons, length], ?_, ?_, rfl⟩
      · refine List.nodup_cons.mpr ⟨fun twice => ?_, nodup⟩
        exact Finset.notMem_erase index _ (free index twice)
      · intro other within
        obtain rfl | within := List.mem_cons.mp within
        · exact member
        · exact Finset.mem_of_mem_erase (free other within)

/-- More pages than the kernel pool has frames are never entered. -/
theorem Laid.mapPages_lt {cnt : Nat} (laid : Laid m kernelPages userPages)
    (kernel : KernelTables m.tables m.cr3) (small : page ≤ 65536)
    (run : mapPages m .kernel (0xc0100000 + 4096 * page) cnt = .ok (true, m')) : cnt < 65536 := by
  by_contra large
  obtain ⟨m'', shorter⟩ := mapPages_le (Nat.not_lt.mp large) run
  have enough := (laid.mapPages_heap kernel (by omega)).mp ⟨m'', shorter⟩
  have frames : (m.freeFrames .kernel).card ≤ m.frameCount .kernel := by
    calc (m.freeFrames .kernel).card ≤ (Finset.range (m.frameCount .kernel)).card :=
          Finset.card_filter_le _ _
      _ = m.frameCount .kernel := Finset.card_range _
  have pagesLe := laid.kernelPages_le
  rw [laid.frameCount_kernel] at frames
  omega

/-- The walk of an address of the kernel half reads a word of the directory and one that is no
slot of another page of the heap. -/
theorem KernelTables.walk_congr {ram other : Words} {cr3 query count : Nat}
    (kernel : KernelTables ram cr3) (inside : page + count ≤ 260864)
    (same : ∀ slot, (∀ k < count, slot ≠ heapSlot (page + k)) → other slot = ram slot)
    (half : 0xc0000000 ≤ query) (fits : query < 2 ^ 32)
    (off : query < 0xc0100000 + 4096 * page ∨ 0xc0100000 + 4096 * (page + count) ≤ query) :
    walk other cr3 query = walk ram cr3 query := by
  have apart := kernel.apart
  have aligned := frameOf_mod cr3
  have directory {index : Nat} (lt : index < 1024) :
      other (frameOf cr3 + 4 * index) = ram (frameOf cr3 + 4 * index) := by
    apply same
    intro k lt equal
    have bounds := heapSlot_bounds (show page + k < 260864 by omega)
    omega
  have dir := dirIndex_lt fits
  apply PageWalk.walk_congr (directory dir)
  intro slot slotEq
  by_cases window : dirIndex query = 1023
  · have pde : ram (pdeSlot cr3 query) = ram (frameOf cr3 + 4 * 1023) := by rw [pdeSlot, window]
    rw [pteSlot_of_present (pde ▸ kernel.self.1), pde, kernel.self.2] at slotEq
    cases slotEq
    exact directory (tableIndex_lt query)
  · have table := kernel.entries (dirIndex query) (by unfold dirIndex; omega) (by omega)
    rw [pteSlot_of_present table.1, pdeSlot, table.2] at slotEq
    cases slotEq
    apply same
    intro k lt equal
    unfold kernelTable heapSlot tableIndex dirIndex at equal
    unfold dirIndex at window
    omega

/-! ## `free_pages` -/

/-- The loop of `free_pages` finds the frame of each page and takes the entry out. -/
theorem Laid.freeRun_frames {frames : List Nat} (laid : Laid m kernelPages userPages)
    (kernel : KernelTables m.tables m.cr3) (inside : page + frames.length ≤ 260864)
    (frameInside : ∀ index ∈ frames, index < m.frameCount .kernel)
    (entries : ∀ k index, frames[k]? = some index →
      m.tables (heapSlot (page + k)) = m.frameAddr .kernel index + 7) :
    freeRun m .kernel (0xc0100000 + 4096 * page) frames.length =
      .ok (m.setPages false (fun index => (m.frameAddr .kernel index + 7) &&& 0xfffffffe) page
        frames) := by
  induction frames generalizing m page with
  | nil => rfl
  | cons index rest ih =>
      rw [List.length_cons] at inside
      have here := frameInside index (List.mem_cons_self ..)
      have entry : m.tables (heapSlot page) = m.frameAddr .kernel index + 7 := entries 0 index rfl
      obtain ⟨-, aligned, lower, -, above, fits⟩ := laid.frameAddr_spec here
      have below := laid.frameAddr_kernel_lt here
      have pageInside : page < 260864 := by omega
      have slotEq := (walk_pteAddr kernel.self (by omega)).trans (kernel.pteSlot_heap pageInside)
      have translated : addrV2p m (0xc0100000 + 4096 * page) = .ok (m.frameAddr .kernel index) :=
        addrV2p_of_walk kernel.self (by omega)
          (kernel.walk_page pageInside (show 0 < 4096 by decide) aligned fits entry)
      have freed := laid.freePhysicalPages_eq here
      have removed : removePageTable (m.setFrame .kernel index false) (0xc0100000 + 4096 * page) =
          .ok { m.setFrame .kernel index false with
            tables := m.tables.write (heapSlot page) (m.tables (heapSlot page) &&& 0xfffffffe) } :=
        removePageTable_of_walk slotEq
      have next : (0xc0100000 + 4096 * page + pageSize) % 2 ^ 32 =
          0xc0100000 + 4096 * (page + 1) := by
        rw [pageSize]
        omega
      rw [List.length_cons, freeRun, bind_ok translated]
      dsimp only
      rw [bind_ok (assert_of ⟨aligned, lower, below⟩ _), bind_ok freed, bind_ok removed,
        next, entry]
      obtain ⟨slotLower, slotUpper⟩ := heapSlot_bounds pageInside
      apply ih
      · exact laid.congr (.of_eq rfl rfl)
      · exact kernel.write _ slotLower slotUpper
      · omega
      · exact fun other member => frameInside other (List.mem_cons_of_mem _ member)
      · intro k other at'
        have later := entries (k + 1) other at'
        have apart : heapSlot (page + 1 + k) ≠ heapSlot page := by
          intro equal
          have same := heapSlot_inj equal
          omega
        rw [show page + (k + 1) = page + 1 + k by omega] at later
        exact (Words.write_of_ne _ _ apart).trans later

/-- The bits of a run of virtual pages. -/
def Machine.setVirtual (m : Machine) (value : Bool) (start pgCnt : Nat) : Machine :=
  { m with mem := m.mem.setBits (fun idx =>
      8 * m.kernelVaddr.vaddrBitmap.bitmapBits + (start + idx) % 2 ^ 32) value pgCnt }

theorem Laid.setVirtual (laid : Laid m kernelPages userPages) (value : Bool) (start pgCnt : Nat) :
    Laid (m.setVirtual value start pgCnt) kernelPages userPages :=
  laid.of_mem _

/-- `free_pages` for pages that have entries. -/
theorem Laid.freePages_frames {frames : List Nat} (laid : Laid m kernelPages userPages)
    (kernel : KernelTables m.tables m.cr3) (inside : page + frames.length ≤ 260864)
    (nonempty : frames ≠ []) (frameInside : ∀ index ∈ frames, index < m.frameCount .kernel)
    (entries : ∀ k index, frames[k]? = some index →
      m.tables (heapSlot (page + k)) = m.frameAddr .kernel index + 7) :
    freePages m .kernel (0xc0100000 + 4096 * page) frames.length =
      .ok ((m.setPages false (fun index => (m.frameAddr .kernel index + 7) &&& 0xfffffffe) page
        frames).setVirtual false page frames.length) := by
  have loop := laid.freeRun_frames kernel inside frameInside entries
  obtain ⟨index, rest, rfl⟩ := List.exists_cons_of_ne_nil nonempty
  have here := frameInside index (List.mem_cons_self ..)
  obtain ⟨-, aligned, -, -, above, fits⟩ := laid.frameAddr_spec here
  have below := laid.frameAddr_kernel_lt here
  have positive : (index :: rest).length ≥ 1 := Nat.succ_pos _
  have translated : addrV2p m (0xc0100000 + 4096 * page) = .ok (m.frameAddr .kernel index) :=
    addrV2p_of_walk kernel.self (by omega)
      (kernel.walk_page (by omega) (show 0 < 4096 by decide) aligned fits (entries 0 index rfl))
  have vaddrStart : m.kernelVaddr.vaddrStart = 0xc0100000 := by rw [laid.vaddr]
  have first : (0xc0100000 + 4096 * page + 2 ^ 32 - 0xc0100000) % 2 ^ 32 / pageSize = page := by
    rw [pageSize]
    omega
  have pool : (if m.frameAddr .kernel index ≥ (m.pool .user).paddrStart then PoolFlags.user
      else .kernel) = .kernel := if_neg (Nat.not_le.mpr below)
  rw [freePages, bind_ok (assert_of ⟨positive, by rw [pageSize]; omega⟩ _), bind_ok translated,
    bind_ok (assert_of ⟨aligned, by omega⟩ _), pool, bind_ok loop, Machine.setPages_same]
  simp only [removeVirtualPages, setRun_zero, vaddrStart, first]
  rfl

end Kernel

section Kernel

variable {m m' : Machine} {kernelPages userPages : Nat}

/-- `malloc_pages` for the kernel marks a run of clear bits, and as many free frames. -/
theorem Laid.mallocPages_frames {vaddr pgCnt : Nat} (laid : Laid m kernelPages userPages)
    (kernel : KernelTables m.tables m.cr3) (positive : 1 ≤ pgCnt) (fits : pgCnt < 2 ^ 32)
    (run : mallocPages m .kernel pgCnt = .ok (vaddr, m')) :
    ∃ start frames, start + pgCnt ≤ 131072 ∧ vaddr = 0xc0100000 + 4096 * start ∧
      (∀ k < pgCnt, m.kernelVaddr.vaddrBitmap.bit m.mem (start + k) = false) ∧
      frames.length = pgCnt ∧ frames.Nodup ∧ (∀ index ∈ frames, index ∈ m.freeFrames .kernel) ∧
      m' = (m.setVirtual true start pgCnt).setPages true
        (fun index => m.frameAddr .kernel index + 7) start frames := by
  have kernelLe := laid.kernelPages_le
  obtain ⟨start, inside, clear, rfl, map⟩ := laid.mallocPages_kernel_ok positive fits run
  have laid1 := laid.setVirtual true start pgCnt
  have lt : pgCnt < 65536 := laid1.mapPages_lt kernel (by omega) map
  obtain ⟨frames, length, nodup, free, rfl⟩ := laid1.mapPages_frames kernel (by omega) map
  refine ⟨start, frames, by omega, rfl, ?_, length, nodup, ?_, rfl⟩
  · intro k kLt
    have bit := clear k kLt
    rwa [Nat.mod_eq_of_lt (by omega)] at bit
  · have same : (m.setVirtual true start pgCnt).freeFrames .kernel = m.freeFrames .kernel := by
      refine laid.freeFrames_of_virtual (fun query below => Bytes.setBits_of_ne _ _ ?_) .kernel
      intro idx idxLt
      omega
    rwa [same] at free

end Kernel

/-- What `malloc_pages(PF_KERNEL, pgCnt)` has done, and what `free_pages` does behind it. -/
structure RoundTrip (m m' : Machine) (vaddr pgCnt : Nat) : Prop where
  /-- The pages had clear bits. -/
  unmapped : ∃ start, vaddr = m.heapPage start ∧
    ∀ k < pgCnt, m.kernelVaddr.vaddrBitmap.bit m.mem (start + k) = false
  /-- Each of them is translated into another frame that was free. -/
  mapped : ∃ frames : List Nat, frames.length = pgCnt ∧ frames.Nodup ∧
    (∀ index ∈ frames, index ∈ m.freeFrames .kernel) ∧
    ∀ k index, frames[k]? = some index → ∀ offset < 4096,
      walk m'.tables m'.cr3 (vaddr + 4096 * k + offset) = some (m.frameAddr .kernel index + offset)
  /-- Addresses of other kernel pages are translated as before. -/
  others : ∀ query, 0xc0000000 ≤ query → query < 2 ^ 32 →
    (query < vaddr ∨ vaddr + 4096 * pgCnt ≤ query) →
    walk m'.tables m'.cr3 query = walk m.tables m.cr3 query
  /-- `free_pages` leaves nothing of it but the words of absent entries. -/
  back : ∃ m'', freePages m' .kernel vaddr pgCnt = .ok m'' ∧
    m'' = { m with tables := m''.tables } ∧
    ∀ k < pgCnt, ∀ offset < 4096, walk m''.tables m''.cr3 (vaddr + 4096 * k + offset) = none

/-- The bits of the run and of its frames were clear, and are again. -/
theorem Machine.setPages_restored {m : Machine} {start pgCnt : Nat} {frames : List Nat}
    {word word' : Nat → Nat} (small : start + pgCnt ≤ 131072)
    (clear : ∀ k < pgCnt, m.kernelVaddr.vaddrBitmap.bit m.mem (start + k) = false)
    (free : ∀ index ∈ frames, index ∈ m.freeFrames .kernel) :
    ((((m.setVirtual true start pgCnt).setPages true word start frames).setPages false word' start
      frames).setVirtual false start pgCnt).mem = m.mem := by
  apply Bytes.ext_bits
  intro query
  rw [Machine.setVirtual, Bytes.bit_setBits, Machine.setPages_bit, Machine.setPages_bit,
    Machine.setPages_frameBitAddr]
  simp only [Machine.setPages_kernelVaddr]
  show (if ∃ k < pgCnt, query = 8 * m.kernelVaddr.vaddrBitmap.bitmapBits + (start + k) % 2 ^ 32
      then false else if query ∈ frames.map (m.frameBitAddr .kernel) then false
      else if query ∈ frames.map (m.frameBitAddr .kernel) then true
      else (m.mem.setBits (fun idx =>
        8 * m.kernelVaddr.vaddrBitmap.bitmapBits + (start + idx) % 2 ^ 32) true pgCnt).bit query) =
          _
  by_cases virtual :
      ∃ k < pgCnt, query = 8 * m.kernelVaddr.vaddrBitmap.bitmapBits + (start + k) % 2 ^ 32
  · rw [if_pos virtual]
    obtain ⟨k, lt, rfl⟩ := virtual
    rw [Nat.mod_eq_of_lt (by omega)]
    exact (clear k lt).symm
  · rw [if_neg virtual]
    by_cases frame : query ∈ frames.map (m.frameBitAddr .kernel)
    · rw [if_pos frame]
      obtain ⟨index, member, rfl⟩ := List.mem_map.mp frame
      exact (Machine.mem_freeFrames.mp (free index member)).2.symm
    · rw [if_neg frame, if_neg frame, Bytes.bit_setBits, if_neg virtual]

/-- The rest of the machine is the same all the time. -/
theorem Machine.setPages_shape (m : Machine) (start pgCnt : Nat) (frames : List Nat)
    (word word' : Nat → Nat) : ∃ mem tables,
    (((m.setVirtual true start pgCnt).setPages true word start frames).setPages false word' start
      frames).setVirtual false start pgCnt = { m with mem := mem, tables := tables } := by
  rw [Machine.setVirtual, Machine.setPages_same, Machine.setPages_same]
  exact ⟨_, _, rfl⟩

/-- For every number of kernel pages that `malloc_pages` returns, `free_pages` takes them back
without a trace in the bitmaps. -/
theorem mallocPages_freePages {m m' : Machine} {kernelPages userPages vaddr pgCnt : Nat}
    (laid : Laid m kernelPages userPages) (kernel : KernelTables m.tables m.cr3)
    (positive : 1 ≤ pgCnt) (fits : pgCnt < 2 ^ 32)
    (run : mallocPages m .kernel pgCnt = .ok (vaddr, m')) : RoundTrip m m' vaddr pgCnt := by
  obtain ⟨start, frames, small, rfl, clear, rfl, nodup, free, rfl⟩ :=
    laid.mallocPages_frames kernel positive fits run
  let marked := m.setVirtual true start frames.length
  let word := fun index => m.frameAddr .kernel index + 7
  have inside : start + frames.length ≤ 260864 := by omega
  have kernel' : KernelTables (marked.setPages true word start frames).tables m.cr3 :=
    @KernelTables.setPages marked true word start frames kernel inside
  have frameInside : ∀ index ∈ frames, index < m.frameCount .kernel :=
    fun index member => (Machine.mem_freeFrames.mp (free index member)).1
  have entries : ∀ k index, frames[k]? = some index →
      (marked.setPages true word start frames).tables (heapSlot (start + k)) =
        m.frameAddr .kernel index + 7 :=
    fun k index at' => Machine.setPages_tables at'
  have vaddrStart : m.kernelVaddr.vaddrStart = 0xc0100000 := by rw [laid.vaddr]
  have pageAt (k offset : Nat) : 0xc0100000 + 4096 * start + 4096 * k + offset =
      0xc0100000 + 4096 * (start + k) + offset := by omega
  constructor
  case unmapped =>
    exact ⟨start, by rw [Machine.heapPage, vaddrStart], clear⟩
  case mapped =>
    refine ⟨frames, rfl, nodup, free, ?_⟩
    intro k index at' offset lt
    have member := List.mem_of_getElem? at'
    have kLt := (List.getElem?_eq_some_iff.mp at').1
    obtain ⟨-, aligned, -, -, -, frameFits⟩ := laid.frameAddr_spec (frameInside index member)
    rw [pageAt, Machine.setPages_cr3]
    exact kernel'.walk_page (by omega) lt aligned frameFits (entries k index at')
  case others =>
    intro query half queryLt off
    rw [Machine.setPages_cr3]
    apply kernel.walk_congr inside _ half queryLt (by omega)
    intro slot other
    exact Machine.setPages_tables_of_ne other
  case back =>
    have nonempty : frames ≠ [] := List.length_pos_iff.mp positive
    have laid' : Laid (marked.setPages true word start frames) kernelPages userPages :=
      (laid.setVirtual true start frames.length).setPages
    have count : (marked.setPages true word start frames).frameCount .kernel =
        m.frameCount .kernel := laid'.frameCount_kernel.trans laid.frameCount_kernel.symm
    have addr (index : Nat) : (marked.setPages true word start frames).frameAddr .kernel index =
        m.frameAddr .kernel index := by
      simp only [Machine.frameAddr, Machine.setPages_pool]
      rfl
    let word' := fun index => (m.frameAddr .kernel index + 7) &&& 0xfffffffe
    have free' := laid'.freePages_frames (by rw [Machine.setPages_cr3]; exact kernel') inside
      nonempty (by rw [count]; exact frameInside) (by simp only [addr]; exact entries)
    simp only [addr] at free'
    refine ⟨_, free', ?_, ?_⟩
    · have restored := @Machine.setPages_restored m start frames.length frames word word' small
        clear free
      obtain ⟨mem, tables, shape⟩ := m.setPages_shape start frames.length frames word word'
      rw [shape] at restored
      show (((marked.setPages true word start frames).setPages false word' start
        frames).setVirtual false start frames.length) = _
      rw [shape]
      cases restored
      rfl
    · intro k kLt offset lt
      obtain ⟨index, at'⟩ : ∃ index, frames[k]? = some index :=
        ⟨frames[k], List.getElem?_eq_getElem kLt⟩
      have after : KernelTables ((marked.setPages true word start frames).setPages false word'
          start frames).tables (marked.setPages true word start frames).cr3 :=
        KernelTables.setPages (by rw [Machine.setPages_cr3]; exact kernel') inside
      have entry : ((marked.setPages true word start frames).setPages false word' start
          frames).tables (heapSlot (start + k)) = (m.frameAddr .kernel index + 7) &&& 0xfffffffe :=
        Machine.setPages_tables at'
      rw [pageAt]
      show walk ((marked.setPages true word start frames).setPages false word' start frames).tables
        ((marked.setPages true word start frames).setPages false word' start frames).cr3 _ = none
      rw [Machine.setPages_cr3]
      apply after.walk_absent (by omega) lt
      rw [entry]
      exact cleared_absent _

/-- The first three pages of the kernel heap after `mem_init`. -/
theorem mallocPages_freePages_booted : ∃ m m',
    mallocPages m .kernel 3 = .ok (0xc0100000, m') ∧ RoundTrip m m' 0xc0100000 3 := by
  obtain ⟨m, start, initial, kernel, -, -, -⟩ := memInit_booted
  have evaluated : (mallocPages m .kernel 3).map (·.1) = .ok 0xc0100000 := by
    rw [← start]
    decide +kernel
  obtain ⟨⟨vaddr, m'⟩, run, same⟩ := map_eq_ok.mp evaluated
  obtain rfl : vaddr = 0xc0100000 := same
  exact ⟨m, m', run, mallocPages_freePages initial.heap.laid kernel (by decide) (by decide) run⟩

end Pumelo
