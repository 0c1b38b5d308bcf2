import Pumelo.Pool

/-!
# Page tables

`pte_addr`, `pde_addr`, `insert_page_table`, `remove_page_table` and `addr_v2p`
of `mem.c`.  The code reaches directory and tables through the recursive entry
1023 of the directory that is active, so that every access here is translated by
the walk it is about to change.
-/

namespace Pumelo

open Foundation PageWalk

/-- `PDE_IDX` -/
def pdeIdx (addr : Nat) : Nat := (addr &&& 0xffc00000) >>> 22

/-- `PTE_IDX` -/
def pteIdx (addr : Nat) : Nat := (addr &&& 0x003ff000) >>> 12

/-- `pte_addr` -/
def pteAddr (vaddr : Nat) : Nat := 0xffc00000 + ((vaddr &&& 0xffc00000) >>> 10) + pteIdx vaddr * 4

/-- `pde_addr` -/
def pdeAddr (vaddr : Nat) : Nat := 0xfffff000 + pdeIdx vaddr * 4

/-- Read a word of a directory or table through a pointer. -/
def readVirt (m : Machine) (vaddr : Nat) : Except Fault Nat :=
  match walk m.tables m.cr3 vaddr with
  | some slot => .ok (m.tables slot)
  | none => .error (.pageFault vaddr)

/-- Write a word of a directory or table through a pointer. -/
def writeVirt (m : Machine) (vaddr word : Nat) : Except Fault Machine :=
  match walk m.tables m.cr3 vaddr with
  | some slot => .ok { m with tables := m.tables.write slot word }
  | none => .error (.pageFault vaddr)

/-- `memset` with zero, as far as directories and tables see it. -/
def clearVirt (m : Machine) (vaddr : Nat) : (count : Nat) → Except Fault Machine
  | 0 => .ok m
  | count + 1 => do
      let m ← clearVirt m vaddr count
      writeVirt m (vaddr + 4 * count) 0

/-- `insert_page_table` -/
def insertPageTable (m : Machine) (vaddr paddr : Nat) : Except Fault Machine := do
  let pde := pdeAddr vaddr
  let pte := pteAddr vaddr
  if (← readVirt m pde) &&& 1 ≠ 0 then
    if (← readVirt m pte) &&& 1 = 0 then
      writeVirt m pte (paddr ||| pgFlags)
    else
      writeVirt m pte (paddr ||| pgFlags)
  else
    let (pdePaddr, m) ← allocPhysicalPages m .kernel
    let m ← writeVirt m pde (pdePaddr ||| pgFlags)
    let m ← clearVirt m (pte &&& 0xfffff000) (pageSize / 4)
    writeVirt m pte (paddr ||| pgFlags)

/-- `remove_page_table` -/
def removePageTable (m : Machine) (vaddr : Nat) : Except Fault Machine := do
  let pte := pteAddr vaddr
  writeVirt m pte ((← readVirt m pte) &&& 0xfffffffe)

/-- `addr_v2p` -/
def addrV2p (m : Machine) (vaddr : Nat) : Except Fault Nat := do
  let pte ← readVirt m (pteAddr vaddr)
  return ((pte &&& 0xfffff000) + (vaddr &&& 0x00000fff)) % 2 ^ 32

theorem pdeIdx_eq {vaddr : Nat} (fits : vaddr < 2 ^ 32) : pdeIdx vaddr = dirIndex vaddr := by
  have mask := and_mask_shiftLeft vaddr 22 10
  rw [pdeIdx, show (0xffc00000 : Nat) = (2 ^ 10 - 1) <<< 22 by decide, mask,
    Nat.shiftRight_eq_div_pow, dirIndex]
  omega

theorem pteIdx_eq (vaddr : Nat) : pteIdx vaddr = tableIndex vaddr := by
  have mask := and_mask_shiftLeft vaddr 12 10
  rw [pteIdx, show (0x003ff000 : Nat) = (2 ^ 10 - 1) <<< 12 by decide, mask,
    Nat.shiftRight_eq_div_pow, tableIndex]
  omega

theorem pdeAddr_eq {vaddr : Nat} (fits : vaddr < 2 ^ 32) :
    pdeAddr vaddr = 0xfffff000 + 4 * dirIndex vaddr := by
  rw [pdeAddr, pdeIdx_eq fits, Nat.mul_comm]

theorem pteAddr_eq {vaddr : Nat} (fits : vaddr < 2 ^ 32) :
    pteAddr vaddr = 0xffc00000 + 4096 * dirIndex vaddr + 4 * tableIndex vaddr := by
  have mask := and_mask_shiftLeft vaddr 22 10
  rw [pteAddr, pteIdx_eq, show (0xffc00000 : Nat) = (2 ^ 10 - 1) <<< 22 by decide, mask,
    Nat.shiftRight_eq_div_pow, dirIndex]
  omega

theorem readVirt_of_walk {m : Machine} {vaddr slot : Nat}
    (mapped : walk m.tables m.cr3 vaddr = some slot) : readVirt m vaddr = .ok (m.tables slot) := by
  rw [readVirt, mapped]

theorem writeVirt_of_walk {m : Machine} {vaddr slot : Nat}
    (mapped : walk m.tables m.cr3 vaddr = some slot) (word : Nat) :
    writeVirt m vaddr word = .ok { m with tables := m.tables.write slot word } := by
  rw [writeVirt, mapped]

/-- Clearing words of which none translates the others. -/
theorem clearVirt_of_walk {m : Machine} {vaddr count : Nat} {target : Nat → Nat}
    (mapped : ∀ index, index < count →
      walk m.tables m.cr3 (vaddr + 4 * index) = some (target index))
    (pdeApart : ∀ index other, index < count → other < count →
      pdeSlot m.cr3 (vaddr + 4 * index) ≠ target other)
    (pteApart : ∀ index other slot, index < count → other < count →
      pteSlot m.tables m.cr3 (vaddr + 4 * index) = some slot → slot ≠ target other) :
    clearVirt m vaddr count = .ok { m with tables := m.tables.clearAt target count } := by
  suffices prefixCleared : ∀ done, done ≤ count →
      clearVirt m vaddr done = .ok { m with tables := m.tables.clearAt target done } from
    prefixCleared count (Nat.le_refl count)
  intro done
  induction done with
  | zero => exact fun _ => rfl
  | succ done ih =>
      intro doneLt
      have kept : walk (m.tables.clearAt target done) m.cr3 (vaddr + 4 * done) =
          some (target done) := by
        rw [← mapped done doneLt]
        apply walk_congr
        · exact Words.clearAt_of_ne _ fun other otherLt =>
            pdeApart done other doneLt (by omega)
        · intro slot slotEq
          exact Words.clearAt_of_ne _ fun other otherLt =>
            pteApart done other slot doneLt (by omega) slotEq
      rw [clearVirt, bind_ok (ih (by omega)), writeVirt_of_walk kept]
      rfl

section SelfMapped

variable {m : Machine} {vaddr : Nat}

theorem walk_pdeAddr {ram : Words} {cr3 : Nat} (mapped : SelfMapped ram cr3)
    (fits : vaddr < 2 ^ 32) : walk ram cr3 (pdeAddr vaddr) = some (pdeSlot cr3 vaddr) := by
  rw [pdeAddr_eq fits, walk_dir_window mapped (dirIndex_lt fits), pdeSlot]

theorem walk_pteAddr {ram : Words} {cr3 : Nat} (mapped : SelfMapped ram cr3)
    (fits : vaddr < 2 ^ 32) : walk ram cr3 (pteAddr vaddr) = pteSlot ram cr3 vaddr := by
  rw [pteAddr_eq fits, walk_table_window mapped (dirIndex_lt fits) (tableIndex_lt vaddr)]
  rfl

theorem pteSlot_of_present {ram : Words} {cr3 : Nat} (present : Present (ram (pdeSlot cr3 vaddr))) :
    pteSlot ram cr3 vaddr = some (frameOf (ram (pdeSlot cr3 vaddr)) + 4 * tableIndex vaddr) :=
  if_pos present

/-- With the table present, `insert_page_table` writes the page's entry. -/
theorem insertPageTable_present (mapped : SelfMapped m.tables m.cr3) (fits : vaddr < 2 ^ 32)
    {slot : Nat} (slotEq : pteSlot m.tables m.cr3 vaddr = some slot) {paddr : Nat}
    (aligned : paddr % 4096 = 0) :
    insertPageTable m vaddr paddr = .ok { m with tables := m.tables.write slot (paddr + 7) } := by
  have present : Present (m.tables (pdeSlot m.cr3 vaddr)) := by
    by_contra absent
    simp [pteSlot, absent] at slotEq
  have pteWalk := (walk_pteAddr mapped fits).trans slotEq
  have flags : paddr ||| pgFlags = paddr + 7 := or_flags aligned (by decide)
  simp only [insertPageTable, bind_ok (readVirt_of_walk (walk_pdeAddr mapped fits)),
    if_pos (present_iff.mp present), bind_ok (readVirt_of_walk pteWalk),
    writeVirt_of_walk pteWalk, flags, ite_self]

theorem pteAddr_page (fits : vaddr < 2 ^ 32) :
    pteAddr vaddr &&& 0xfffff000 = 0xffc00000 + 4096 * dirIndex vaddr := by
  have tableLt := tableIndex_lt vaddr
  have dirLt := dirIndex_lt fits
  rw [and_frame_mask, pteAddr_eq fits]
  simp only [frameOf]
  omega

/-- A page of the window is translated by the recursive entry and by the entry
whose table it shows. -/
theorem window_slots {page index : Nat} (pageLt : page < 1024) (indexLt : index < 1024)
    (cr3 : Nat) : pdeSlot cr3 (0xffc00000 + 4096 * page + 4 * index) = frameOf cr3 + 4 * 1023 ∧
      tableIndex (0xffc00000 + 4096 * page + 4 * index) = page := by
  simp only [pdeSlot, dirIndex, tableIndex]
  omega

/-- Clearing a page table through the window that shows it. -/
theorem clearVirt_window (mapped : SelfMapped m.tables m.cr3) (below : vaddr < 0xffc00000)
    (present : Present (m.tables (pdeSlot m.cr3 vaddr)))
    (table : frameOf (m.tables (pdeSlot m.cr3 vaddr)) ≠ frameOf m.cr3) :
    clearVirt m (0xffc00000 + 4096 * dirIndex vaddr) 1024 =
      .ok { m with tables := m.tables.clearFrame (frameOf (m.tables (pdeSlot m.cr3 vaddr))) } := by
  have dirLt := dirIndex_lt (show vaddr < 2 ^ 32 by omega)
  have dirAligned := frameOf_mod m.cr3
  have tableAligned := frameOf_mod (m.tables (pdeSlot m.cr3 vaddr))
  rw [pdeSlot] at present
  apply clearVirt_of_walk
  · intro index indexLt
    rw [walk_table_window mapped dirLt indexLt]
    exact if_pos present
  · intro index other indexLt otherLt
    rw [(window_slots dirLt indexLt m.cr3).1]
    omega
  · intro index other slot indexLt otherLt slotEq
    obtain ⟨pdeEq, tableEq⟩ := window_slots dirLt indexLt m.cr3
    simp only [pteSlot, pdeEq, tableEq, if_pos mapped.1, mapped.2, Option.some.injEq] at slotEq
    omega

/-- The tables after `insert_page_table` with a new page table at `frame`. -/
def newTable (ram : Words) (cr3 vaddr frame paddr : Nat) : Words :=
  ((ram.write (pdeSlot cr3 vaddr) (frame + 7)).clearFrame frame).write
    (frame + 4 * tableIndex vaddr) (paddr + 7)

/-- With the table absent, `insert_page_table` installs a cleared one. -/
theorem insertPageTable_absent (mapped : SelfMapped m.tables m.cr3) (below : vaddr < 0xffc00000)
    (absent : ¬Present (m.tables (pdeSlot m.cr3 vaddr))) {frame paddr : Nat} {mem : Bytes}
    (alloc : allocPhysicalPages m .kernel = .ok (frame, { m with mem := mem }))
    (frameAligned : frame % 4096 = 0) (frameLt : frame < 2 ^ 32)
    (notDir : frame ≠ frameOf m.cr3) (aligned : paddr % 4096 = 0) :
    insertPageTable m vaddr paddr =
      .ok { m with mem := mem, tables := newTable m.tables m.cr3 vaddr frame paddr } := by
  have fits : vaddr < 2 ^ 32 := by omega
  have dirNe : dirIndex vaddr ≠ 1023 := by simp only [dirIndex]; omega
  have flags : paddr ||| pgFlags = paddr + 7 := or_flags aligned (by decide)
  have frameFlags : frame ||| pgFlags = frame + 7 := or_flags frameAligned (by decide)
  have notPresent : ¬(m.tables (pdeSlot m.cr3 vaddr) &&& 1 ≠ 0) := fun present =>
    absent (present_iff.mpr present)
  have dirAligned := frameOf_mod m.cr3
  have dirLt := dirIndex_lt fits
  -- The machine with the new directory entry, before its table is cleared.
  let installed : Machine :=
    { m with mem := mem, tables := m.tables.write (pdeSlot m.cr3 vaddr) (frame + 7) }
  have entry : installed.tables (pdeSlot m.cr3 vaddr) = frame + 7 := Words.write_self _ _ _
  have selfKept : installed.tables (frameOf m.cr3 + 4 * 1023) =
      m.tables (frameOf m.cr3 + 4 * 1023) :=
    Words.write_of_ne _ _ (by simp only [pdeSlot]; omega)
  have installedMapped : SelfMapped installed.tables installed.cr3 := by
    rw [SelfMapped, selfKept]
    exact mapped
  have entryPresent : Present (installed.tables (pdeSlot installed.cr3 vaddr)) := by
    rw [entry, Present]
    omega
  have entryFrame : frameOf (installed.tables (pdeSlot installed.cr3 vaddr)) = frame := by
    rw [entry, frameOf_add frameAligned frameLt (by decide)]
  have cleared := clearVirt_window installedMapped below entryPresent (by rwa [entryFrame])
  rw [entryFrame] at cleared
  -- Clearing the frame keeps the directory, and with it the way to the frame.
  have dirKept : ∀ index, index < 1024 → (installed.tables.clearFrame frame)
      (frameOf m.cr3 + 4 * index) = installed.tables (frameOf m.cr3 + 4 * index) :=
    fun index indexLt => Words.clearFrame_outside _ (by omega)
  have clearedMapped : SelfMapped (installed.tables.clearFrame frame) m.cr3 := by
    rw [SelfMapped, dirKept _ (by decide)]
    exact installedMapped
  have pteWalk : walk (installed.tables.clearFrame frame) m.cr3 (pteAddr vaddr) =
      some (frame + 4 * tableIndex vaddr) := by
    have kept : (installed.tables.clearFrame frame) (pdeSlot m.cr3 vaddr) = frame + 7 := by
      rw [pdeSlot, dirKept _ dirLt]
      exact entry
    have present : Present (frame + 7) := by rw [← entry]; exact entryPresent
    rw [walk_pteAddr clearedMapped fits, pteSlot_of_present (by rw [kept]; exact present),
      kept, frameOf_add frameAligned frameLt (by decide)]
  simp only [insertPageTable, bind_ok (readVirt_of_walk (walk_pdeAddr mapped fits)),
    if_neg notPresent, bind_ok alloc, frameFlags, flags, pteAddr_page fits, pageSize]
  have install : writeVirt { m with mem := mem } (pdeAddr vaddr) (frame + 7) = .ok installed := by
    rw [writeVirt, walk_pdeAddr mapped fits]
  rw [bind_ok install, bind_ok cleared, writeVirt_of_walk pteWalk]
  rfl

/-- `addr_v2p` agrees with the walk wherever the page is mapped. -/
theorem addrV2p_of_walk (mapped : SelfMapped m.tables m.cr3) (fits : vaddr < 2 ^ 32) {paddr : Nat}
    (translated : walk m.tables m.cr3 vaddr = some paddr) : addrV2p m vaddr = .ok paddr := by
  have offset : vaddr &&& 0x00000fff = pageOffset vaddr := Nat.and_two_pow_sub_one_eq_mod vaddr 12
  simp only [walk] at translated
  cases slotEq : pteSlot m.tables m.cr3 vaddr with
  | none => simp [slotEq] at translated
  | some slot =>
      simp only [slotEq, Option.bind_some] at translated
      split at translated
      · have read := readVirt_of_walk ((walk_pteAddr mapped fits).trans slotEq)
        have frameLt := frameOf_lt (m.tables slot)
        have frameAligned := frameOf_mod (m.tables slot)
        have small : frameOf (m.tables slot) + pageOffset vaddr < 2 ^ 32 := by
          simp only [pageOffset]
          omega
        cases translated
        rw [addrV2p, bind_ok read, and_frame_mask, offset, Nat.mod_eq_of_lt small]
        rfl
      · cases translated

end SelfMapped

/-! ## `insert_page_table` and the hardware walk -/

/-- A frame that is neither the directory nor a table it names. -/
structure FrameUnused (ram : Words) (cr3 frame : Nat) : Prop where
  aligned : frame % 4096 = 0
  fits : frame < 2 ^ 32
  notDirectory : frame ≠ frameOf cr3
  notTable : ∀ index, index < 1024 → Present (ram (frameOf cr3 + 4 * index)) →
    frameOf (ram (frameOf cr3 + 4 * index)) ≠ frame

/-- The walks after `insert_page_table`: every address of the page is translated
into the frame, and every address with another page-table slot as before. -/
structure InsertRefines (m m' : Machine) (vaddr paddr : Nat) : Prop where
  page : ∀ query, query / 4096 = vaddr / 4096 →
    walk m'.tables m'.cr3 query = some (paddr + query % 4096) ∧
      addrV2p m' query = .ok (paddr + query % 4096)
  others : ∀ query, query < 0xffc00000 →
    pteSlot m'.tables m'.cr3 query ≠ pteSlot m'.tables m'.cr3 vaddr →
    walk m'.tables m'.cr3 query = walk m.tables m.cr3 query

/-- Everything a call of `insert_page_table` that returns did. -/
theorem insertPageTable_ok {m m' : Machine} {vaddr paddr : Nat} (mapped : SelfMapped m.tables m.cr3)
    (below : vaddr < 0xffc00000) (aligned : paddr % 4096 = 0)
    (fresh : ¬Present (m.tables (pdeSlot m.cr3 vaddr)) → ∀ frame m1,
      allocPhysicalPages m .kernel = .ok (frame, m1) → FrameUnused m.tables m.cr3 frame)
    (run : insertPageTable m vaddr paddr = .ok m') :
    (∃ slot, pteSlot m.tables m.cr3 vaddr = some slot ∧
        m' = { m with tables := m.tables.write slot (paddr + 7) }) ∨
      (¬Present (m.tables (pdeSlot m.cr3 vaddr)) ∧ ∃ frame m1,
        allocPhysicalPages m .kernel = .ok (frame, m1) ∧
        m' = { m1 with tables := newTable m.tables m.cr3 vaddr frame paddr }) := by
  by_cases present : Present (m.tables (pdeSlot m.cr3 vaddr))
  · left
    refine ⟨_, pteSlot_of_present present, ?_⟩
    rw [insertPageTable_present mapped (by omega) (pteSlot_of_present present) aligned] at run
    exact (Except.ok.inj run).symm
  · right
    refine ⟨present, ?_⟩
    have notPresent : ¬(m.tables (pdeSlot m.cr3 vaddr) &&& 1 ≠ 0) := fun set =>
      present (present_iff.mpr set)
    have walkPde := walk_pdeAddr mapped (show vaddr < 2 ^ 32 by omega)
    have run' := run
    simp only [insertPageTable, bind_ok (readVirt_of_walk walkPde), if_neg notPresent,
      bind_eq_ok] at run'
    obtain ⟨⟨frame, m1⟩, alloc, -⟩ := run'
    have unused := fresh present frame m1 alloc
    obtain ⟨index, -, -, -, -, rfl⟩ := allocPhysicalPages_ok alloc
    refine ⟨frame, _, alloc, ?_⟩
    rw [insertPageTable_absent mapped below present alloc unused.aligned unused.fits
      unused.notDirectory aligned] at run
    exact (Except.ok.inj run).symm

/-- `insert_page_table` returns when the table exists or a frame is left for one. -/
theorem insertPageTable_returns {m : Machine} {vaddr paddr : Nat}
    (mapped : SelfMapped m.tables m.cr3) (below : vaddr < 0xffc00000) (aligned : paddr % 4096 = 0)
    (fresh : ¬Present (m.tables (pdeSlot m.cr3 vaddr)) → ∀ frame m1,
      allocPhysicalPages m .kernel = .ok (frame, m1) → FrameUnused m.tables m.cr3 frame)
    (available : Present (m.tables (pdeSlot m.cr3 vaddr)) ∨
      ∃ frame m1, allocPhysicalPages m .kernel = .ok (frame, m1)) :
    ∃ m', insertPageTable m vaddr paddr = .ok m' := by
  by_cases present : Present (m.tables (pdeSlot m.cr3 vaddr))
  · exact ⟨_, insertPageTable_present mapped (by omega) (pteSlot_of_present present) aligned⟩
  · obtain ⟨frame, m1, alloc⟩ := available.resolve_left present
    have unused := fresh present frame m1 alloc
    obtain ⟨index, -, -, -, -, rfl⟩ := allocPhysicalPages_ok alloc
    exact ⟨_, insertPageTable_absent mapped below present alloc unused.aligned unused.fits
      unused.notDirectory aligned⟩

/-- The walks alone decide, since `addr_v2p` agrees with them. -/
theorem InsertRefines.of_walks {m m' : Machine} {vaddr paddr : Nat} (below : vaddr < 0xffc00000)
    (self : SelfMapped m'.tables m'.cr3)
    (page : ∀ query, query / 4096 = vaddr / 4096 →
      walk m'.tables m'.cr3 query = some (paddr + query % 4096))
    (others : ∀ query, query < 0xffc00000 →
      pteSlot m'.tables m'.cr3 query ≠ pteSlot m'.tables m'.cr3 vaddr →
      walk m'.tables m'.cr3 query = walk m.tables m.cr3 query) :
    InsertRefines m m' vaddr paddr where
  page query samePage :=
    ⟨page query samePage, addrV2p_of_walk self (by omega) (page query samePage)⟩
  others := others

section Refines

variable {m : Machine} {vaddr paddr : Nat}

/-- The entry stored in a table that exists. -/
theorem insertRefines_present (mapped : SelfMapped m.tables m.cr3) (below : vaddr < 0xffc00000)
    (aligned : paddr % 4096 = 0) (fits : paddr < 2 ^ 32) {slot : Nat}
    (slotEq : pteSlot m.tables m.cr3 vaddr = some slot)
    (table : frameOf (m.tables (pdeSlot m.cr3 vaddr)) ≠ frameOf m.cr3) :
    InsertRefines m { m with tables := m.tables.write slot (paddr + 7) } vaddr paddr := by
  have entryPresent : Present (paddr + 7) := by rw [Present]; omega
  have entryFrame : frameOf (paddr + 7) = paddr := frameOf_add aligned fits (by decide)
  have walks := @walk_write_slot m.tables m.cr3 vaddr slot (paddr + 7) slotEq table entryPresent
  apply InsertRefines.of_walks below
  · have dirAligned := frameOf_mod m.cr3
    have tableAligned := frameOf_mod (m.tables (pdeSlot m.cr3 vaddr))
    have tableLt := tableIndex_lt vaddr
    have different : frameOf m.cr3 + 4 * 1023 ≠ slot := by
      simp only [pteSlot] at slotEq
      split at slotEq
      · cases slotEq
        omega
      · cases slotEq
    simp only [SelfMapped, Words.write_of_ne _ _ different]
    exact mapped
  · intro query samePage
    rw [(@walks query (by omega)).2, pteSlot_of_page m.tables m.cr3 samePage, if_pos slotEq,
      entryFrame]
    rfl
  · intro query queryLt otherSlot
    rw [(@walks query (by omega)).1, (@walks vaddr (by omega)).1, slotEq] at otherSlot
    rw [(@walks query (by omega)).2, if_neg otherSlot]

/-- The new table, cleared but for one entry. -/
theorem insertRefines_absent (mapped : SelfMapped m.tables m.cr3) (below : vaddr < 0xffc00000)
    (aligned : paddr % 4096 = 0) (fits : paddr < 2 ^ 32)
    (absent : ¬Present (m.tables (pdeSlot m.cr3 vaddr)))
    {frame : Nat} (unused : FrameUnused m.tables m.cr3 frame)
    (noAlias : ∀ index, index < 1023 → Present (m.tables (frameOf m.cr3 + 4 * index)) →
      frameOf (m.tables (frameOf m.cr3 + 4 * index)) ≠ frameOf m.cr3) (mem : Bytes) :
    InsertRefines m { m with mem := mem, tables := newTable m.tables m.cr3 vaddr frame paddr }
      vaddr paddr := by
  have entryPresent : Present (paddr + 7) := by rw [Present]; omega
  have entryFrame : frameOf (paddr + 7) = paddr := frameOf_add aligned fits (by decide)
  have walks : ∀ query, query < 0xffc00000 →
      walk (newTable m.tables m.cr3 vaddr frame paddr) m.cr3 query =
        if query / 2 ^ 12 = vaddr / 2 ^ 12 then some (frameOf (paddr + 7) + pageOffset query)
        else walk m.tables m.cr3 query := by
    intro query queryLt
    refine walk_new_table absent (by omega) unused.aligned unused.fits (by decide) (by decide)
      unused.notDirectory unused.notTable entryPresent (by omega) ?_
    exact noAlias (dirIndex query) (by simp only [dirIndex]; omega)
  apply InsertRefines.of_walks below
  · have dirAligned := frameOf_mod m.cr3
    have tableLt := tableIndex_lt vaddr
    have dirNe : dirIndex vaddr ≠ 1023 := by simp only [dirIndex]; omega
    have frameAligned := unused.aligned
    have notDirectory := unused.notDirectory
    have kept : newTable m.tables m.cr3 vaddr frame paddr (frameOf m.cr3 + 4 * 1023) =
        m.tables (frameOf m.cr3 + 4 * 1023) := by
      rw [newTable, Words.write_of_ne _ _ (by omega), Words.clearFrame_outside _ (by omega),
        Words.write_of_ne _ _ (by simp only [pdeSlot]; omega)]
    simp only [SelfMapped, kept]
    exact mapped
  · intro query samePage
    have samePage : query / 2 ^ 12 = vaddr / 2 ^ 12 := samePage
    rw [walks query (by omega), if_pos samePage, entryFrame]
    rfl
  · intro query queryLt otherSlot
    rw [walks query queryLt, if_neg]
    exact fun samePage => otherSlot (pteSlot_of_page _ _ samePage)

/-- `insert_page_table` refines the page walk, as long as the directory does not
serve as one of the page tables involved: the page's own, when that exists, and
any below the window when a new one is installed. -/
theorem insertPageTable_refines (mapped : SelfMapped m.tables m.cr3) (below : vaddr < 0xffc00000)
    (aligned : paddr % 4096 = 0) (fits : paddr < 2 ^ 32)
    (fresh : ¬Present (m.tables (pdeSlot m.cr3 vaddr)) → ∀ frame m1,
      allocPhysicalPages m .kernel = .ok (frame, m1) → FrameUnused m.tables m.cr3 frame)
    (ownTable : Present (m.tables (pdeSlot m.cr3 vaddr)) →
      frameOf (m.tables (pdeSlot m.cr3 vaddr)) ≠ frameOf m.cr3)
    (noAlias : ¬Present (m.tables (pdeSlot m.cr3 vaddr)) → ∀ index, index < 1023 →
      Present (m.tables (frameOf m.cr3 + 4 * index)) →
      frameOf (m.tables (frameOf m.cr3 + 4 * index)) ≠ frameOf m.cr3) :
    (∀ m', insertPageTable m vaddr paddr = .ok m' → InsertRefines m m' vaddr paddr) ∧
      (Present (m.tables (pdeSlot m.cr3 vaddr)) ∨
        (∃ frame m1, allocPhysicalPages m .kernel = .ok (frame, m1)) →
        ∃ m', insertPageTable m vaddr paddr = .ok m') := by
  refine ⟨?_, insertPageTable_returns mapped below aligned fresh⟩
  intro m' run
  rcases insertPageTable_ok mapped below aligned fresh run with
    ⟨slot, slotEq, rfl⟩ | ⟨absent, frame, m1, alloc, rfl⟩
  · have present : Present (m.tables (pdeSlot m.cr3 vaddr)) := by
      by_contra absent
      simp [pteSlot, absent] at slotEq
    exact insertRefines_present mapped below aligned fits slotEq (ownTable present)
  · have unused := fresh absent frame m1 alloc
    obtain ⟨_, -, -, -, -, rfl⟩ := allocPhysicalPages_ok alloc
    exact insertRefines_absent mapped below aligned fits absent unused (noAlias absent) _

end Refines

/-- 32 MB of memory and a directory at 1 MB that maps itself through entry 1023
and nothing else. -/
def bareDirectory : Machine :=
  { memPoolInit Machine.blank 0x2000000 with
    tables := Words.write (fun _ => 0) (0x100000 + 4 * 1023) 0x100007 }

@[simp] theorem bareDirectory_tables :
    bareDirectory.tables = Words.write (fun _ => 0) (0x100000 + 4 * 1023) 0x100007 := rfl

/-- The pools of 32 MB start at 2 MB. -/
theorem alloc_blank (m : Machine) {m1 : Machine} {frame : Nat}
    (pool : m.pool = (memPoolInit Machine.blank 0x2000000).pool)
    (vaddr : m.kernelVaddr = (memPoolInit Machine.blank 0x2000000).kernelVaddr)
    (alloc : allocPhysicalPages m .kernel = .ok (frame, m1)) :
    frame % 4096 = 0 ∧ frame < 2 ^ 32 ∧ 0x200000 ≤ frame := by
  have laid := (memPoolInit_laid Machine.blank (by decide : 0x200000 ≤ 0x2000000)
    (by decide)).congr (.of_eq pool vaddr)
  obtain ⟨index, inside, -, -, rfl, -⟩ := allocPhysicalPages_ok alloc
  obtain ⟨addr, aligned, -, -, lower, upper⟩ := laid.frameAddr_spec inside
  rw [addr]
  exact ⟨aligned, upper, lower⟩

theorem bareDirectory_entry {index : Nat} (indexLt : index < 1023) :
    ¬Present (bareDirectory.tables (0x100000 + 4 * index)) := by
  rw [bareDirectory_tables, Words.write_of_ne _ _ (by omega)]
  decide

/-- A page at 20 MB, below a directory entry that is absent. -/
theorem insertPageTable_refines_bareDirectory :
    ∃ m', insertPageTable bareDirectory 0x1400000 0x300000 = .ok m' ∧
      InsertRefines bareDirectory m' 0x1400000 0x300000 := by
  have dir : frameOf bareDirectory.cr3 = 0x100000 := by decide
  have self : bareDirectory.tables (0x100000 + 4 * 1023) = 0x100007 := by
    rw [bareDirectory_tables, Words.write_self]
  have mapped : SelfMapped bareDirectory.tables bareDirectory.cr3 := by
    rw [SelfMapped, dir, self]
    decide
  have absent : ¬Present (bareDirectory.tables (pdeSlot bareDirectory.cr3 0x1400000)) := by
    rw [pdeSlot, dir]
    exact bareDirectory_entry (by decide)
  have inside : 0 < bareDirectory.frameCount .kernel := by decide
  have sameBits : bareDirectory.frameBit .kernel 0 =
      (memPoolInit Machine.blank 0x2000000).frameBit .kernel 0 := Machine.frameBit_congr rfl rfl
  have clear := sameBits.trans (memPoolInit_frameBit Machine.blank inside)
  obtain ⟨frame, m1, alloc⟩ := allocPhysicalPages_of_clear inside clear
  have fresh : ∀ frame m1, allocPhysicalPages bareDirectory .kernel = .ok (frame, m1) →
      FrameUnused bareDirectory.tables bareDirectory.cr3 frame := by
    intro frame m1 alloc
    obtain ⟨aligned, fits, lower⟩ := alloc_blank bareDirectory rfl rfl alloc
    refine ⟨aligned, fits, by rw [dir]; omega, ?_⟩
    intro index indexLt present
    rw [dir] at present ⊢
    rcases Nat.lt_or_ge index 1023 with below | last
    · exact absurd present (bareDirectory_entry below)
    · obtain rfl : index = 1023 := by omega
      rw [self, show frameOf 0x100007 = 0x100000 by decide]
      omega
  have noAlias : ∀ index, index < 1023 →
      Present (bareDirectory.tables (frameOf bareDirectory.cr3 + 4 * index)) →
      frameOf (bareDirectory.tables (frameOf bareDirectory.cr3 + 4 * index)) ≠
        frameOf bareDirectory.cr3 := by
    intro index indexLt present
    rw [dir] at present
    exact absurd present (bareDirectory_entry indexLt)
  have refines := insertPageTable_refines mapped (by decide : 0x1400000 < 0xffc00000)
    (by decide : 0x300000 % 4096 = 0) (by decide) (fun _ => fresh)
    (fun present => absurd present absent) (fun _ => noAlias)
  obtain ⟨m', run⟩ := refines.2 (.inr ⟨frame, m1, alloc⟩)
  exact ⟨m', run, refines.1 m' run⟩

/-- The same memory with a directory whose entry 5 names the directory, too. -/
def aliasedDirectory : Machine :=
  { memPoolInit Machine.blank 0x2000000 with
    tables := fun query =>
      if query = 0x100ffc then 0x100007
      else if query = 0x100014 then 0x100007
      else if query = 0x300000 then 0x400007
      else 0 }

/-- There a page below entry 5 has its slot in the directory: mapping page 7 of
them to a frame installs that frame as table 7, and changes what 28 MB maps to. -/
theorem insertPageTable_not_refines :
    SelfMapped aliasedDirectory.tables aliasedDirectory.cr3 ∧
      (∀ frame m1, allocPhysicalPages aliasedDirectory .kernel = .ok (frame, m1) →
        FrameUnused aliasedDirectory.tables aliasedDirectory.cr3 frame) ∧
      ∃ m', insertPageTable aliasedDirectory 0x1407000 0x300000 = .ok m' ∧
        ¬InsertRefines aliasedDirectory m' 0x1407000 0x300000 := by
  refine ⟨by decide, ?_, ?_⟩
  · intro frame m1 alloc
    obtain ⟨aligned, fits, lower⟩ := alloc_blank aliasedDirectory rfl rfl alloc
    refine ⟨aligned, fits, ?_, ?_⟩
    · rw [show frameOf aliasedDirectory.cr3 = 0x100000 by decide]
      omega
    · intro index indexLt present
      rw [show frameOf aliasedDirectory.cr3 = 0x100000 by decide] at present ⊢
      simp only [aliasedDirectory] at present ⊢
      split at present
      · next last => rw [if_pos last]; simp only [frameOf]; omega
      · next notLast =>
          split at present
          · next fifth => rw [if_neg notLast, if_pos fifth]; simp only [frameOf]; omega
          · rw [if_neg (by omega)] at present
            exact absurd present (by decide)
  · have run := @insertPageTable_present aliasedDirectory 0x1407000 (by decide) (by decide)
      0x10001c (by decide) 0x300000 (by decide)
    refine ⟨_, run, fun refines => ?_⟩
    have before : walk aliasedDirectory.tables aliasedDirectory.cr3 0x1c00000 = none := by decide
    have after : walk (aliasedDirectory.tables.write 0x10001c 0x300007) aliasedDirectory.cr3
        0x1c00000 = some 0x400000 := by decide
    have same := refines.others 0x1c00000 (by decide) (by decide)
    rw [before] at same
    exact absurd (after.symm.trans same) (by decide)

end Pumelo
