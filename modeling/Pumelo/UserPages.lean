import Pumelo.BitmapScan
import Pumelo.Foundation.System
import Pumelo.Pages

/-!
# Virtual pages of a process

`create_user_vaddr_bitmap` and the pages a process gets from `malloc_pages` and
`get_a_page`.  Nothing checks where a run of pages ends: that no run reaches the
stack page rests on the last bit of the process's bitmap, which `get_a_page` sets
for that page and which no call clears.
-/

namespace Pumelo

open Foundation PageWalk

/-- `(0xc0000000 - USER_VADDR_START) / PAGE_SIZE / 8` -/
def userBitmapLen : Nat := (0xc0000000 - userVaddrStart) / pageSize / 8

theorem userBitmapLen_eq : userBitmapLen = 94199 := by decide

/-- `create_user_vaddr_bitmap` -/
def createUserVaddrBitmap (m : Machine) (userProg : Nat) : Except Fault Machine := do
  let m := m.store32 (userProg + 136) userVaddrStart
  let bitmapPgCnt := divRoundUp userBitmapLen pageSize
  let (bits, m) ← getKernelPages m bitmapPgCnt
  let m := m.store32 (userProg + 132) bits
  let m := m.store32 (userProg + 128) userBitmapLen
  return { m with mem := bitmapInit m.mem (userprogVaddr m.mem userProg).vaddrBitmap }

/-- The bytes a process's virtual pages are kept in: `userprog_vaddr` in its
thread structure, and its bitmap. -/
def ProcessByte (thread bits query : Nat) : Prop :=
  thread + 128 ≤ query ∧ query < thread + 140 ∨ bits ≤ query ∧ query < bits + userBitmapLen

/-- A process as `create_user_vaddr_bitmap` leaves it: its bitmap and its thread
structure lie in the kernel's heap, apart from each other. -/
structure Prepared (thread bits : Nat) (m : Machine) : Prop where
  laid : ∃ kernelPages userPages, Laid m kernelPages userPages
  vaddr : userprogVaddr m.mem thread = ⟨⟨userBitmapLen, bits⟩, userVaddrStart⟩
  threadLower : kernelHeapStart ≤ thread
  bitsLower : kernelHeapStart ≤ bits
  apart : thread + 4096 ≤ bits ∨ bits + userBitmapLen ≤ thread

/-- What the rest of the kernel may do meanwhile: anything but touch these bytes or
move the pools. -/
structure Elsewhere (thread bits : Nat) (m m' : Machine) : Prop where
  layout : SameLayout m m'
  mem : ∀ query, ProcessByte thread bits query → m'.mem query = m.mem query

/-- The process's bitmap. -/
def processBitmap (bits : Nat) : Bitmap := ⟨userBitmapLen, bits⟩

/-- The last page below the kernel, the stack page, has the last bit. -/
def stackBit : Nat := (userStack3Vaddr - userVaddrStart) / pageSize

theorem stackBit_eq : stackBit = 753591 := by decide

/-- The machine while a process runs, with the runs of pages it has. -/
structure ProcessState where
  machine : Machine
  live : List (Nat × Nat)

namespace ProcessState

/-- The calls of the process, each with its result, and what happens between them. -/
inductive Step (thread bits : Nat) : ProcessState → ProcessState → Prop where
  | malloc {s : ProcessState} {pgCnt vaddr : Nat} {m : Machine} : 1 ≤ pgCnt → pgCnt < 2 ^ 32 →
      mallocPages s.machine .user pgCnt = .ok (vaddr, m) →
      Step thread bits s ⟨m, if vaddr = 0 then s.live else (vaddr, pgCnt) :: s.live⟩
  | free {s : ProcessState} {vaddr pgCnt : Nat} {m : Machine} : (vaddr, pgCnt) ∈ s.live →
      freePages s.machine .user vaddr pgCnt = .ok m →
      Step thread bits s ⟨m, s.live.erase (vaddr, pgCnt)⟩
  | elsewhere {s : ProcessState} {m : Machine} : Elsewhere thread bits s.machine m →
      m.running = thread → Step thread bits s ⟨m, s.live⟩

/-- After `process_start` has got the stack page. -/
def Started (thread bits : Nat) (s : ProcessState) : Prop :=
  s.live = [] ∧ ∃ m vaddr, Prepared thread bits m ∧ m.running = thread ∧
    getAPage m .user userStack3Vaddr = .ok (vaddr, s.machine)

/-- Two runs of pages share none. -/
def Disjoint (run other : Nat × Nat) : Prop :=
  run.1 + 4096 * run.2 ≤ other.1 ∨ other.1 + 4096 * other.2 ≤ run.1

/-- What the process may rely on. -/
structure Sound (thread bits : Nat) (s : ProcessState) : Prop where
  within : ∀ run ∈ s.live, userVaddrStart ≤ run.1 ∧ run.1 + 4096 * run.2 ≤ userStack3Vaddr
  disjoint : s.live.Pairwise Disjoint
  inside : ∀ pgCnt vaddr m, 1 ≤ pgCnt → pgCnt < 2 ^ 32 →
    mallocPages s.machine .user pgCnt = .ok (vaddr, m) →
    (∀ idx ∈ scanReads s.machine.mem (processBitmap bits) pgCnt 0, idx < userBitmapLen) ∧
      ∃ first, bitmapScan s.machine.mem (processBitmap bits) pgCnt = .ok (some first) ∧
        first + pgCnt ≤ 8 * userBitmapLen
  asserted : ∀ pgCnt, 1 ≤ pgCnt → pgCnt < 2 ^ 32 →
    mallocPages s.machine .user pgCnt ≠ .error (.panic
      ("assertion failed: " ++ "(uint32_t)vaddr_start < (0xc0000000 - PAGE_SIZE)"))

end ProcessState

/-- A process that maps and unmaps pages. -/
def processSystem (thread bits : Nat) : System ProcessState where
  init := ProcessState.Started thread bits
  step := ProcessState.Step thread bits

/-- Nothing in the kernel's heap changed. -/
structure OnlyBelow (m m' : Machine) : Prop where
  same : m' = { m with mem := m'.mem, tables := m'.tables }
  mem : ∀ query, kernelHeapStart ≤ query → m'.mem query = m.mem query

namespace OnlyBelow

variable {m m' m'' : Machine} {kernelPages userPages : Nat}

theorem refl (m : Machine) : OnlyBelow m m := ⟨rfl, fun _ _ => rfl⟩

theorem trans (first : OnlyBelow m m') (second : OnlyBelow m' m'') : OnlyBelow m m'' := by
  constructor
  · rw [second.same, first.same]
  · intro query above
    exact (second.mem query above).trans (first.mem query above)

theorem layout (only : OnlyBelow m m') : SameLayout m m' := by
  rw [only.same]
  exact .of_eq rfl rfl

theorem running (only : OnlyBelow m m') : m'.running = m.running := by rw [only.same]

/-- The bitmaps of the pools lie below the heap. -/
theorem of_mapsOnly (laid : Laid m kernelPages userPages) (only : MapsOnly m m') :
    OnlyBelow m m' := by
  refine ⟨only.same, fun query above => only.mem query fun byte => ?_⟩
  have kernelLe := laid.kernelPages_le
  have userLe := laid.userPages_le
  have bounds := laid.poolByte_bounds byte
  rw [laid.vaddr] at bounds
  simp only [kernelHeapStart] at above bounds
  omega

end OnlyBelow

/-- Freeing a frame, whatever its address, writes below the heap. -/
theorem freePhysicalPages_onlyBelow {m m' : Machine} {kernelPages userPages pgPhyAddr : Nat}
    (laid : Laid m kernelPages userPages) (run : freePhysicalPages m pgPhyAddr = .ok m') :
    OnlyBelow m m' := by
  have kernelLe := laid.kernelPages_le
  have low : ∀ pf, (m.pool pf).poolBitmap.bitmapBits < 0xc009b000 := by
    intro pf
    cases pf with
    | kernel => rw [laid.kernelBitmap]; dsimp only; omega
    | user => rw [laid.userBitmap]; dsimp only; omega
  simp only [freePhysicalPages, bitmapSet_zero, bind_eq_ok, Except.ok.injEq, exists_eq_left',
    pure_eq_ok] at run
  subst run
  refine ⟨rfl, fun query above => Bytes.setBit_of_ne _ _ ?_⟩
  have lowPool := low (if pgPhyAddr ≥ (m.pool .user).paddrStart then .user else .kernel)
  simp only [kernelHeapStart, pageSize] at above ⊢
  omega

theorem freeRun_onlyBelow {m m' : Machine} {kernelPages userPages vaddr pgCnt : Nat}
    {memPool : PoolFlags} (laid : Laid m kernelPages userPages)
    (run : freeRun m memPool vaddr pgCnt = .ok m') : OnlyBelow m m' := by
  induction pgCnt generalizing m vaddr with
  | zero =>
      cases run
      exact .refl _
  | succ pgCnt ih =>
      obtain ⟨pgPhyAddr, m1, m2, -, freed, removed, rest⟩ := freeRun_succ_ok run
      have first := freePhysicalPages_onlyBelow laid freed
      have second : OnlyBelow m1 m2 := by
        rw [removePageTable, bind_eq_ok] at removed
        obtain ⟨pte, -, written⟩ := removed
        obtain ⟨slot, -, rfl⟩ := writeVirt_ok written
        exact ⟨rfl, fun _ _ => rfl⟩
      exact (first.trans second).trans (ih (laid.congr (first.trans second).layout) rest)

/-- The process's bitmap with a run of pages set or cleared. -/
def markRun (mem : Bytes) (bits first : Nat) (value : Bool) (pgCnt : Nat) : Bytes :=
  mem.setBits (fun idx => 8 * bits + (first + idx) % 2 ^ 32) value pgCnt

theorem bit_markRun (mem : Bytes) (bits : Nat) {first pgCnt : Nat} (value : Bool)
    (small : first + pgCnt ≤ 2 ^ 32) (query : Nat) :
    (processBitmap bits).bit (markRun mem bits first value pgCnt) query =
      if first ≤ query ∧ query < first + pgCnt then value
      else (processBitmap bits).bit mem query := by
  split
  · next within =>
      have target : 8 * (processBitmap bits).bitmapBits + query =
          (fun idx => 8 * bits + (first + idx) % 2 ^ 32) (query - first) := by
        simp only [processBitmap]
        omega
      rw [Bitmap.bit, target]
      exact Bytes.bit_setBits_target _ _ _ (by omega)
  · next without =>
      refine Bytes.bit_setBits_of_ne _ _ fun idx idxLt => ?_
      simp only [processBitmap]
      omega

namespace Prepared

variable {thread bits kernelPages userPages : Nat} {m m' : Machine}

theorem congr (prepared : Prepared thread bits m) (layout : SameLayout m m')
    (mem : ∀ query, thread + 128 ≤ query → query < thread + 140 → m'.mem query = m.mem query) :
    Prepared thread bits m' where
  laid := by
    obtain ⟨kernelPages, userPages, laid⟩ := prepared.laid
    exact ⟨kernelPages, userPages, laid.congr layout⟩
  vaddr := by
    rw [← prepared.vaddr]
    have word : ∀ addr, thread + 128 ≤ addr → addr + 4 ≤ thread + 140 →
        m'.mem.read32 addr = m.mem.read32 addr := fun addr lower upper =>
      Bytes.read32_congr fun query above below => mem query (by omega) (by omega)
    simp only [userprogVaddr]
    rw [word _ (by omega) (by omega), word _ (by omega) (by omega),
      word _ (by omega) (by omega)]
  threadLower := prepared.threadLower
  bitsLower := prepared.bitsLower
  apart := prepared.apart

theorem bitmap_eq (prepared : Prepared thread bits m) :
    (userprogVaddr m.mem thread).vaddrBitmap = processBitmap bits := by
  rw [prepared.vaddr]
  rfl

/-- Bits of the process's bitmap are not those of its thread structure. -/
theorem markRun_thread (prepared : Prepared thread bits m) {first pgCnt : Nat} (value : Bool)
    (within : first + pgCnt ≤ stackBit) (mem : Bytes) {query : Nat}
    (lower : thread + 128 ≤ query) (upper : query < thread + 140) :
    markRun mem bits first value pgCnt query = mem query := by
  refine Bytes.setBits_of_ne _ _ fun idx idxLt => ?_
  have apart := prepared.apart
  rw [userBitmapLen_eq] at apart
  rw [stackBit_eq] at within
  omega

theorem onlyBelow_bit (prepared : Prepared thread bits m) (only : OnlyBelow m m') (idx : Nat) :
    (processBitmap bits).bit m'.mem idx = (processBitmap bits).bit m.mem idx := by
  have lower := prepared.bitsLower
  refine Bytes.bit_congr (only.mem _ ?_)
  simp only [processBitmap, kernelHeapStart] at lower ⊢
  omega

theorem onlyBelow (prepared : Prepared thread bits m) (only : OnlyBelow m m') :
    Prepared thread bits m' := by
  have lower := prepared.threadLower
  refine prepared.congr only.layout fun query above _ => only.mem query ?_
  omega

end Prepared

/-- Mapping pages stops the machine in two ways: a scan runs off its bitmap, or
the page tables are not mapped. -/
def MappingFault (fault : Fault) : Prop :=
  fault = .panic "assertion failed: idx_byte < btmp->bitmap_len" ∨ ∃ vaddr, fault = .pageFault vaddr

/-- A scan that does not return runs off its bitmap. -/
theorem bitmapScan_panic {mem : Bytes} {btmp : Bitmap} {cnt : Nat} {fault : Fault}
    (run : bitmapScan mem btmp cnt = .error fault) :
    fault = .panic "assertion failed: idx_byte < btmp->bitmap_len" := by
  rw [bitmapScan] at run
  generalize 0 = start at run
  fun_induction bitmapScanFrom mem btmp cnt start with
  | case1 | case2 | case3 => cases run
  | case4 start idxByte inside notEnd idxBit found notOne count nextBit notCounted ih =>
      exact ih run
  | case5 start idxByte outside =>
      cases run
      rfl

theorem bitmapScan_error {mem : Bytes} {btmp : Bitmap} {cnt : Nat} {fault : Fault}
    (run : bitmapScan mem btmp cnt = .error fault) : MappingFault fault :=
  .inl (bitmapScan_panic run)

theorem readVirt_error {m : Machine} {vaddr : Nat} {fault : Fault}
    (run : readVirt m vaddr = .error fault) : MappingFault fault := by
  rw [readVirt] at run
  split at run
  · cases run
  · cases run
    exact .inr ⟨vaddr, rfl⟩

theorem writeVirt_error {m : Machine} {vaddr word : Nat} {fault : Fault}
    (run : writeVirt m vaddr word = .error fault) : MappingFault fault := by
  rw [writeVirt] at run
  split at run
  · cases run
  · cases run
    exact .inr ⟨vaddr, rfl⟩

theorem clearVirt_error {m : Machine} {vaddr count : Nat} {fault : Fault}
    (run : clearVirt m vaddr count = .error fault) : MappingFault fault := by
  induction count with
  | zero => cases run
  | succ count ih =>
      rcases bind_eq_error.mp run with first | ⟨m1, -, last⟩
      · exact ih first
      · exact writeVirt_error last

theorem allocPhysicalPages_panic {m : Machine} {pf : PoolFlags} {fault : Fault}
    (run : allocPhysicalPages m pf = .error fault) :
    fault = .panic "assertion failed: idx_byte < btmp->bitmap_len" := by
  rcases bind_eq_error.mp run with scan | ⟨result, -, run⟩
  · exact bitmapScan_panic scan
  · cases result with
    | none => cases run
    | some index =>
        simp only [bitmapSet_one] at run
        cases run

theorem allocPhysicalPages_error {m : Machine} {pf : PoolFlags} {fault : Fault}
    (run : allocPhysicalPages m pf = .error fault) : MappingFault fault :=
  .inl (allocPhysicalPages_panic run)

theorem insertPageTable_error {m : Machine} {vaddr paddr : Nat} {fault : Fault}
    (run : insertPageTable m vaddr paddr = .error fault) : MappingFault fault := by
  rcases bind_eq_error.mp run with read | ⟨pde, -, run⟩
  · exact readVirt_error read
  · split at run
    · rcases bind_eq_error.mp run with read | ⟨pte, -, run⟩
      · exact readVirt_error read
      · split at run <;> exact writeVirt_error run
    · rcases bind_eq_error.mp run with alloc | ⟨⟨frame, m1⟩, -, run⟩
      · exact allocPhysicalPages_error alloc
      rcases bind_eq_error.mp run with install | ⟨m2, -, run⟩
      · exact writeVirt_error install
      rcases bind_eq_error.mp run with clear | ⟨m3, -, run⟩
      · exact clearVirt_error clear
      · exact writeVirt_error run

theorem mapPages_error {m : Machine} {memPool : PoolFlags} {vaddr cnt : Nat} {fault : Fault}
    (run : mapPages m memPool vaddr cnt = .error fault) : MappingFault fault := by
  induction cnt generalizing m vaddr with
  | zero => cases run
  | succ cnt ih =>
      rcases bind_eq_error.mp run with alloc | ⟨⟨paddr, m1⟩, -, run⟩
      · exact allocPhysicalPages_error alloc
      dsimp only at run
      split at run
      · cases run
      · rcases bind_eq_error.mp run with insert | ⟨m2, -, rest⟩
        · exact insertPageTable_error insert
        · exact ih rest

/-! ## The invariant -/

namespace ProcessState

variable {thread bits : Nat} {s next : ProcessState}

/-- The stack page and the live runs are marked, and the runs share no page. -/
structure Inv (thread bits : Nat) (s : ProcessState) : Prop where
  running : s.machine.running = thread
  prepared : Prepared thread bits s.machine
  stack : (processBitmap bits).bit s.machine.mem stackBit = true
  marked : ∀ run ∈ s.live, ∃ first, run.1 = userVaddrStart + 4096 * first ∧
    1 ≤ run.2 ∧ first + run.2 ≤ stackBit ∧
    ∀ page, first ≤ page → page < first + run.2 →
      (processBitmap bits).bit s.machine.mem page = true
  disjoint : s.live.Pairwise Disjoint

namespace Inv

/-- What a scan of the process's bitmap finds: clear bits, all of them below the
stack page. -/
theorem scan_ok (inv : Inv thread bits s) {pgCnt : Nat} {result : Option Nat}
    (positive : 1 ≤ pgCnt) (pgCntLt : pgCnt < 2 ^ 32)
    (scan : bitmapScan s.machine.mem (processBitmap bits) pgCnt = .ok result) :
    ∃ first, result = some first ∧ first + pgCnt ≤ stackBit ∧
      ∀ page, first ≤ page → page < first + pgCnt →
        (processBitmap bits).bit s.machine.mem page = false := by
  have len : (processBitmap bits).bitmapLen = 94199 := userBitmapLen_eq
  have small : 8 * (processBitmap bits).bitmapLen ≤ 2 ^ 32 := by
    rw [len]
    decide
  obtain ⟨first, rfl, inside, clear⟩ := bitmapScan_ok positive pgCntLt small scan
  have last := stackBit_eq
  rw [len] at inside
  have fits : first + pgCnt ≤ stackBit := by
    by_contra past
    have found := clear (stackBit - first) (by omega)
    rw [Nat.add_sub_cancel' (by omega), Nat.mod_eq_of_lt (by omega), inv.stack] at found
    cases found
  refine ⟨first, rfl, fits, fun page lower upper => ?_⟩
  have found := clear (page - first) (by omega)
  rwa [Nat.add_sub_cancel' lower, Nat.mod_eq_of_lt (by omega)] at found

/-- What `get_virtual_pages` does for the process, when its scan ends. The
assertion on the start of the run holds. -/
theorem getVirtualPages_eq (inv : Inv thread bits s) {pgCnt first : Nat}
    (scan : bitmapScan s.machine.mem (processBitmap bits) pgCnt = .ok (some first))
    (fits : first + pgCnt ≤ stackBit) (positive : 1 ≤ pgCnt) :
    getVirtualPages s.machine .user pgCnt = .ok (userVaddrStart + 4096 * first,
      { s.machine with mem := markRun s.machine.mem bits first true pgCnt }) := by
  have last := stackBit_eq
  have start : (userVaddrStart + first * pageSize) % 2 ^ 32 = userVaddrStart + 4096 * first := by
    simp only [userVaddrStart, pageSize]
    omega
  have below : userVaddrStart + 4096 * first < 0xc0000000 - pageSize := by
    simp only [userVaddrStart, pageSize]
    omega
  have vaddr := inv.prepared.vaddr
  have bitmap := inv.prepared.bitmap_eq
  simp only [getVirtualPages, Machine.runningThread, inv.running, bitmap]
  rw [bind_ok scan]
  simp only [setRun_one, vaddr, start]
  rw [bind_ok rfl, bind_ok (assert_of below _)]
  rfl

/-- `get_virtual_pages` for the process, taken apart. -/
theorem getVirtualPages_ok (inv : Inv thread bits s) {pgCnt vaddr : Nat} {m1 : Machine}
    (positive : 1 ≤ pgCnt) (pgCntLt : pgCnt < 2 ^ 32)
    (run : getVirtualPages s.machine .user pgCnt = .ok (vaddr, m1)) :
    ∃ first, bitmapScan s.machine.mem (processBitmap bits) pgCnt = .ok (some first) ∧
      first + pgCnt ≤ stackBit ∧ vaddr = userVaddrStart + 4096 * first ∧
      (∀ page, first ≤ page → page < first + pgCnt →
        (processBitmap bits).bit s.machine.mem page = false) ∧
      m1 = { s.machine with mem := markRun s.machine.mem bits first true pgCnt } := by
  have scanned : ∃ result, bitmapScan s.machine.mem (processBitmap bits) pgCnt = .ok result := by
    simp only [getVirtualPages, Machine.runningThread, inv.running, inv.prepared.bitmap_eq,
      bind_eq_ok] at run
    obtain ⟨result, scan, -⟩ := run
    exact ⟨result, scan⟩
  obtain ⟨result, scan⟩ := scanned
  obtain ⟨first, rfl, fits, clear⟩ := inv.scan_ok positive pgCntLt scan
  rw [inv.getVirtualPages_eq scan fits positive, Except.ok.injEq, Prod.mk.injEq] at run
  exact ⟨first, scan, fits, run.1.symm, clear, run.2.symm⟩

/-- `malloc_pages` for the process, taken apart. -/
theorem malloc_ok (inv : Inv thread bits s) {pgCnt vaddr : Nat} {m : Machine}
    (positive : 1 ≤ pgCnt) (pgCntLt : pgCnt < 2 ^ 32)
    (run : mallocPages s.machine .user pgCnt = .ok (vaddr, m)) :
    ∃ first, bitmapScan s.machine.mem (processBitmap bits) pgCnt = .ok (some first) ∧
      first + pgCnt ≤ stackBit ∧ vaddr = userVaddrStart + 4096 * first ∧
      (∀ page, first ≤ page → page < first + pgCnt →
        (processBitmap bits).bit s.machine.mem page = false) ∧
      OnlyBelow { s.machine with mem := markRun s.machine.mem bits first true pgCnt } m := by
  obtain ⟨kernelPages, userPages, laid⟩ := inv.prepared.laid
  rw [mallocPages, bind_eq_ok] at run
  obtain ⟨⟨start, m1⟩, virtual, run⟩ := run
  obtain ⟨first, scan, fits, rfl, clear, rfl⟩ := inv.getVirtualPages_ok positive pgCntLt virtual
  have nonNull : userVaddrStart + 4096 * first ≠ 0 := by
    simp only [userVaddrStart]
    omega
  dsimp only at run
  rw [if_neg nonNull, bind_eq_ok] at run
  obtain ⟨⟨mapped, m2⟩, map, run⟩ := run
  obtain rfl := (laid.of_mem _).mapPages_true map
  cases run
  exact ⟨first, scan, fits, rfl, clear, .of_mapsOnly (laid.of_mem _) (mapPages_mapsOnly map)⟩

/-- `malloc_pages` for the process stops the machine only where mapping does. -/
theorem malloc_error (inv : Inv thread bits s) {pgCnt : Nat} {fault : Fault}
    (positive : 1 ≤ pgCnt) (pgCntLt : pgCnt < 2 ^ 32)
    (run : mallocPages s.machine .user pgCnt = .error fault) : MappingFault fault := by
  cases scan : bitmapScan s.machine.mem (processBitmap bits) pgCnt with
  | error stopped =>
      have stops := bitmapScan_error scan
      simp only [mallocPages, getVirtualPages, Machine.runningThread, inv.running,
        inv.prepared.bitmap_eq] at run
      rw [bind_error (bind_error scan)] at run
      cases run
      exact stops
  | ok result =>
      obtain ⟨first, rfl, fits, -⟩ := inv.scan_ok positive pgCntLt scan
      rw [mallocPages, bind_ok (inv.getVirtualPages_eq scan fits positive)] at run
      dsimp only at run
      split at run
      · cases run
      · rcases bind_eq_error.mp run with map | ⟨⟨mapped, m⟩, -, last⟩
        · exact mapPages_error map
        · cases mapped <;> cases last

/-- `free_pages` for the process, taken apart. -/
theorem free_ok (inv : Inv thread bits s) {first pgCnt : Nat} {m : Machine}
    (fits : first + pgCnt ≤ stackBit)
    (run : freePages s.machine .user (userVaddrStart + 4096 * first) pgCnt = .ok m) :
    ∃ between, OnlyBelow s.machine between ∧
      m = { between with mem := markRun between.mem bits first false pgCnt } := by
  obtain ⟨kernelPages, userPages, laid⟩ := inv.prepared.laid
  simp only [freePages, bind_eq_ok] at run
  obtain ⟨_, -, pgPhyAddr, -, _, -, between, freed, removed⟩ := run
  have only := freeRun_onlyBelow laid freed
  refine ⟨between, only, ?_⟩
  have last := stackBit_eq
  have prepared := inv.prepared.onlyBelow only
  have vaddr := prepared.vaddr
  have running := only.running.trans inv.running
  have start : (userVaddrStart + 4096 * first + 2 ^ 32 - userVaddrStart) % 2 ^ 32 / pageSize =
      first := by
    simp only [userVaddrStart, pageSize]
    omega
  simp only [removeVirtualPages, Machine.runningThread, running, vaddr, start, setRun_zero,
    bind_eq_ok, Except.ok.injEq, exists_eq_left', pure_eq_ok] at removed
  rw [running]
  exact removed.symm

/-- What `get_a_page` does with the stack page: it marks its bit, and nothing else
changes in the kernel's heap. -/
theorem getAPage_ok {m m' : Machine} {vaddr : Nat} (prepared : Prepared thread bits m)
    (running : m.running = thread)
    (run : getAPage m .user userStack3Vaddr = .ok (vaddr, m')) :
    ∃ m1 m2, Locking m m1 ∧
      OnlyBelow { m1 with mem := m1.mem.setBit (8 * bits + stackBit) true } m2 ∧
      (m' = m2 ∨ Locking m2 m') := by
  rw [getAPage, bind_eq_ok] at run
  obtain ⟨m1, acquired, run⟩ := run
  have locks := acquirePool_locking acquired
  have prepared1 := prepared.congr locks.layout fun query _ _ => by rw [locks.mem]
  have running1 : m1.runningThread = thread := locks.running.trans running
  obtain ⟨kernelPages, userPages, laid⟩ := prepared1.laid
  have index : (userStack3Vaddr + 2 ^ 32 - userVaddrStart) % 2 ^ 32 / pageSize = stackBit := by
    decide
  dsimp only at run
  rw [running1, prepared1.vaddr] at run
  split at run
  · simp only [index, bitmapSet_one, bind_eq_ok, Except.ok.injEq, exists_eq_left',
      pure_eq_ok] at run
    obtain ⟨_, -, ⟨paddr, m2⟩, alloc, run⟩ := run
    have laid1 := laid.of_mem (m1.mem.setBit (8 * bits + stackBit) true)
    have first := allocPhysicalPages_mapsOnly alloc
    dsimp only at run
    split at run
    · cases run
      exact ⟨m1, _, locks, .of_mapsOnly laid1 first, .inl rfl⟩
    · simp only [bind_eq_ok] at run
      obtain ⟨m3, insert, m4, released, run⟩ := run
      cases run
      exact ⟨m1, m3, locks, .of_mapsOnly laid1 (first.trans (insertPageTable_mapsOnly insert)),
        .inr (releasePool_locking released)⟩
  · split at run
    · next kernel => cases kernel.2
    · cases run

/-- The stack page is marked once `get_a_page` has returned. -/
theorem started (start : Started thread bits s) : Inv thread bits s := by
  obtain ⟨none, m, vaddr, prepared, running, run⟩ := start
  obtain ⟨m1, m2, locks, only, finish⟩ := getAPage_ok prepared running run
  have last := stackBit_eq
  have len := userBitmapLen_eq
  have prepared1 := prepared.congr locks.layout fun query _ _ => by rw [locks.mem]
  have apart := prepared1.apart
  have prepared2 : Prepared thread bits
      { m1 with mem := m1.mem.setBit (8 * bits + stackBit) true } :=
    prepared1.congr (.of_eq rfl rfl) fun query lower upper => Bytes.setBit_of_ne _ _ (by omega)
  have prepared3 := prepared2.onlyBelow only
  have set : (processBitmap bits).bit m2.mem stackBit = true := by
    rw [prepared2.onlyBelow_bit only]
    simp only [Bitmap.bit, processBitmap, Bytes.bit_setBit, if_true]
  have running2 : m2.running = thread := only.running.trans (locks.running.trans running)
  have ends : s.machine.running = thread ∧ Prepared thread bits s.machine ∧
      s.machine.mem = m2.mem := by
    rcases finish with equal | unlocks
    · rw [equal]
      exact ⟨running2, prepared3, rfl⟩
    · exact ⟨unlocks.running.trans running2,
        prepared3.congr unlocks.layout fun query _ _ => by rw [unlocks.mem], unlocks.mem⟩
  refine ⟨ends.1, ends.2.1, by rw [ends.2.2]; exact set, ?_, by rw [none]; exact .nil⟩
  rw [none]
  simp

theorem malloc (inv : Inv thread bits s) {pgCnt vaddr : Nat} {m : Machine} (positive : 1 ≤ pgCnt)
    (pgCntLt : pgCnt < 2 ^ 32) (run : mallocPages s.machine .user pgCnt = .ok (vaddr, m)) :
    Inv thread bits ⟨m, if vaddr = 0 then s.live else (vaddr, pgCnt) :: s.live⟩ := by
  obtain ⟨first, -, fits, rfl, clear, only⟩ := inv.malloc_ok positive pgCntLt run
  have last := stackBit_eq
  have marks : Prepared thread bits
      { s.machine with mem := markRun s.machine.mem bits first true pgCnt } :=
    inv.prepared.congr (.of_eq rfl rfl) fun query lower upper =>
      inv.prepared.markRun_thread true fits _ lower upper
  have bit : ∀ page, (processBitmap bits).bit m.mem page =
      if first ≤ page ∧ page < first + pgCnt then true
      else (processBitmap bits).bit s.machine.mem page := fun page =>
    (marks.onlyBelow_bit only page).trans (bit_markRun _ _ _ (by omega) page)
  have kept : ∀ page, (processBitmap bits).bit s.machine.mem page = true →
      (processBitmap bits).bit m.mem page = true := by
    intro page set
    rw [bit, set, ite_self]
  rw [if_neg (by simp only [userVaddrStart]; omega)]
  constructor
  · exact only.running.trans inv.running
  · exact marks.onlyBelow only
  · exact kept stackBit inv.stack
  · intro run live
    rcases List.mem_cons.mp live with rfl | old
    · exact ⟨first, rfl, positive, fits, fun page lower upper => by
        rw [bit, if_pos ⟨lower, upper⟩]⟩
    · obtain ⟨other, start, some, otherFits, set⟩ := inv.marked run old
      exact ⟨other, start, some, otherFits, fun page lower upper =>
        kept page (set page lower upper)⟩
  · refine List.pairwise_cons.mpr ⟨fun run old => ?_, inv.disjoint⟩
    -- pages of live runs are marked, the new ones were not
    obtain ⟨other, start, some, otherFits, set⟩ := inv.marked run old
    simp only [Disjoint, start]
    by_contra overlap
    have shared : first ≤ max first other ∧ max first other < first + pgCnt ∧
        other ≤ max first other ∧ max first other < other + run.2 := by omega
    have cleared := clear (max first other) shared.1 shared.2.1
    rw [set (max first other) shared.2.2.1 shared.2.2.2] at cleared
    cases cleared

theorem free (inv : Inv thread bits s) {vaddr pgCnt : Nat} {m : Machine}
    (live : (vaddr, pgCnt) ∈ s.live) (run : freePages s.machine .user vaddr pgCnt = .ok m) :
    Inv thread bits ⟨m, s.live.erase (vaddr, pgCnt)⟩ := by
  obtain ⟨first, rfl, -, fits, -⟩ := inv.marked _ live
  dsimp only at fits
  obtain ⟨between, only, rfl⟩ := inv.free_ok fits run
  have last := stackBit_eq
  have prepared := inv.prepared.onlyBelow only
  have bit : ∀ page, ¬(first ≤ page ∧ page < first + pgCnt) →
      (processBitmap bits).bit (markRun between.mem bits first false pgCnt) page =
        (processBitmap bits).bit s.machine.mem page := by
    intro page outside
    rw [bit_markRun _ _ _ (by omega), if_neg outside]
    exact inv.prepared.onlyBelow_bit only page
  have symmetric : ∀ {run other}, Disjoint run other → Disjoint other run :=
    fun apart => apart.symm
  have split := ((List.perm_cons_erase live).pairwise_iff symmetric).mp inv.disjoint
  rw [List.pairwise_cons] at split
  constructor
  · exact only.running.trans inv.running
  · exact prepared.congr (.of_eq rfl rfl) fun query lower upper =>
      prepared.markRun_thread false fits _ lower upper
  · rw [bit stackBit (by omega)]
    exact inv.stack
  · intro run stays
    obtain ⟨other, start, some, otherFits, set⟩ := inv.marked run (List.mem_of_mem_erase stays)
    have apart := split.1 run stays
    simp only [Disjoint, start] at apart
    refine ⟨other, start, some, otherFits, fun page lower upper => ?_⟩
    rw [bit page (by omega)]
    exact set page lower upper
  · exact split.2

theorem elsewhere (inv : Inv thread bits s) {m : Machine}
    (other : Elsewhere thread bits s.machine m) (running : m.running = thread) :
    Inv thread bits ⟨m, s.live⟩ := by
  have prepared : Prepared thread bits m :=
    inv.prepared.congr other.layout fun query lower upper => other.mem query (.inl ⟨lower, upper⟩)
  have same : ∀ page, page ≤ stackBit → (processBitmap bits).bit m.mem page =
      (processBitmap bits).bit s.machine.mem page := by
    intro page small
    have last := stackBit_eq
    have len := userBitmapLen_eq
    refine Bytes.bit_congr (other.mem _ (.inr ?_))
    simp only [processBitmap]
    omega
  constructor
  · exact running
  · exact prepared
  · exact (same stackBit (Nat.le_refl _)).trans inv.stack
  · intro run live
    obtain ⟨first, start, some, fits, set⟩ := inv.marked run live
    exact ⟨first, start, some, fits, fun page lower upper =>
      (same page (by omega)).trans (set page lower upper)⟩
  · exact inv.disjoint

theorem step (inv : Inv thread bits s) (taken : Step thread bits s next) :
    Inv thread bits next := by
  cases taken with
  | malloc positive pgCntLt run => exact inv.malloc positive pgCntLt run
  | free live run => exact inv.free live run
  | elsewhere other running => exact inv.elsewhere other running

/-- The invariant gives what the process relies on. -/
theorem sound (inv : Inv thread bits s) : Sound thread bits s := by
  have last := stackBit_eq
  have len := userBitmapLen_eq
  constructor
  · intro run live
    obtain ⟨first, start, -, fits, -⟩ := inv.marked run live
    simp only [start, userVaddrStart, userStack3Vaddr]
    omega
  · exact inv.disjoint
  · intro pgCnt vaddr m positive pgCntLt run
    obtain ⟨first, scan, fits, -⟩ := inv.malloc_ok positive pgCntLt run
    have bitmapLen : (processBitmap bits).bitmapLen = 94199 := len
    have set := inv.stack
    rw [last] at set
    refine ⟨fun idx read => ?_, first, scan, by omega⟩
    rw [len, ← bitmapLen]
    exact lt_of_mem_scanReads (by rw [bitmapLen]; decide) (by rw [bitmapLen]; exact set) scan read
  · intro pgCnt positive pgCntLt failed
    have fault := inv.malloc_error positive pgCntLt failed
    rcases fault with scan | ⟨vaddr, fault⟩
    · exact absurd (Fault.panic.inj scan) (by decide)
    · cases fault

end Inv

end ProcessState

/-! ## How a process comes about -/

/-- The bit of a page of the kernel heap. -/
def Machine.pageBit (m : Machine) (index : Nat) : Bool := m.kernelVaddr.vaddrBitmap.bit m.mem index

/-- A run of pages that was free is in use, and nothing else changed but the bitmaps and
what is in these pages. -/
structure Obtains (m m' : Machine) (start pgCnt : Nat) : Prop where
  same : m' = { m with mem := m'.mem, tables := m'.tables }
  clear : ∀ index, start ≤ index → index < start + pgCnt → m.pageBit index = false
  bits : ∀ index, index < 2 ^ 18 → m'.pageBit index =
    if start ≤ index ∧ index < start + pgCnt then true else m.pageBit index
  bytes : ∀ query, (query < 0xc009a000 ∨ 0xc009e000 ≤ query) →
    (query < kernelHeapStart + 4096 * start ∨ kernelHeapStart + 4096 * (start + pgCnt) ≤ query) →
    m'.mem query = m.mem query

/-- `get_kernel_pages` -/
theorem getKernelPages_obtains {m m' : Machine} {kernelPages userPages pgCnt vaddr : Nat}
    (laid : Laid m kernelPages userPages) (positive : 1 ≤ pgCnt) (pgCntLe : pgCnt ≤ 32768)
    (run : getKernelPages m pgCnt = .ok (vaddr, m')) :
    ∃ start, start < 8 * (kernelPages / 8) ∧ vaddr = kernelHeapStart + 4096 * start ∧
      Obtains m m' start pgCnt := by
  have kernelLe := laid.kernelPages_le
  have userLe := laid.userPages_le
  rw [getKernelPages, bind_eq_ok] at run
  obtain ⟨⟨first, m1⟩, malloc, run⟩ := run
  obtain ⟨start, inside, clear, rfl, map⟩ :=
    laid.mallocPages_kernel_ok positive (by omega) malloc
  have bitmapBits : m.kernelVaddr.vaddrBitmap.bitmapBits =
      0xc009a000 + kernelPages / 8 + userPages / 8 := by rw [laid.vaddr]
  have laid0 := laid.of_mem (m.mem.setBits (fun idx =>
    8 * m.kernelVaddr.vaddrBitmap.bitmapBits + (start + idx) % 2 ^ 32) true pgCnt)
  have maps := mapPages_mapsOnly map
  have laid1 := laid0.congr (SameLayout.of_eq maps.pool_eq maps.kernelVaddr_eq)
  have nonNull : 0xc0100000 + 4096 * start ≠ 0 := by omega
  have size : pgCnt * pageSize % 2 ^ 32 = 4096 * pgCnt := by
    simp only [pageSize]
    omega
  dsimp only at run
  rw [if_pos nonNull, bind_eq_ok] at run
  obtain ⟨m2, cleared, run⟩ := run
  cases run
  rw [clearPages, size] at cleared
  have clears := clearVirt_mapsOnly cleared
  have laid2 := laid1.of_mem (m1.mem.fill (0xc0100000 + 4096 * start) 0 (4096 * pgCnt))
  have kernelVaddr : m'.kernelVaddr = m.kernelVaddr :=
    clears.kernelVaddr_eq.trans maps.kernelVaddr_eq
  have kept : ∀ query, (query < 0xc009a000 ∨ m.kernelVaddr.vaddrBitmap.bitmapBits ≤ query) →
      (query < 0xc0100000 + 4096 * start ∨ 0xc0100000 + 4096 * start + 4096 * pgCnt ≤ query) →
      m'.mem query = markRun m.mem m.kernelVaddr.vaddrBitmap.bitmapBits start true pgCnt query := by
    intro query off apart
    have off1 : ¬m1.PoolByte query := fun byte => by
      have bounds := laid1.poolByte_bounds byte
      rw [maps.kernelVaddr_eq] at bounds
      dsimp only at bounds
      omega
    have off0 : ¬Machine.PoolByte { m with mem := m.mem.setBits (fun idx =>
        8 * m.kernelVaddr.vaddrBitmap.bitmapBits + (start + idx) % 2 ^ 32) true pgCnt } query :=
      fun byte => by
        have bounds := laid0.poolByte_bounds byte
        dsimp only at bounds
        omega
    exact (clears.mem query off1).trans
      ((Bytes.fill_of_outside _ _ apart).trans (maps.mem query off0))
  refine ⟨start, inside, rfl, ⟨?_, ?_, ?_, ?_⟩⟩
  · rw [clears.same, maps.same]
  · intro index lower upper
    have found := clear (index - start) (by omega)
    rwa [Nat.add_sub_cancel' lower, Nat.mod_eq_of_lt (by omega)] at found
  · intro index indexLt
    rw [Machine.pageBit, kernelVaddr, Bitmap.bit,
      Bytes.bit_congr (kept _ (.inr (by omega)) (.inl (by omega)))]
    have fits : start + pgCnt ≤ 2 ^ 32 := by omega
    exact bit_markRun m.mem _ true fits index
  · intro query off apart
    simp only [kernelHeapStart] at apart
    rw [kept query (by omega) (by omega)]
    refine Bytes.setBits_of_ne _ _ fun idx idxLt => ?_
    rw [Nat.mod_eq_of_lt (by omega)]
    omega

/-- `create_user_vaddr_bitmap` prepares the thread structure of a process, which
lies in a page that `get_kernel_pages` has given out. -/
theorem createUserVaddrBitmap_prepared {m m' : Machine} {kernelPages userPages page : Nat}
    (laid : Laid m kernelPages userPages)
    (used : m.kernelVaddr.vaddrBitmap.bit m.mem page = true)
    (run : createUserVaddrBitmap m (kernelHeapStart + 4096 * page) = .ok m') :
    ∃ bits, Prepared (kernelHeapStart + 4096 * page) bits m' := by
  have kernelLe := laid.kernelPages_le
  have userLe := laid.userPages_le
  have len := userBitmapLen_eq
  have pgCnt : divRoundUp userBitmapLen pageSize = 23 := by decide
  generalize threadEq : kernelHeapStart + 4096 * page = thread at run ⊢
  have lower : 0xc0100000 ≤ thread := by
    rw [← threadEq]
    exact Nat.le_add_right _ _
  rw [createUserVaddrBitmap, pgCnt, bind_eq_ok] at run
  obtain ⟨⟨bits, m1⟩, got, run⟩ := run
  have laid0 : Laid (m.store32 (thread + 136) userVaddrStart) kernelPages userPages :=
    laid.of_mem _
  obtain ⟨start, startLt, bitsEq, obtains⟩ :=
    getKernelPages_obtains laid0 (by decide) (by decide) got
  have layout : SameLayout (m.store32 (thread + 136) userVaddrStart) m1 := by
    rw [obtains.same]
    exact .of_eq rfl rfl
  -- the thread's page is in use, so it is none of the new ones
  have others : page < start ∨ start + 23 ≤ page := by
    by_contra within
    have found := obtains.clear page (by omega) (by omega)
    have same : m.kernelVaddr.vaddrBitmap.bit
        (m.store32 (thread + 136) userVaddrStart).mem page =
        m.kernelVaddr.vaddrBitmap.bit m.mem page := by
      refine Bytes.bit_congr (Bytes.write32_of_outside _ _ (.inl ?_))
      rw [laid.vaddr]
      dsimp only
      omega
    exact absurd (same.symm.trans found) (by rw [used]; decide)
  have apart : thread + 4096 ≤ bits ∨ bits + 4096 * 23 ≤ thread := by
    rw [bitsEq, ← threadEq]
    omega
  have bitsLower : 0xc0100000 ≤ bits := by
    rw [bitsEq]
    exact Nat.le_add_right _ _
  have bitsLt : bits < 2 ^ 32 := by
    rw [bitsEq]
    simp only [kernelHeapStart]
    omega
  have startWord : m1.mem.read32 (thread + 136) = userVaddrStart := by
    rw [Bytes.read32_congr fun query lower upper => obtains.bytes query (by omega) (by
      rw [bitsEq] at apart
      omega)]
    exact Bytes.read32_write32_self _ (by decide)
  have stored : userprogVaddr ((m1.mem.write32 (thread + 132) bits).write32 (thread + 128)
      userBitmapLen) thread = ⟨⟨userBitmapLen, bits⟩, userVaddrStart⟩ := by
    rw [userprogVaddr, Bytes.read32_write32_self _ (by rw [len]; decide),
      Bytes.read32_write32_of_disjoint _ _ (by omega), Bytes.read32_write32_self _ bitsLt,
      Bytes.read32_write32_of_disjoint _ _ (by omega),
      Bytes.read32_write32_of_disjoint _ _ (by omega), startWord]
  cases run
  refine ⟨bits, ⟨kernelPages, userPages, laid0.congr (layout.trans (.of_eq rfl rfl))⟩, ?_, lower,
    bitsLower, by omega⟩
  have cleared : ∀ query, thread + 128 ≤ query → query + 4 ≤ thread + 140 →
      (bitmapInit ((m1.mem.write32 (thread + 132) bits).write32 (thread + 128) userBitmapLen)
        ⟨userBitmapLen, bits⟩).read32 query =
      ((m1.mem.write32 (thread + 132) bits).write32 (thread + 128) userBitmapLen).read32 query :=
    fun query lower upper => Bytes.read32_fill_of_disjoint _ _ (by
      dsimp only
      omega)
  simp only [Machine.store32, stored]
  rw [userprogVaddr, cleared _ (by omega) (by omega), cleared _ (by omega) (by omega),
    cleared _ (by omega) (by omega)]
  exact stored

/-- **Virtual pages of a process.**  Once `process_start` has got the stack page,
every run of pages the process is given lies between the start of user space and
that page, live runs share no page, no scan that ends well looks outside the
bitmap, and the assertion on the start of a run holds. -/
theorem userPages_sound {thread bits : Nat} {s : ProcessState}
    (reachable : (processSystem thread bits).Reachable s) : s.Sound thread bits := by
  refine ProcessState.Inv.sound (System.Reachable.invariant ?_ ?_ reachable)
  · intro s start
    exact .started start
  · intro s next inv taken
    exact inv.step taken

/-- `get_a_page` returns for the stack page when the user pool has a frame that can be entered. -/
theorem getAPage_inserts {thread bits index : Nat} {m : Machine} (prepared : Prepared thread bits m)
    (running : m.running = thread) (free : (m.pool .user).lk = lockInit)
    (process : pgdirOf m.mem thread ≠ 0) (inside : index < m.frameCount .user)
    (clear : m.frameBit .user index = false)
    (inserts : ∀ paddr m2, allocPhysicalPages { m.locked .user with
      mem := m.mem.setBit (8 * bits + stackBit) true } .user = .ok (paddr, m2) →
      ∃ m3, insertPageTable m2 userStack3Vaddr paddr = .ok m3) :
    ∃ paddr m2 m3, allocPhysicalPages { m.locked .user with
        mem := m.mem.setBit (8 * bits + stackBit) true } .user = .ok (paddr, m2) ∧
      insertPageTable m2 userStack3Vaddr paddr = .ok m3 ∧
      getAPage m .user userStack3Vaddr = .ok (userStack3Vaddr, { m with
        mem := m3.mem
        tables := m3.tables
        intr := .on }) := by
  obtain ⟨kernelPages, userPages, laid⟩ := prepared.laid
  have lower := prepared.threadLower
  have bitsLower := prepared.bitsLower
  simp only [kernelHeapStart] at lower bitsLower
  have real : m.running ≠ 0 := by omega
  have position : (userStack3Vaddr + 2 ^ 32 - userVaddrStart) % 2 ^ 32 / pageSize = stackBit := by
    decide
  have runs : (m.locked .user).runningThread = thread := running
  have laid1 : Laid { m.locked .user with
      mem := m.mem.setBit (8 * bits + stackBit) true } kernelPages userPages :=
    (laid.locked .user).of_mem _
  have frames : ({ m.locked .user with
      mem := m.mem.setBit (8 * bits + stackBit) true } : Machine).frameCount .user =
      m.frameCount .user := by
    rw [laid1.frameCount_user, laid.frameCount_user]
  have clear1 : ({ m.locked .user with
      mem := m.mem.setBit (8 * bits + stackBit) true } : Machine).frameBit .user index = false := by
    have poolBits : (m.pool .user).poolBitmap.bitmapBits < 0xc009b000 := by
      rw [laid.userBitmap]
      have := laid.kernelPages_le
      dsimp only
      omega
    have frameLt : index < 8 * 4096 := by
      have := laid.userPages_le
      rw [laid.frameCount_user] at inside
      omega
    have bitmap : ((m.locked .user).pool .user).poolBitmap = (m.pool .user).poolBitmap := by
      rw [Machine.locked, Machine.setPool_self]
    rw [← clear, Machine.frameBit, Machine.frameBit]
    dsimp only
    rw [bitmap]
    exact Bytes.bit_congr (Bytes.setBit_of_ne _ _ (by omega))
  obtain ⟨paddr, m2, alloc⟩ := allocPhysicalPages_of_clear (by rwa [frames]) clear1
  have nonNull := laid1.alloc_ne_zero alloc
  obtain ⟨m3, insert⟩ := inserts paddr m2 alloc
  have maps := (allocPhysicalPages_mapsOnly alloc).trans (insertPageTable_mapsOnly insert)
  have unlocked := releasePool_locked free m3.mem m3.tables
  refine ⟨paddr, m2, m3, alloc, insert, ?_⟩
  rw [getAPage, bind_ok (acquirePool_free free real)]
  dsimp only
  rw [if_pos ⟨by rw [runs]; exact process, rfl⟩, runs, Machine.locked_mem, prepared.vaddr]
  dsimp only
  rw [position, bind_ok (assert_of (by decide) _), bitmapSet_one, bind_ok rfl, pure_eq_ok,
    bind_ok rfl, bind_ok alloc]
  dsimp only
  rw [if_neg nonNull, bind_ok insert, maps.same, bind_ok unlocked]
  rfl

/-- So it does when the page table exists. -/
theorem getAPage_returns {thread bits index : Nat} {m : Machine} (prepared : Prepared thread bits m)
    (running : m.running = thread) (free : (m.pool .user).lk = lockInit)
    (process : pgdirOf m.mem thread ≠ 0) (inside : index < m.frameCount .user)
    (clear : m.frameBit .user index = false) (mapped : SelfMapped m.tables m.cr3)
    (present : Present (m.tables (pdeSlot m.cr3 userStack3Vaddr))) :
    ∃ m', getAPage m .user userStack3Vaddr = .ok (userStack3Vaddr, m') := by
  obtain ⟨kernelPages, userPages, laid⟩ := prepared.laid
  have laid1 : Laid { m.locked .user with
      mem := m.mem.setBit (8 * bits + stackBit) true } kernelPages userPages :=
    (laid.locked .user).of_mem _
  suffices inserts : ∀ paddr m2, allocPhysicalPages { m.locked .user with
      mem := m.mem.setBit (8 * bits + stackBit) true } .user = .ok (paddr, m2) →
      ∃ m3, insertPageTable m2 userStack3Vaddr paddr = .ok m3 by
    obtain ⟨-, -, m3, -, -, run⟩ :=
      getAPage_inserts prepared running free process inside clear inserts
    exact ⟨_, run⟩
  intro paddr m2 alloc
  obtain ⟨found, foundLt, -, -, paddrEq, taken⟩ := allocPhysicalPages_ok alloc
  obtain ⟨addr, aligned, -⟩ := laid1.frameAddr_spec foundLt
  have tables : m2.tables = m.tables := by rw [taken]; rfl
  have cr3 : m2.cr3 = m.cr3 := by rw [taken]; rfl
  refine insertPageTable_returns (by rwa [tables, cr3]) (by decide) ?_ ?_ (.inl ?_)
  · rw [paddrEq, addr]
    exact aligned
  · rw [tables, cr3]
    exact fun absent => absurd present absent
  · rwa [tables, cr3]

/-- A directory at 3 MB that maps itself and has page tables for the stack page and for the first
pages of a process. -/
def processTables : Words := fun addr =>
  if addr = 0x300bfc then 0x301007
  else if addr = 0x300080 then 0x302007
  else if addr = 0x300ffc then 0x300007
  else 0

theorem processTables_self : SelfMapped processTables 0x300000 := by decide

theorem processTables_stack : Present (processTables (pdeSlot 0x300000 userStack3Vaddr)) := by
  decide

/-- A process with its thread structure in the first page of the heap and its
bitmap behind it. -/
def withProcess (base : Machine) : Machine :=
  let mem := base.mem.write32 (0xc0100000 + 108) 0xc0118000
  let mem := mem.write32 (0xc0100000 + 136) userVaddrStart
  let mem := mem.write32 (0xc0100000 + 132) 0xc0101000
  let mem := mem.write32 (0xc0100000 + 128) userBitmapLen
  { base with
    mem := mem
    running := 0xc0100000
    cr3 := 0x300000
    tables := processTables }

theorem withProcess_prepared {base : Machine} {kernelPages userPages : Nat}
    (laid : Laid base kernelPages userPages) :
    Prepared 0xc0100000 0xc0101000 (withProcess base) := by
  refine ⟨⟨kernelPages, userPages, laid.congr (.of_eq rfl rfl)⟩, ?_, by decide, by decide,
    .inl (by decide)⟩
  have len : userBitmapLen < 2 ^ 32 := by decide
  rw [userprogVaddr, withProcess]
  dsimp only
  rw [Bytes.read32_write32_self _ len, Bytes.read32_write32_of_disjoint _ _ (by decide),
    Bytes.read32_write32_self _ (by decide), Bytes.read32_write32_of_disjoint _ _ (by decide),
    Bytes.read32_write32_of_disjoint _ _ (by decide), Bytes.read32_write32_self _ (by decide)]

/-- In a machine with 32 MB of memory a process gets two pages and one more, and gives the two
back. -/
theorem userPages_sound_started : ∃ m m₁ m₂ m₃,
    mallocPages m .user 2 = .ok (0x8048000, m₁) ∧ mallocPages m₁ .user 1 = .ok (0x804a000, m₂) ∧
    freePages m₂ .user 0x8048000 2 = .ok m₃ ∧
    ProcessState.Sound 0xc0100000 0xc0101000 ⟨m₂, [(0x804a000, 1), (0x8048000, 2)]⟩ ∧
    ProcessState.Sound 0xc0100000 0xc0101000 ⟨m₃, [(0x804a000, 1)]⟩ := by
  have laid := memPoolInit_laid Machine.blank (by decide : 0x200000 ≤ 0x2000000) (by decide)
  have evaluated : (do
      let (_, m) ← getAPage (withProcess (memPoolInit Machine.blank 0x2000000)) .user
        userStack3Vaddr
      let (two, m) ← mallocPages m .user 2
      let (one, m) ← mallocPages m .user 1
      let _ ← freePages m .user two 2
      return (two, one) : Except Fault (Nat × Nat)) = .ok (0x8048000, 0x804a000) := by
    decide +kernel
  obtain ⟨⟨_, m⟩, stack, run⟩ := bind_eq_ok.mp evaluated
  obtain ⟨⟨two, m₁⟩, first, run⟩ := bind_eq_ok.mp run
  obtain ⟨⟨one, m₂⟩, second, run⟩ := bind_eq_ok.mp run
  obtain ⟨m₃, third, run⟩ := bind_eq_ok.mp run
  obtain ⟨rfl, rfl⟩ := Prod.mk.inj (Except.ok.inj run)
  have started : (processSystem 0xc0100000 0xc0101000).Reachable ⟨m, []⟩ :=
    .init ⟨rfl, _, _, withProcess_prepared laid, rfl, stack⟩
  have obtained := (started.step (.malloc (by decide) (by decide) first)).step
    (.malloc (by decide) (by decide) second)
  have freed := obtained.step (.free (.tail _ (.head _)) third)
  exact ⟨m, m₁, m₂, m₃, first, second, third, userPages_sound obtained, userPages_sound freed⟩

end Pumelo
