import Pumelo.MallocCall
import Pumelo.UserPages

/-!
# Memory that runs out

What the five calls for memory do with a request that cannot be met.  Each has a branch
that returns `NULL`, but the scan of a bitmap asserts that it found something before it
would say that it did not, so that no branch is reached behind the locks: only a size that
`sys_malloc` rejects at once comes back as `NULL`.
-/

namespace Pumelo

open Foundation

/-- A call for memory. -/
inductive MemoryCall where
  | mallocPages (pf : PoolFlags) (pgCnt : UInt32)
  | getKernelPages (pgCnt : UInt32)
  | getUserPages (pgCnt : UInt32)
  | getAPage (pf : PoolFlags) (vaddr : UInt32)
  | sysMalloc (size : UInt32)
  deriving DecidableEq, Repr

namespace MemoryCall

/-- The call. -/
def run (m : Machine) : MemoryCall → Except Fault (Nat × Machine)
  | mallocPages pf pgCnt => Pumelo.mallocPages m pf pgCnt.toNat
  | getKernelPages pgCnt => Pumelo.getKernelPages m pgCnt.toNat
  | getUserPages pgCnt => Pumelo.getUserPages m pgCnt.toNat
  | getAPage pf vaddr => Pumelo.getAPage m pf vaddr.toNat
  | sysMalloc size => Pumelo.sysMalloc m size.toNat

/-- The pool it allocates from. -/
def pool (m : Machine) : MemoryCall → PoolFlags
  | mallocPages pf _ => pf
  | getKernelPages _ => .kernel
  | getUserPages _ => .user
  | getAPage pf _ => pf
  | sysMalloc _ => callerFlags m

/-- The pages it asks for. -/
def pages (m : Machine) : MemoryCall → Nat
  | mallocPages _ pgCnt => pgCnt.toNat
  | getKernelPages pgCnt => pgCnt.toNat
  | getUserPages pgCnt => pgCnt.toNat
  | getAPage _ _ => 1
  | sysMalloc size => pagesNeeded m size.toNat

/-- The virtual pages that it chooses from. `get_a_page` is told which page to take. -/
def virtualPages (m : Machine) : MemoryCall → Option VirtualAddr
  | mallocPages pf _ => some (virtualOf m pf)
  | getKernelPages _ => some (virtualOf m .kernel)
  | getUserPages _ => some (virtualOf m .user)
  | getAPage _ _ => none
  | sysMalloc _ => some (virtualOf m (callerFlags m))
where
  virtualOf (m : Machine) : PoolFlags → VirtualAddr
    | .kernel => m.kernelVaddr
    | .user => userprogVaddr m.mem m.runningThread

/-- The size is one that `sys_malloc` rejects before it looks for memory. -/
def Refused (m : Machine) : MemoryCall → Prop
  | sysMalloc size => ¬(0 < size.toNat ∧ size.toNat < (m.pool (callerFlags m)).poolSize)
  | _ => False

end MemoryCall

/-- A run of clear bits in a bitmap. -/
def Bitmap.HasRun (btmp : Bitmap) (mem : Bytes) (cnt : Nat) : Prop :=
  ∃ start, start + cnt ≤ 8 * btmp.bitmapLen ∧
    ∀ offset, offset < cnt → btmp.bit mem (start + offset) = false

namespace MemoryCall

/-- There is no run of virtual pages for the request, or there are too few frames. -/
def CannotBeMet (m : Machine) (call : MemoryCall) : Prop :=
  (∃ vaddr ∈ call.virtualPages m, ¬vaddr.vaddrBitmap.HasRun m.mem (call.pages m)) ∨
    (m.freeFrames (call.pool m)).card < call.pages m

/-- The call returns `NULL`, and the locks, memory and the page tables are as before. -/
def FailsCleanly (m : Machine) (call : MemoryCall) : Prop :=
  ∃ m', call.run m = .ok (0, m') ∧ (∀ pf, (m'.pool pf).lk.number = (m.pool pf).lk.number) ∧
    m'.mem = m.mem ∧ m'.tables = m.tables

end MemoryCall

/-- The state in which a thread calls: pools as `mem_init` lays them out, and the virtual
pages of a process, or none. -/
structure Allocating (m : Machine) : Prop where
  laid : ∃ kernelPages userPages, Laid m kernelPages userPages
  virtual : (userprogVaddr m.mem m.runningThread).vaddrBitmap.bitmapLen = 0 ∨
    (userprogVaddr m.mem m.runningThread).vaddrBitmap.bitmapLen = userBitmapLen ∧
      (userprogVaddr m.mem m.runningThread).vaddrStart = userVaddrStart

section

variable {m m' : Machine} {pf : PoolFlags} {pgCnt vaddr : Nat}

/-- Taking or releasing a lock changes nothing that a request depends on. -/
theorem Allocating.locking (ready : Allocating m) (locking : Locking m m') : Allocating m' := by
  obtain ⟨kernelPages, userPages, laid⟩ := ready.laid
  constructor
  · exact ⟨kernelPages, userPages, laid.congr locking.layout⟩
  · rw [Machine.runningThread, locking.mem, locking.running]
    exact ready.virtual

theorem Locking.freeFrames (locking : Locking m m') (pf : PoolFlags) :
    m'.freeFrames pf = m.freeFrames pf := by
  ext index
  simp only [Machine.mem_freeFrames, Machine.frameCount, Machine.frameBit,
    locking.layout.poolBitmap, locking.mem]

theorem Locking.virtualOf (locking : Locking m m') (pf : PoolFlags) :
    MemoryCall.virtualPages.virtualOf m' pf = MemoryCall.virtualPages.virtualOf m pf := by
  cases pf with
  | kernel => exact locking.layout.kernelVaddr
  | user => rw [MemoryCall.virtualPages.virtualOf, MemoryCall.virtualPages.virtualOf,
      Machine.runningThread, Machine.runningThread, locking.mem, locking.running]

theorem acquirePool_image (run : acquirePool m pf = .ok m') : m'.image = m.image := by
  obtain ⟨⟨lk, m1⟩, acquired, rest⟩ := bind_eq_ok.mp run
  cases rest
  have only := lockAcquire_machine acquired
  change m1.image = m.image
  rw [only]

theorem Laid.poolSize_le {kernelPages userPages : Nat} (laid : Laid m kernelPages userPages)
    (pf : PoolFlags) : (m.pool pf).poolSize ≤ 2 ^ 27 := by
  have kernelLe := laid.kernelPages_le
  have userLe := laid.userPages_le
  cases pf with
  | kernel =>
      rw [laid.kernelSize]
      omega
  | user =>
      rw [laid.userSize]
      omega

/-- `malloc_pages` never returns `NULL`. -/
theorem Allocating.mallocPages_bounds (ready : Allocating m) (positive : 1 ≤ pgCnt)
    (pgCntLt : pgCnt < 2 ^ 32) (run : mallocPages m pf pgCnt = .ok (vaddr, m')) :
    0 < vaddr ∧ vaddr + 12 < 2 ^ 32 := by
  obtain ⟨kernelPages, userPages, laid⟩ := ready.laid
  cases pf with
  | kernel =>
      obtain ⟨start, inside, -, rfl, -⟩ := laid.mallocPages_kernel_ok positive pgCntLt run
      have pagesLe := laid.kernelPages_le
      omega
  | user =>
      have virtual := ready.virtual
      rw [userBitmapLen_eq] at virtual
      rw [mallocPages, bind_eq_ok] at run
      obtain ⟨⟨start, m1⟩, pages, run⟩ := run
      simp only [getVirtualPages, bind_eq_ok] at pages
      obtain ⟨scanned, scan, pages⟩ := pages
      have lenLe : 8 * (userprogVaddr m.mem m.runningThread).vaddrBitmap.bitmapLen ≤ 2 ^ 32 := by
        omega
      obtain ⟨first, rfl, inside, -⟩ := bitmapScan_ok positive pgCntLt lenLe scan
      simp only [setRun_one, bind_eq_ok, Except.ok.injEq, exists_eq_left', pure_eq_ok,
        Prod.mk.injEq] at pages
      obtain ⟨_, below, rfl, rfl⟩ := pages
      rw [assert_eq_ok] at below
      have nonNull :
          ((userprogVaddr m.mem m.runningThread).vaddrStart + first * pageSize) % 2 ^ 32 ≠ 0 := by
        rcases virtual with none | ⟨len, vaddrStart⟩
        · omega
        · rw [vaddrStart, userVaddrStart, pageSize]
          omega
      dsimp only at run
      rw [if_neg nonNull, bind_eq_ok] at run
      obtain ⟨⟨mapped, m2⟩, map, run⟩ := run
      obtain rfl := (laid.of_mem _).mapPages_true map
      cases run
      rw [pageSize] at below nonNull ⊢
      omega

/-- Setting bits clears none. -/
theorem Bytes.bit_of_setBits {mem : Bytes} {target : Nat → Nat} {count query : Nat}
    (clear : (mem.setBits target true count).bit query = false) : mem.bit query = false := by
  induction count with
  | zero => exact clear
  | succ count ih =>
      rw [Bytes.setBits, Bytes.bit_setBit] at clear
      split at clear
      · cases clear
      · exact ih clear

/-- A frame is only obtained where one was free, whatever bits have been set. -/
theorem freeFrames_of_alloc {mem : Bytes} {target : Nat → Nat} {count paddr : Nat}
    (marked : mem = m.mem.setBits target true count)
    (alloc : allocPhysicalPages { m with mem := mem } pf = .ok (paddr, m')) :
    1 ≤ (m.freeFrames pf).card := by
  obtain ⟨index, inside, clear, -⟩ := allocPhysicalPages_ok alloc
  rw [Machine.frameBit, marked] at clear
  apply Finset.card_pos.mpr
  exact ⟨index, Machine.mem_freeFrames.mpr ⟨inside, Bytes.bit_of_setBits clear⟩⟩

/-- `get_virtual_pages` for one page finds a clear bit and sets it. -/
theorem getVirtualPages_one (run : getVirtualPages m pf 1 = .ok (vaddr, m')) :
    (MemoryCall.virtualPages.virtualOf m pf).vaddrBitmap.HasRun m.mem 1 ∧
      ∃ target, m' = { m with mem := m.mem.setBits target true 1 } := by
  have hasRun : ∀ {btmp : Bitmap} {scanned : Option Nat},
      bitmapScan m.mem btmp 1 = .ok scanned →
        btmp.HasRun m.mem 1 ∧ ∃ first, scanned = some first := by
    intro btmp scanned scan
    obtain ⟨first, rfl, inside, clear, -⟩ := bitmapScan_one_ok scan
    refine ⟨⟨first, inside, fun offset offsetLt => ?_⟩, first, rfl⟩
    rw [Nat.lt_one_iff.mp offsetLt]
    exact clear
  cases pf with
  | kernel =>
      simp only [getVirtualPages, bind_eq_ok] at run
      obtain ⟨scanned, scan, run⟩ := run
      obtain ⟨has, first, rfl⟩ := hasRun scan
      simp only [setRun_one, bind_eq_ok, Except.ok.injEq, exists_eq_left', pure_eq_ok,
        Prod.mk.injEq] at run
      exact ⟨has, _, run.2.symm⟩
  | user =>
      simp only [getVirtualPages, bind_eq_ok] at run
      obtain ⟨scanned, scan, run⟩ := run
      obtain ⟨has, first, rfl⟩ := hasRun scan
      simp only [setRun_one, bind_eq_ok, Except.ok.injEq, exists_eq_left', pure_eq_ok,
        Prod.mk.injEq] at run
      obtain ⟨_, -, -, rfl⟩ := run
      exact ⟨has, _, rfl⟩

/-- Where one page cannot be had, `malloc_pages` does not return. -/
theorem Allocating.not_mallocPages_one (ready : Allocating m)
    (fails : ¬(MemoryCall.virtualPages.virtualOf m pf).vaddrBitmap.HasRun m.mem 1 ∨
      (m.freeFrames pf).card < 1) : mallocPages m pf 1 ≠ .ok (vaddr, m') := by
  intro run
  have bounds := ready.mallocPages_bounds (by decide) (by decide) run
  obtain ⟨m1, virtual, map⟩ := mallocPages_ok bounds.1.ne' run
  obtain ⟨hasRun, target, rfl⟩ := getVirtualPages_one virtual
  rcases fails with noRun | noFrame
  · exact noRun hasRun
  · rw [mapPages, bind_eq_ok] at map
    obtain ⟨⟨paddr, m2⟩, alloc, -⟩ := map
    exact absurd noFrame (Nat.not_lt.mpr (freeFrames_of_alloc rfl alloc))

/-! ## Each call -/

theorem Allocating.not_getKernelPages (ready : Allocating m) (positive : 1 ≤ pgCnt)
    (pgCntLt : pgCnt < 2 ^ 32) : getKernelPages m pgCnt ≠ .ok (0, m') := by
  intro run
  rw [getKernelPages, bind_eq_ok] at run
  obtain ⟨⟨first, m1⟩, pages, run⟩ := run
  have bounds := ready.mallocPages_bounds positive pgCntLt pages
  dsimp only at run
  rw [if_pos bounds.1.ne', bind_eq_ok] at run
  obtain ⟨m2, -, run⟩ := run
  cases run
  exact absurd bounds.1 (Nat.lt_irrefl 0)

theorem Allocating.not_getUserPages (ready : Allocating m) (positive : 1 ≤ pgCnt)
    (pgCntLt : pgCnt < 2 ^ 32) : getUserPages m pgCnt ≠ .ok (0, m') := by
  intro run
  rw [getUserPages, bind_eq_ok] at run
  obtain ⟨m1, acquired, run⟩ := run
  obtain ⟨⟨first, m2⟩, pages, run⟩ := bind_eq_ok.mp run
  obtain ⟨m3, -, run⟩ := bind_eq_ok.mp run
  obtain ⟨m4, -, run⟩ := bind_eq_ok.mp run
  cases run
  have ready1 := ready.locking (acquirePool_locking acquired)
  exact absurd (ready1.mallocPages_bounds positive pgCntLt pages).1 (Nat.lt_irrefl 0)

/-- `get_a_page` returns no frame where there is none. -/
theorem not_getAPage (noFrame : (m.freeFrames pf).card < 1) (result : Nat) :
    getAPage m pf vaddr ≠ .ok (result, m') := by
  intro run
  rw [getAPage, bind_eq_ok] at run
  obtain ⟨m1, acquired, run⟩ := run
  rw [← (acquirePool_locking acquired).freeFrames] at noFrame
  have none : ∀ {index paddr : Nat} {m2 : Machine},
      allocPhysicalPages { m1 with mem := m1.mem.setBit index true } pf ≠ .ok (paddr, m2) := by
    intro index paddr m2 alloc
    have free : 1 ≤ (m1.freeFrames pf).card :=
      @freeFrames_of_alloc m1 m2 pf _ (fun _ => index) 1 paddr rfl alloc
    exact absurd noFrame (Nat.not_lt.mpr free)
  dsimp only at run
  split at run
  · simp only [bitmapSet_one, bind_eq_ok, Except.ok.injEq, exists_eq_left', pure_eq_ok] at run
    obtain ⟨_, -, ⟨paddr, m2⟩, alloc, -⟩ := run
    exact none alloc
  · split at run
    · simp only [bitmapSet_one, bind_eq_ok, Except.ok.injEq, exists_eq_left', pure_eq_ok] at run
      obtain ⟨_, -, ⟨paddr, m2⟩, alloc, -⟩ := run
      exact none alloc
    · cases run

/-- `sys_malloc` of a size that it accepts. -/
theorem Allocating.not_sysMalloc {size : Nat} (ready : Allocating m)
    (accepted : 0 < size ∧ size < (m.pool (callerFlags m)).poolSize)
    (fails : ¬(MemoryCall.virtualPages.virtualOf m (callerFlags m)).vaddrBitmap.HasRun m.mem
      (pagesNeeded m size) ∨ (m.freeFrames (callerFlags m)).card < pagesNeeded m size) :
    sysMalloc m size ≠ .ok (0, m') := by
  intro run
  obtain ⟨kernelPages, userPages, laid⟩ := ready.laid
  rw [sysMalloc, sysMallocWith, if_neg (not_not_intro accepted), bind_eq_ok] at run
  obtain ⟨m1, acquired, run⟩ := run
  have locking := acquirePool_locking acquired
  have ready1 := ready.locking locking
  split at run
  · next large =>
    have sizeLt : size < 2 ^ 27 := accepted.2.trans_le (laid.poolSize_le _)
    obtain ⟨positive, pagesLe, -⟩ := largePages large sizeLt
    rw [mallocLarge] at run
    dsimp only at run
    rw [bind_eq_ok] at run
    obtain ⟨⟨page, m2⟩, source, run⟩ := run
    have bounds := ready1.mallocPages_bounds positive (by omega) source
    dsimp only at run
    rw [if_pos bounds.1.ne', bind_eq_ok] at run
    obtain ⟨m3, -, run⟩ := run
    rw [pure_eq_ok] at run
    have zero := congrArg Prod.fst (Except.ok.inj run)
    simp only [sizeofArena] at zero
    omega
  · next small =>
    rw [mallocBlock, bind_eq_ok] at run
    obtain ⟨desc, found, run⟩ := run
    obtain ⟨⟨obtained, m2⟩, filled, -⟩ := bind_eq_ok.mp run
    have descEq : desc =
        descAddr m.image.kBlockDescs (sizeClass m.mem m.image.kBlockDescs size) := by
      rw [locking.mem, acquirePool_image acquired, kBlockDesc] at found
      split at found
      · rw [← Except.ok.inj found, acquirePool_image acquired]
      · cases found
    rw [refill, locking.mem, descEq] at filled
    split at filled
    · next empty =>
      have one : pagesNeeded m size = 1 := by
        rw [pagesNeeded, if_neg small, if_pos empty]
      rw [one, ← locking.freeFrames] at fails
      obtain ⟨⟨page, m3⟩, source, -⟩ := bind_eq_ok.mp filled
      exact ready1.not_mallocPages_one (locking.virtualOf _ ▸ locking.mem ▸ fails) source
    · next notEmpty =>
      have none : pagesNeeded m size = 0 := by
        rw [pagesNeeded, if_neg small, if_neg notEmpty]
      rw [none] at fails
      rcases fails with noRun | few
      · exact noRun ⟨0, Nat.zero_le _, fun offset offsetLt => absurd offsetLt (Nat.not_lt_zero _)⟩
      · exact absurd few (Nat.not_lt_zero _)

/-- Only a request for pages can fail for want of them. -/
theorem MemoryCall.CannotBeMet.positive {call : MemoryCall} (fails : call.CannotBeMet m) :
    1 ≤ call.pages m := by
  rcases fails with ⟨vaddr, -, noRun⟩ | few
  · by_contra none
    rw [Nat.lt_one_iff.mp (Nat.not_le.mp none)] at noRun
    exact noRun ⟨0, Nat.zero_le _, fun offset offsetLt => absurd offsetLt (Nat.not_lt_zero _)⟩
  · omega

/-- A request that cannot be met fails cleanly exactly if `sys_malloc` refuses its size. -/
theorem failsCleanly_iff {call : MemoryCall} (ready : Allocating m) (fails : call.CannotBeMet m) :
    call.FailsCleanly m ↔ call.Refused m := by
  have positive := fails.positive
  constructor
  · rintro ⟨m', run, -⟩
    cases call with
    | mallocPages pf pgCnt =>
        have bounds := ready.mallocPages_bounds positive pgCnt.toNat_lt run
        exact absurd bounds.1 (Nat.lt_irrefl 0)
    | getKernelPages pgCnt => exact absurd run (ready.not_getKernelPages positive pgCnt.toNat_lt)
    | getUserPages pgCnt => exact absurd run (ready.not_getUserPages positive pgCnt.toNat_lt)
    | getAPage pf vaddr =>
        rcases fails with ⟨_, none, -⟩ | few
        · cases none
        · exact absurd run (not_getAPage few 0)
    | sysMalloc size =>
        intro accepted
        apply ready.not_sysMalloc accepted ?_ run
        rcases fails with ⟨vaddr, chosen, noRun⟩ | few
        · obtain rfl := Option.some.inj chosen
          exact .inl noRun
        · exact .inr few
  · intro refused
    cases call with
    | sysMalloc size =>
        refine ⟨m, ?_, fun _ => rfl, rfl, rfl⟩
        change sysMalloc m size.toNat = _
        rw [sysMalloc, sysMallocWith]
        exact if_pos refused
    | _ => cases refused

end

/-- After `mem_init` the main thread may call, and has too few frames for many pages. -/
theorem MemInitialised.allocating {m : Machine}
    (initial : MemInitialised 3840 3840 Machine.booted m) : Allocating m := by
  have placed := Machine.booted.image.descs_placed
  refine ⟨⟨3840, 3840, initial.heap.laid⟩, .inl ?_⟩
  rw [Machine.runningThread, initial.running]
  have zero : Machine.booted.mem.read32 (0xc009e000 + 128) = 0 := by decide
  refine Eq.trans (Bytes.read32_congr fun query lower _ => ?_) zero
  change 0xc009e000 + 128 ≤ query at lower
  exact initial.mem query (by omega) (by omega)

theorem MemInitialised.few {m : Machine} (initial : MemInitialised 3840 3840 Machine.booted m)
    {call : MemoryCall} (kernel : call.pool m = .kernel) (many : 3840 < call.pages m) :
    call.CannotBeMet m := by
  apply Or.inr
  rw [kernel]
  refine Nat.lt_of_le_of_lt (Finset.card_filter_le _ _) ?_
  rw [Finset.card_range, initial.heap.laid.frameCount_kernel]
  exact many

/-- The main thread asks for more than the kernel has. -/
theorem failsCleanly_refused :
    (MemoryCall.sysMalloc 0x2000000).FailsCleanly (memInit Machine.booted 0x2000000) := by
  obtain ⟨m, start, initial, -, caller, -, -⟩ := memInit_booted
  rw [start]
  have pages : (MemoryCall.sysMalloc 0x2000000).pages m = 8193 := by
    change pagesNeeded m 0x2000000 = 8193
    rw [pagesNeeded, if_pos (by decide)]
    decide
  have pool : (MemoryCall.sysMalloc 0x2000000).pool m = .kernel := caller
  have few : (MemoryCall.sysMalloc 0x2000000).CannotBeMet m := by
    apply initial.few pool
    rw [pages]
    decide
  apply (failsCleanly_iff initial.allocating few).mpr
  intro accepted
  rw [caller, initial.heap.laid.kernelSize] at accepted
  exact absurd accepted.2 (by decide)

/-- 5000 pages of the kernel's 3840. -/
theorem not_failsCleanly_5000 :
    (MemoryCall.getKernelPages 5000).CannotBeMet (memInit Machine.booted 0x2000000) ∧
      ¬(MemoryCall.getKernelPages 5000).FailsCleanly (memInit Machine.booted 0x2000000) := by
  obtain ⟨m, start, initial, -, -, -, -⟩ := memInit_booted
  rw [start]
  have many : 3840 < (MemoryCall.getKernelPages 5000).pages m := show 3840 < 5000 by decide
  refine ⟨initial.few rfl many, ?_⟩
  rintro ⟨m', run, -⟩
  exact initial.allocating.not_getKernelPages (by decide) (by decide) run

end Pumelo
