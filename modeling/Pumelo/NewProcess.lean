import Pumelo.UserFrames

/-!
# The frames of a new process

`process_execute` takes a page for the thread structure, pages for the bitmap of its virtual pages
and a page for the directory, all of them free before.
-/

namespace Pumelo

open Foundation PageWalk

/-- Pages of the kernel were obtained, and perhaps directories among them. -/
structure Machine.Adds (m m' : Machine) (dirs dirs' : Nat → Prop) : Prop where
  shares : m'.Shares dirs'
  cr3 : m'.cr3 = m.cr3
  keeps : m.KeepsUsed m'
  user : m'.freeFrames .user = m.freeFrames .user
  mono : ∀ dir, dirs dir → dirs' dir
  dirPages : ∀ page dir, dirs dir → HasRole heapSharing dirs m.tables (.shared page) dir →
    HasRole heapSharing dirs m'.tables (.shared page) dir

/-- A page was obtained and became a thread structure. -/
structure Machine.NewThread (m m' : Machine) (dirs : Nat → Prop) (thread own : Nat) : Prop where
  small : own < 65536
  place : thread = kernelHeapStart + 4096 * own
  adds : m.Adds m' dirs dirs
  grows : Grows own m m'
  left : (m'.freeFrames .kernel).card + 1 = (m.freeFrames .kernel).card
  clear : m.pageBit own = false
  bits : ∀ page < 2 ^ 18, m'.pageBit page = if page = own then true else m.pageBit page
  kstack : m'.mem.read32 thread = thread + 4096

/-- A process was prepared: the numbers of the page with its thread structure, of the first page of
its bitmap and of the page with its directory, and the frame of the directory. -/
structure Machine.NewProcess (m m' : Machine) (dirs : Nat → Prop) (own bits pgdir dir : Nat) :
    Prop where
  adds : m.Adds m' dirs (fun other => other = dir ∨ dirs other)
  grows : Grows own m m'
  left : (m'.freeFrames .kernel).card + 25 = (m.freeFrames .kernel).card
  ownLt : own < 65536
  ownPage : m.pageBit own = false ∧ m'.pageBit own = true
  bitsLe : bits + 23 ≤ 65536
  bitsPages : ∀ k < 23, m.pageBit (bits + k) = false ∧ m'.pageBit (bits + k) = true
  otherPages : ∀ page < 65536, page ≠ own → (page < bits ∨ bits + 23 ≤ page) → page ≠ pgdir →
    m'.pageBit page = m.pageBit page
  prepared : Prepared (kernelHeapStart + 4096 * own) (kernelHeapStart + 4096 * bits) m'
  pgdirLt : pgdir < 65536
  pgdirWord : pgdirOf m'.mem (kernelHeapStart + 4096 * own) = kernelHeapStart + 4096 * pgdir
  unused : ¬m.FrameUsed dir
  dirPage : HasRole heapSharing dirs m'.tables (.shared pgdir) dir
  bare : ∀ number frame, ¬HasRole heapSharing (fun other => other = dir) m'.tables
    (.page dir number) frame

section

variable {m m' m'' : Machine} {dirs dirs' dirs'' : Nat → Prop} {thread own : Nat}

namespace Machine.Adds

theorem trans (first : m.Adds m' dirs dirs') (second : m'.Adds m'' dirs' dirs'') :
    m.Adds m'' dirs dirs'' where
  shares := second.shares
  cr3 := second.cr3.trans first.cr3
  keeps := first.keeps.trans second.keeps
  user := second.user.trans first.user
  mono dir isDir := second.mono dir (first.mono dir isDir)
  dirPages page dir isDir held := second.dirPages page dir (first.mono dir isDir)
    (first.dirPages page dir isDir held)

/-- A directory that was there is not disturbed. -/
theorem undisturbed (adds : m.Adds m' dirs dirs') (shares : m.Shares dirs) {dir : Nat}
    (isDir : dirs dir) :
    SamePrivate heapSharing m.tables m'.tables dir :=
  fun frame mine query lower upper =>
    adds.keeps.words frame (shares.owned.private_used isDir mine) query lower upper

end Machine.Adds

/-- The pages with directories are in use, so they are none of those that were obtained. -/
theorem Obtains.no_directory {start pgCnt page dir : Nat} (obtains : Obtains m m' start pgCnt)
    (shares : m.Shares dirs) (isDir : dirs dir)
    (held : HasRole heapSharing dirs m.tables (.shared page) dir) :
    page < start ∨ start + pgCnt ≤ page := by
  by_contra within
  have clear := obtains.clear page (by omega) (by omega)
  rw [shares.marked dir page isDir held] at clear
  cases clear

namespace Machine.Shares

/-- Stores into the kernel's heap. -/
theorem heapStores (shares : m.Shares dirs) {mem : Bytes}
    (same : ∀ query < kernelHeapStart, mem query = m.mem query) :
    m.Adds { m with mem := mem } dirs dirs where
  shares := (@markHeap m dirs shares mem same).shares
  cr3 := rfl
  keeps := ⟨(@markHeap m dirs shares mem same).used, fun _ _ _ _ _ => rfl⟩
  user := shares.freeFrames_heap same .user
  mono _ isDir := isDir
  dirPages _ _ _ held := held

/-- `get_kernel_pages` -/
theorem getPages (shares : m.Shares dirs) {pgCnt vaddr : Nat} (positive : 1 ≤ pgCnt)
    (fits : pgCnt < 2 ^ 32)
    (run : getKernelPages m pgCnt = .ok (vaddr, m')) :
    ∃ start, start + pgCnt ≤ 65536 ∧ vaddr = kernelHeapStart + 4096 * start ∧
      Obtains m m' start pgCnt ∧
      (m'.freeFrames .kernel).card + pgCnt = (m.freeFrames .kernel).card ∧ m.Adds m' dirs dirs := by
  obtain ⟨start, frames, startLt, rfl, got, obtains, -⟩ := shares.getKernel positive fits run
  have few := got.few
  refine ⟨start, by omega, rfl, obtains, got.left, got.shares, got.cr3, got.keeps, got.user,
    fun _ isDir => isDir, ?_⟩
  intro page dir isDir held
  have apart := obtains.no_directory shares isDir held
  have length := got.length
  refine (got.enters _ _).mpr (.inr ⟨fun k lt same => ?_, held⟩)
  injection same with same
  omega

/-- `create_page_dir` -/
theorem newDirectory {page dir : Nat} (shares : m.Shares dirs)
    (new : m.NewDirectory m' dirs page dir) :
    m.Adds m' dirs (fun other => other = dir ∨ dirs other) where
  shares := new.shares
  cr3 := new.cr3
  keeps := new.keeps
  user := new.user
  mono _ isDir := .inr isDir
  dirPages other old isDir held := by
    have apart := new.obtains.no_directory shares isDir held
    refine (new.holds (.shared other) old).mpr ?_
    rw [if_neg]
    · exact held
    · intro same
      injection same with same
      omega

/-- `get_kernel_pages` and `Thread_init`. -/
theorem newThread (shares : m.Shares dirs) {name : List UInt8} (fits : NameFits name)
    (run : getKernelPages m 1 = .ok (thread, m')) :
    ∃ own, m.NewThread (threadInit m' thread name 31) dirs thread own := by
  obtain ⟨own, ownLe, threadEq, obtains, left, adds⟩ := shares.getPages (by decide) (by decide) run
  have lower : kernelHeapStart ≤ thread := by
    rw [threadEq]
    exact Nat.le_add_right _ _
  have pageFits : thread + 4096 < 2 ^ 32 := by
    rw [threadEq, kernelHeapStart]
    omega
  obtain ⟨kernelPages, userPages, laid⟩ := adds.shares.laid
  have below : ∀ query < kernelHeapStart, (threadInit m' thread name 31).mem query = m'.mem query :=
    fun query low => threadInit_of_outside m' 31 fits (by omega)
  have initAdds : m'.Adds (threadInit m' thread name 31) dirs dirs := adds.shares.heapStores below
  have initGrows : Grows own m' (threadInit m' thread name 31) :=
    .of_own laid fun query off => threadInit_of_outside m' 31 fits (by omega)
  have frames : (threadInit m' thread name 31).freeFrames .kernel = m'.freeFrames .kernel :=
    adds.shares.freeFrames_heap below _
  refine ⟨own, by omega, threadEq, adds.trans initAdds, (obtains.grows own).trans initGrows,
    by rwa [frames],
    obtains.clear own (Nat.le_refl _) (by omega), fun page small => ?_,
    (threadInit_words m' thread name 31 pageFits).2.1⟩
  refine (adds.shares.pageBit_heap below small).trans ((obtains.bits page small).trans ?_)
  by_cases same : page = own
  · rw [if_pos (by omega), if_pos same]
  · rw [if_neg (by omega), if_neg same]

/-- `create_user_vaddr_bitmap` for a page in use. -/
theorem createBitmap (shares : m.Shares dirs) (ownLt : own < 65536) (used : m.pageBit own = true)
    (threadEq : thread = kernelHeapStart + 4096 * own)
    (run : createUserVaddrBitmap m thread = .ok m') :
    ∃ bits, bits + 23 ≤ 65536 ∧ (∀ k < 23, m.pageBit (bits + k) = false) ∧
      (∀ page < 2 ^ 18, m'.pageBit page =
        if bits ≤ page ∧ page < bits + 23 then true else m.pageBit page) ∧
      (m'.freeFrames .kernel).card + 23 = (m.freeFrames .kernel).card ∧ m.Adds m' dirs dirs ∧
      Prepared thread (kernelHeapStart + 4096 * bits) m' := by
  obtain ⟨kernelPages, userPages, laid⟩ := shares.laid
  obtain ⟨bits', prepared⟩ := createUserVaddrBitmap_prepared laid used (threadEq ▸ run)
  have len := userBitmapLen_eq
  have pgCnt : divRoundUp userBitmapLen pageSize = 23 := by decide
  have lower : kernelHeapStart ≤ thread := by
    rw [threadEq]
    exact Nat.le_add_right _ _
  rw [createUserVaddrBitmap, pgCnt, bind_eq_ok] at run
  obtain ⟨⟨first, m1⟩, got, run⟩ := run
  have below : ∀ query < kernelHeapStart,
      (m.mem.write32 (thread + 136) userVaddrStart) query = m.mem query :=
    fun query low => Bytes.write32_of_outside _ _ (by omega)
  have stores := shares.heapStores below
  obtain ⟨bits, bitsLe, rfl, obtains, left, adds⟩ :=
    stores.shares.getPages (by decide) (by decide) got
  -- the page is in use, so it is none of the new ones
  have others : own < bits ∨ bits + 23 ≤ own := by
    by_contra within
    have clear := obtains.clear own (by omega) (by omega)
    rw [shares.pageBit_heap below (by omega), used] at clear
    cases clear
  have bitsLt : kernelHeapStart + 4096 * bits < 2 ^ 32 := by
    rw [kernelHeapStart]
    omega
  have stored : (userprogVaddr
    ((m1.mem.write32 (thread + 132) (kernelHeapStart + 4096 * bits)).write32
      (thread + 128) userBitmapLen) thread).vaddrBitmap =
        ⟨userBitmapLen, kernelHeapStart + 4096 * bits⟩ := by
    rw [userprogVaddr, Bytes.read32_write32_self _ (by rw [len]; decide),
      Bytes.read32_write32_of_disjoint _ _ (by omega), Bytes.read32_write32_self _ bitsLt]
  cases run
  simp only [Machine.store32, stored, bitmapInit] at prepared ⊢
  have below1 : ∀ query < kernelHeapStart,
      (((m1.mem.write32 (thread + 132) (kernelHeapStart + 4096 * bits)).write32 (thread + 128)
        userBitmapLen).fill (kernelHeapStart + 4096 * bits) 0 userBitmapLen) query =
          m1.mem query := by
    intro query low
    rw [Bytes.fill_of_outside _ _ (by omega), Bytes.write32_of_outside _ _ (by omega),
      Bytes.write32_of_outside _ _ (by omega)]
  have fills := adds.shares.heapStores below1
  have same : bits' = kernelHeapStart + 4096 * bits := by
    have word := congrArg (fun vaddr => vaddr.vaddrBitmap.bitmapBits) prepared.vaddr
    simp only [userprogVaddr] at word
    rw [Bytes.read32_fill_of_disjoint _ _ (by omega),
      Bytes.read32_write32_of_disjoint _ _ (by omega),
      ← threadEq, Bytes.read32_write32_self _ bitsLt] at word
    exact word.symm
  refine ⟨bits, bitsLe, fun k lt => ?_, fun page small => ?_, ?_,
    (stores.trans adds).trans fills, ?_⟩
  · rw [← shares.pageBit_heap below (by omega)]
    exact obtains.clear _ (by omega) (by omega)
  · rw [adds.shares.pageBit_heap below1 small, obtains.bits _ small]
    exact congrArg (ite _ true) (shares.pageBit_heap below small)
  · rw [adds.shares.freeFrames_heap below1, left]
    exact congrArg Finset.card (shares.freeFrames_heap below _)
  · rw [← threadEq, same] at prepared
    exact prepared

/-- `process_execute` up to the lists. -/
theorem prepare (shares : m.Shares dirs) {execution : Execution} (fits : NameFits execution.name)
    (run : prepareProcess m execution = .ok (thread, m')) :
    ∃ own bits pgdir dir, thread = kernelHeapStart + 4096 * own ∧
      m.NewProcess m' dirs own bits pgdir dir := by
  obtain ⟨kernelPages, userPages, laid⟩ := shares.laid
  rw [prepareProcess, bind_eq_ok] at run
  obtain ⟨⟨page, m1⟩, got, run⟩ := run
  obtain ⟨m3, virtual, run⟩ := bind_eq_ok.mp run
  obtain ⟨⟨pgdirWord, m5⟩, made, run⟩ := bind_eq_ok.mp run
  obtain ⟨own, new1⟩ := shares.newThread fits got
  cases run
  have threadEq := new1.place
  have ownLt := new1.small
  have lower : kernelHeapStart ≤ thread := by
    rw [threadEq]
    exact Nat.le_add_right _ _
  have used2 := (new1.bits own (by omega)).trans (if_pos rfl)
  have laid2 := laid.congr new1.grows.layout
  -- `create_user_vaddr_bitmap`
  obtain ⟨bits, bitsLe, bitsClear, bitsPages, left3, adds3, prepared3⟩ :=
    new1.adds.shares.createBitmap ownLt used2 threadEq virtual
  obtain ⟨grows3, used3, kept3⟩ :=
    createUserVaddrBitmap_grows laid2 (by omega) used2 threadEq virtual
  have laid3 := laid2.congr grows3.layout
  have kstack3 : m3.mem.read32 thread = thread + 4096 := by
    rw [← new1.kstack]
    exact Bytes.read32_congr fun query low high => kept3 query (by omega) (by omega) (by omega)
  -- `Thread_create`
  have vaddr4 : ∀ query, thread + 128 ≤ query → query < thread + 140 →
      (threadCreate m3.mem execution.entry thread execution.processStart execution.filename) query =
        m3.mem query := by
    intro query low high
    rw [Threads.threadCreate_eq _ _ kstack3]
    simp (disch := omega) only [Bytes.write32_of_outside]
  generalize created : threadCreate m3.mem execution.entry thread execution.processStart
    execution.filename = mem at made vaddr4
  have away4 : ∀ query, (query < thread ∨ thread + 4096 ≤ query) → mem query = m3.mem query := by
    intro query off
    rw [← created]
    exact threadCreate_of_outside kstack3 _ _ _ (by omega)
  have adds4 := adds3.shares.heapStores fun query low => away4 query (by omega)
  have prepared4 : Prepared thread (kernelHeapStart + 4096 * bits) { m3 with mem := mem } :=
    prepared3.congr (.of_eq rfl rfl) vaddr4
  have grows4 : Grows own m3 { m3 with mem := mem } :=
    .of_own laid3 fun query off => away4 query (by omega)
  have laid4 := laid3.congr grows4.layout
  have used4 := grows4.marks own (by omega) used3
  -- `create_page_dir`
  obtain ⟨pgdir, dir, rfl, new⟩ := adds4.shares.createDir made
  have adds5 := adds4.shares.newDirectory new
  have grows5 := new.obtains.grows own
  have kept5 : ∀ query, thread ≤ query → query < thread + 4096 → m5.mem query = mem query := by
    intro query low high
    have other := (new.obtains.grows (own + 1)).heap own (by omega) (by omega) used4
    exact other query (threadEq ▸ low) (by rw [← heapPage_end, ← threadEq]; exact high)
  have prepared5 : Prepared thread (kernelHeapStart + 4096 * bits) m5 :=
    prepared4.congr grows5.layout fun query low high => kept5 query (by omega) (by omega)
  have away6 : ∀ query, (query < thread + 108 ∨ thread + 112 ≤ query) →
      (m5.mem.write32 (thread + 108) (0xc0100000 + 4096 * pgdir)) query = m5.mem query :=
    fun query off => Bytes.write32_of_outside _ _ (by omega)
  have adds6 := adds5.shares.heapStores fun query low => away6 query (by omega)
  have grows6 : Grows own m5
      { m5 with mem := m5.mem.write32 (thread + 108) (0xc0100000 + 4096 * pgdir) } :=
    .of_own (laid4.congr grows5.layout) fun query off => away6 query (by omega)
  have adds := (((new1.adds.trans adds3).trans adds4).trans adds5).trans adds6
  have before := (new1.adds.trans adds3).trans adds4
  have later := (grows4.trans grows5).trans grows6
  have pgdirLt := new.small
  have left : (({ m5 with mem := m5.mem.write32 (thread + 108) (0xc0100000 + 4096 * pgdir) } :
      Machine).freeFrames .kernel).card + 25 = (m.freeFrames .kernel).card := by
    have left5 := new.left
    rw [adds3.shares.freeFrames_heap fun query low => away4 query (by omega)] at left5
    have left1 := new1.left
    rw [adds5.shares.freeFrames_heap fun query low => away6 query (by omega)]
    omega
  refine ⟨own, bits, pgdir, dir, threadEq, adds, (new1.grows.trans grows3).trans later, left, ownLt,
    ⟨new1.clear, ?_⟩, bitsLe, fun k lt => ⟨?_, ?_⟩, fun other small notOwn notBits notDir => ?_, ?_,
    pgdirLt, ?_, fun used => new.unused (before.keeps.used dir used), ?_, ?_⟩
  · exact later.marks own (by omega) used3
  · have clear2 := bitsClear k lt
    rw [new1.bits _ (by omega)] at clear2
    split at clear2
    · cases clear2
    · exact clear2
  · exact later.marks _ (by omega) ((bitsPages _ (by omega)).trans (if_pos ⟨by omega, by omega⟩))
  · calc ({ m5 with mem := m5.mem.write32 (thread + 108) (0xc0100000 + 4096 * pgdir) } :
          Machine).pageBit other = m5.pageBit other :=
        adds5.shares.pageBit_heap (fun query low => away6 query (by omega)) (by omega)
      _ = ({ m3 with mem := mem } : Machine).pageBit other := by
        rw [new.obtains.bits other (by omega), if_neg (by omega)]
      _ = m3.pageBit other :=
        adds3.shares.pageBit_heap (fun query low => away4 query (by omega)) (by omega)
      _ = m.pageBit other := by
        rw [bitsPages other (by omega), if_neg (by omega), new1.bits other (by omega),
          if_neg notOwn]
  · rw [← threadEq]
    exact prepared5.congr (.of_eq rfl rfl) fun query low high => away6 query (by omega)
  · rw [← threadEq, pgdirOf]
    exact Bytes.read32_write32_self _ (by omega)
  · exact (new.holds (.shared pgdir) dir).mpr (if_pos rfl ▸ rfl)
  · intro number frame held
    have held' := (new.holds _ _).mp
      ((@private_of_page _ (fun other => other = dir ∨ dirs other) _ _ _ (.inl rfl) _).mp held)
    rw [if_neg (by simp)] at held'
    obtain ⟨page, shared⟩ := adds4.shares.owned.directory dir held'.1
    exact new.unused (adds4.shares.owned.used _ _ shared)

end Machine.Shares

end

end Pumelo
