import Pumelo.Scheduler
import Pumelo.UserPages

/-!
# Processes

`create_page_dir` and `process_execute` of `proc.c`, and `thread_start` and `kthread_init`
of `thread.c` with the pages that they obtain.  A page is obtained where its bit was clear,
and what lies in pages whose bits are set stays as it is, so that a new thread structure is
none of the old ones.
-/

namespace Pumelo

open Foundation PageWalk

/-- `memcpy` of words, as far as directories and tables see it. -/
def copyVirt (m : Machine) (dst src : Nat) : (count : Nat) → Except Fault Machine
  | 0 => .ok m
  | count + 1 => do
      let m ← copyVirt m dst src count
      writeVirt m (dst + 4 * count) (← readVirt m (src + 4 * count))

/-- `create_page_dir` -/
def createPageDir (m : Machine) : Except Fault (Nat × Machine) := do
  let (pageDirVaddr, m) ← getKernelPages m 1
  if pageDirVaddr = 0 then return (0, m)
  let m ← copyVirt m (pageDirVaddr + 0x300 * 4) (0xfffff000 + 0x300 * 4) 256
  let newPageDirPhyAddr ← addrV2p m pageDirVaddr
  let m ← writeVirt m (pageDirVaddr + 1023 * 4) (newPageDirPhyAddr ||| pgFlags)
  return (pageDirVaddr, m)

/-- The last part of `process_execute`: the thread is entered in both lists. The list of
all threads is searched for the entry of the other list. -/
def enlistProcess (m : Machine) (thread : Nat) : Except Fault Machine := do
  let (oldStatus, m) := intrDisable m
  assert ((← listFind m.mem m.image.threadReadyList (generalTag thread)) = false)
    "!list_find(&thread_ready_list, &thread->general_tag)"
  let m := listAppend m m.image.threadReadyList (generalTag thread)
  assert ((← listFind m.mem m.image.threadListAll (generalTag thread)) = false)
    "!list_find(&thread_list_all, &thread->general_tag)"
  let m := listAppend m m.image.threadListAll (allListTag thread)
  return (setIntrStatus m oldStatus).2

/-- What a new process is to run: `process_start` with its file. -/
structure Execution where
  name : List UInt8
  entry : Nat
  processStart : Nat
  filename : Nat

/-- `process_execute` up to where the thread is entered in the lists. -/
def prepareProcess (m : Machine) (execution : Execution) : Except Fault (Nat × Machine) := do
  let (thread, m) ← getKernelPages m 1
  let m := threadInit m thread execution.name 31
  let m ← createUserVaddrBitmap m thread
  let m := { m with
    mem := threadCreate m.mem execution.entry thread execution.processStart execution.filename }
  let (pgdir, m) ← createPageDir m
  return (thread, m.store32 (thread + 108) pgdir)

/-- `process_execute`, with the new thread. -/
def processExecute (m : Machine) (execution : Execution) : Except Fault (Nat × Machine) := do
  let (thread, m) ← prepareProcess m execution
  let m ← enlistProcess m thread
  return (thread, m)

/-- `thread_start` with the page that it obtains. -/
def threadStartPage (m : Machine) (start : Start) : Except Fault (Nat × Machine) := do
  let (thread, m) ← getKernelPages m 1
  let m ← threadStart m thread start
  return (thread, m)

/-- `kthread_init` with the page that it obtains for the idle thread. -/
def kthreadInitPage (m : Machine) (entry idle : Nat) : Except Fault Machine := do
  let m := listInit m m.image.threadReadyList
  let m := listInit m m.image.threadListAll
  let m ← makeMainThread m
  let (idleThread, m) ← threadStartPage m ⟨nameBytes ['i', 'd', 'l', 'e'], 10, entry, idle, 0⟩
  return { m with idleThread := idleThread }

/-! ## Pages that are obtained -/

theorem heapPage_end (index : Nat) :
    kernelHeapStart + 4096 * index + 4096 = kernelHeapStart + 4096 * (index + 1) := by
  rw [Nat.mul_succ, Nat.add_assoc]

/-- Pages were obtained, and what lies in pages that were in use stays as it is, in all but
one of them. -/
structure Grows (own : Nat) (m m' : Machine) : Prop where
  same : m' = { m with mem := m'.mem, tables := m'.tables }
  marks : ∀ index, index < 2 ^ 18 → m.pageBit index = true → m'.pageBit index = true
  below : ∀ query, (query < 0xc009a000 ∨ 0xc009e000 ≤ query) → query < kernelHeapStart →
    m'.mem query = m.mem query
  heap : ∀ index, index < 2 ^ 18 → index ≠ own → m.pageBit index = true → ∀ query,
    kernelHeapStart + 4096 * index ≤ query → query < kernelHeapStart + 4096 * (index + 1) →
    m'.mem query = m.mem query

section

variable {m m' m'' : Machine} {kernelPages userPages own start pgCnt : Nat}

theorem Obtains.grows (obtains : Obtains m m' start pgCnt) (own : Nat) : Grows own m m' where
  same := obtains.same
  marks index small set := by
    rw [obtains.bits index small]
    split
    · rfl
    · exact set
  below query off low := obtains.bytes query off (.inl (by omega))
  heap index small _ set query lower upper := by
    have other : index < start ∨ start + pgCnt ≤ index := by
      by_contra within
      have clear := obtains.clear index (by omega) (by omega)
      rw [set] at clear
      cases clear
    simp only [kernelHeapStart] at lower upper
    apply obtains.bytes query (by omega)
    simp only [kernelHeapStart]
    omega

/-- What is written into the obtained pages, or into the page itself, is no matter. -/
theorem Obtains.grows_within (laid : Laid m kernelPages userPages)
    (obtains : Obtains m m' start pgCnt) {mem : Bytes}
    (away : ∀ query, (query < kernelHeapStart + 4096 * own ∨
        kernelHeapStart + 4096 * (own + 1) ≤ query) →
      (query < kernelHeapStart + 4096 * start ∨
        kernelHeapStart + 4096 * (start + pgCnt) ≤ query) → mem query = m'.mem query) :
    Grows own m { m' with mem := mem } where
  same := by rw [obtains.same]
  marks index small set := by
    have kernelLe := laid.kernelPages_le
    have userLe := laid.userPages_le
    have kernelVaddr : m'.kernelVaddr = m.kernelVaddr := by rw [obtains.same]
    have bitmapBits : m'.kernelVaddr.vaddrBitmap.bitmapBits =
        0xc009a000 + kernelPages / 8 + userPages / 8 := by rw [kernelVaddr, laid.vaddr]
    have kept : (8 * m'.kernelVaddr.vaddrBitmap.bitmapBits + index) / 8 < kernelHeapStart := by
      simp only [kernelHeapStart]
      omega
    have bit : m'.kernelVaddr.vaddrBitmap.bit mem index = m'.pageBit index :=
      Bytes.bit_congr (away _ (.inl (by omega)) (.inl (by omega)))
    exact bit.trans ((obtains.grows own).marks index small set)
  below query off low :=
    (away query (.inl (by omega)) (.inl (by omega))).trans
      ((obtains.grows own).below query off low)
  heap index small other set query lower upper := by
    have outside : index < start ∨ start + pgCnt ≤ index := by
      by_contra within
      have clear := obtains.clear index (by omega) (by omega)
      rw [set] at clear
      cases clear
    exact (away query (by omega) (by omega)).trans
      ((obtains.grows own).heap index small other set query lower upper)

namespace Grows

theorem trans (first : Grows own m m') (second : Grows own m' m'') : Grows own m m'' where
  same := by rw [second.same, first.same]
  marks index small set := second.marks index small (first.marks index small set)
  below query off low := (second.below query off low).trans (first.below query off low)
  heap index small other set query lower upper :=
    (second.heap index small other (first.marks index small set) query lower upper).trans
      (first.heap index small other set query lower upper)

theorem layout (grows : Grows own m m') : SameLayout m m' := by
  rw [grows.same]
  exact .of_eq rfl rfl

/-- Tables are not in pages. -/
theorem of_tables (own : Nat) (m : Machine) (tables : Words) :
    Grows own m { m with tables := tables } :=
  ⟨rfl, fun _ _ set => set, fun _ _ _ => rfl, fun _ _ _ _ _ _ _ => rfl⟩

/-- A change within the page itself. -/
theorem of_own (laid : Laid m kernelPages userPages) {mem : Bytes}
    (away : ∀ query, (query < kernelHeapStart + 4096 * own ∨
      kernelHeapStart + 4096 * (own + 1) ≤ query) → mem query = m.mem query) :
    Grows own m { m with mem := mem } where
  same := rfl
  marks index small set := by
    have kernelLe := laid.kernelPages_le
    have userLe := laid.userPages_le
    have bitmapBits : m.kernelVaddr.vaddrBitmap.bitmapBits =
        0xc009a000 + kernelPages / 8 + userPages / 8 := by rw [laid.vaddr]
    refine Eq.trans (Bytes.bit_congr (away _ (.inl ?_))) set
    simp only [kernelHeapStart]
    omega
  below query _ low := away query (.inl (by omega))
  heap index _ other _ query lower upper := away query (by omega)

end Grows

/-- `memcpy` within directories and tables. -/
theorem copyVirt_tables {dst src count : Nat} (run : copyVirt m dst src count = .ok m') :
    ∃ tables, m' = { m with tables := tables } := by
  induction count generalizing m' with
  | zero =>
      cases run
      exact ⟨m.tables, rfl⟩
  | succ count ih =>
      rw [copyVirt, bind_eq_ok] at run
      obtain ⟨between, first, run⟩ := run
      obtain ⟨word, -, run⟩ := bind_eq_ok.mp run
      obtain ⟨tables, rfl⟩ := ih first
      obtain ⟨slot, -, rfl⟩ := writeVirt_ok run
      exact ⟨_, rfl⟩

/-- `create_page_dir` obtains a page. -/
theorem createPageDir_grows (laid : Laid m kernelPages userPages) {pgdir : Nat}
    (run : createPageDir m = .ok (pgdir, m')) (own : Nat) : Grows own m m' := by
  rw [createPageDir, bind_eq_ok] at run
  obtain ⟨⟨page, m1⟩, got, run⟩ := run
  obtain ⟨start, -, rfl, obtains⟩ := getKernelPages_obtains laid (by decide) (by decide) got
  have nonNull : kernelHeapStart + 4096 * start ≠ 0 := by
    simp only [kernelHeapStart]
    omega
  dsimp only at run
  rw [if_neg nonNull, bind_eq_ok] at run
  obtain ⟨m2, copied, run⟩ := run
  obtain ⟨paddr, -, run⟩ := bind_eq_ok.mp run
  obtain ⟨m3, stored, run⟩ := bind_eq_ok.mp run
  cases run
  obtain ⟨tables, rfl⟩ := copyVirt_tables copied
  obtain ⟨slot, -, rfl⟩ := writeVirt_ok stored
  exact (obtains.grows own).trans (.of_tables own m1 _)

/-- `create_user_vaddr_bitmap` for a page in use obtains pages, and writes three words of
the page. -/
theorem createUserVaddrBitmap_grows (laid : Laid m kernelPages userPages) (small : own < 2 ^ 17)
    (used : m.pageBit own = true) {thread : Nat} (threadEq : thread = kernelHeapStart + 4096 * own)
    (run : createUserVaddrBitmap m thread = .ok m') :
    Grows own m m' ∧ m'.pageBit own = true ∧ ∀ query, thread ≤ query → query < thread + 4096 →
      (query < thread + 128 ∨ thread + 140 ≤ query) → m'.mem query = m.mem query := by
  have kernelLe := laid.kernelPages_le
  have len := userBitmapLen_eq
  have pgCnt : divRoundUp userBitmapLen pageSize = 23 := by decide
  rw [createUserVaddrBitmap, pgCnt, bind_eq_ok] at run
  obtain ⟨⟨bits, m1⟩, got, run⟩ := run
  have word : ∀ query, (query < thread + 136 ∨ thread + 140 ≤ query) →
      (m.store32 (thread + 136) userVaddrStart).mem query = m.mem query :=
    fun query off => Bytes.write32_of_outside _ _ (by omega)
  have stores : Grows own m (m.store32 (thread + 136) userVaddrStart) :=
    .of_own laid fun query off => word query (by omega)
  have laid0 := laid.congr stores.layout
  obtain ⟨start, inside, bitsEq, obtains⟩ :=
    getKernelPages_obtains laid0 (by decide) (by decide) got
  -- the page is in use, so it is none of the new ones
  have used0 := stores.marks own (by omega) used
  have others : own < start ∨ start + 23 ≤ own := by
    by_contra within
    have clear := obtains.clear own (by omega) (by omega)
    rw [used0] at clear
    cases clear
  have bitsLt : bits < 2 ^ 32 := by
    rw [bitsEq]
    simp only [kernelHeapStart]
    omega
  have stored : (userprogVaddr ((m1.mem.write32 (thread + 132) bits).write32 (thread + 128)
      userBitmapLen) thread).vaddrBitmap = ⟨userBitmapLen, bits⟩ := by
    rw [userprogVaddr, Bytes.read32_write32_self _ (by rw [len]; decide),
      Bytes.read32_write32_of_disjoint _ _ (by omega), Bytes.read32_write32_self _ bitsLt]
  cases run
  simp only [Machine.store32, stored, bitmapInit]
  have away : ∀ query, (query < thread + 128 ∨ thread + 136 ≤ query) →
      (query < bits ∨ bits + 4096 * 23 ≤ query) →
      (((m1.mem.write32 (thread + 132) bits).write32 (thread + 128) userBitmapLen).fill bits 0
        userBitmapLen) query = m1.mem query := by
    intro query offWords offBits
    rw [Bytes.fill_of_outside _ _ (by omega), Bytes.write32_of_outside _ _ (by omega),
      Bytes.write32_of_outside _ _ (by omega)]
  have grows := @Obtains.grows_within _ _ kernelPages userPages own start 23 laid0 obtains _
    fun query offOwn offNew => away query (by omega) (by omega)
  refine ⟨stores.trans grows, grows.marks own (by omega) used0, ?_⟩
  intro query lower upper off
  have kept := (obtains.grows (own + 1)).heap own (by omega) (by omega) used0 query
    (threadEq ▸ lower)
    (by rw [← heapPage_end, ← threadEq]; exact upper)
  exact (away query (by omega) (by omega)).trans (kept.trans (word query (by omega)))

/-- `process_execute` prepares a thread structure in a page that was free. -/
theorem prepareProcess_ok (laid : Laid m kernelPages userPages)
    (main : m.mainThread < kernelHeapStart)
    {execution : Execution} (fits : NameFits execution.name) {thread : Nat}
    (run : prepareProcess m execution = .ok (thread, m')) :
    ∃ own, own < 8 * (kernelPages / 8) ∧ thread = kernelHeapStart + 4096 * own ∧
      m.pageBit own = false ∧ m'.pageBit own = true ∧ Grows own m m' ∧
      statusOf m'.mem thread = TaskStatus.ready.code ∧
      m'.mem.read32 (thread + 308) = stackMagic := by
  have kernelLe := laid.kernelPages_le
  rw [prepareProcess, bind_eq_ok] at run
  obtain ⟨⟨page, m1⟩, got, run⟩ := run
  obtain ⟨own, inside, threadEq, obtains⟩ :=
    getKernelPages_obtains laid (by decide) (by decide) got
  obtain ⟨m3, virtual, run⟩ := bind_eq_ok.mp run
  obtain ⟨⟨pgdir, m5⟩, dir, run⟩ := bind_eq_ok.mp run
  cases run
  have clear := obtains.clear own (Nat.le_refl _) (by omega)
  have used1 : m1.pageBit own = true := by
    rw [obtains.bits own (by omega), if_pos ⟨Nat.le_refl _, by omega⟩]
  have grows1 := obtains.grows own
  have laid1 := laid.congr grows1.layout
  have pageFits : thread + 4096 < 2 ^ 32 := by
    rw [threadEq]
    simp only [kernelHeapStart]
    omega
  -- `Thread_init`
  have notMain : thread ≠ m1.mainThread := by
    rw [obtains.same]
    simp only
    omega
  obtain ⟨status, kstack, magic⟩ := threadInit_words m1 thread execution.name 31 pageFits
  rw [if_neg notMain] at status
  have grows2 : Grows own m1 (threadInit m1 thread execution.name 31) :=
    .of_own laid1 fun query off => threadInit_of_outside m1 31 fits (by omega)
  have laid2 := laid1.congr grows2.layout
  have used2 := grows2.marks own (by omega) used1
  -- `create_user_vaddr_bitmap`
  obtain ⟨grows3, used3, kept3⟩ :=
    createUserVaddrBitmap_grows laid2 (by omega) used2 threadEq virtual
  have laid3 := laid2.congr grows3.layout
  have word3 : ∀ disp, disp = 0 ∨ disp = 4 ∨ disp = 308 → m3.mem.read32 (thread + disp) =
      (threadInit m1 thread execution.name 31).mem.read32 (thread + disp) := by
    intro disp which
    exact Bytes.read32_congr fun query lower upper => kept3 query (by omega) (by omega) (by omega)
  -- `Thread_create`
  have kstack3 : m3.mem.read32 thread = thread + 4096 := (word3 0 (.inl rfl)).trans kstack
  generalize created : threadCreate m3.mem execution.entry thread execution.processStart
    execution.filename = mem at dir
  have away4 : ∀ query, (query < thread ∨ thread + 4096 ≤ query ∨
      (thread + 4 ≤ query ∧ query < thread + 8) ∨ (thread + 308 ≤ query ∧ query < thread + 312)) →
      mem query = m3.mem query := by
    intro query off
    rw [← created]
    exact threadCreate_of_outside kstack3 _ _ _ off
  have grows4 : Grows own m3 { m3 with mem := mem } :=
    .of_own laid3 fun query off => away4 query (by omega)
  have laid4 := laid3.congr grows4.layout
  have used4 := grows4.marks own (by omega) used3
  -- `create_page_dir`
  have grows5 := createPageDir_grows laid4 dir own
  have laid5 := laid4.congr grows5.layout
  have kept5 : ∀ query, thread ≤ query → query < thread + 4096 → m5.mem query = mem query := by
    intro query lower upper
    have other := (createPageDir_grows laid4 dir (own + 1)).heap own (by omega) (by omega) used4
    exact other query (threadEq ▸ lower) (by rw [← heapPage_end, ← threadEq]; exact upper)
  have grows6 : Grows own m5 (m5.store32 (thread + 108) pgdir) :=
    .of_own laid5 fun query off => Bytes.write32_of_outside _ _ (by omega)
  have word : ∀ disp, disp = 4 ∨ disp = 308 → (m5.store32 (thread + 108) pgdir).mem.read32
      (thread + disp) = (threadInit m1 thread execution.name 31).mem.read32 (thread + disp) := by
    intro disp which
    rw [← word3 disp (.inr which)]
    refine Bytes.read32_congr fun query lower upper => ?_
    refine (Bytes.write32_of_outside _ _ (by omega)).trans ?_
    rw [kept5 query (by omega) (by omega), away4 query (by omega)]
  refine ⟨own, inside, threadEq, clear, ?_, ?_, (word 4 (.inl rfl)).trans status,
    (word 308 (.inr rfl)).trans magic⟩
  · exact grows6.marks own (by omega) (grows5.marks own (by omega) used4)
  · exact ((((grows1.trans grows2).trans grows3).trans grows4).trans grows5).trans grows6

end

end Pumelo
