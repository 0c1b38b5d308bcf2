import Pumelo.ProcessRoom
import Pumelo.Tss

/-!
# Address spaces

Processes with a directory each: `process_execute` makes them, `process_activate` switches between
them, and they get pages of their own and store into them.  None of the pages is given back here.  A
process finds in its pages what it stored there, whatever the kernel and the other processes do
meanwhile.
-/

namespace Pumelo

open Foundation PageWalk

/-- `page_dir_activate` -/
def pageDirActivate (m : Machine) (pthread : Nat) : Except Fault Machine := do
  let pagedirPhyAddr ←
    if pgdirOf m.mem pthread ≠ 0 then addrV2p m (pgdirOf m.mem pthread) else pure 0x100000
  return { m with cr3 := pagedirPhyAddr }

/-- `process_activate`, with the task state at `tss`. -/
def processActivate (m : Machine) (tss : UInt32) (pthread : Nat) : Except Fault Machine := do
  let m ← pageDirActivate m pthread
  if pgdirOf m.mem pthread ≠ 0 then return { m with mem := storeTssEsp m.mem tss pthread }
  return m

/-- A process: its thread structure, the bitmap of its virtual pages and the frame of its
directory. -/
structure Space where
  thread : Nat
  bits : Nat
  dir : Nat

/-- The process with this thread structure. -/
def spaceOf (m : Machine) (thread : Nat) : Space where
  thread := thread
  bits := (userprogVaddr m.mem thread).vaddrBitmap.bitmapBits
  dir := (walk m.tables m.cr3 (pgdirOf m.mem thread)).getD 0

/-- The page of the kernel's heap is the thread's or one of the bitmap's. -/
def Space.Owns (space : Space) (index : Nat) : Prop :=
  kernelHeapStart + 4096 * index = space.thread ∨
    space.bits ≤ kernelHeapStart + 4096 * index ∧
      kernelHeapStart + 4096 * index < space.bits + 4096 * 23

/-- The bytes of the directory's address, of the range of virtual pages and of their bitmap. -/
def Space.Byte (space : Space) (query : Nat) : Prop :=
  space.thread + 108 ≤ query ∧ query < space.thread + 112 ∨
    ProcessByte space.thread space.bits query

/-- Processes on a machine: those that have their stack page, and the word that each stored last at
an address. -/
structure Spaces where
  machine : Machine
  spaces : List Space
  started : List Nat
  memory : Nat → Nat → Option Nat

/-- A thread is in a page that is in use, or below the kernel's heap like the first one. -/
def Machine.HasPage (m : Machine) (thread : Nat) : Prop :=
  thread < kernelHeapStart ∨ ∃ index < 65536, thread = kernelHeapStart + 4096 * index ∧
    m.pageBit index = true

namespace Spaces

/-- The directories of the processes. -/
def Dirs (s : Spaces) (dir : Nat) : Prop := ∃ space ∈ s.spaces, space.dir = dir

/-- What else the kernel does: it touches neither page tables nor bitmaps, nor what is kept of the
processes. -/
structure Elsewhere (tss : UInt32) (s : Spaces) (m : Machine) : Prop where
  layout : SameLayout s.machine m
  tables : m.tables = s.machine.tables
  cr3 : m.cr3 = s.machine.cr3
  running : m.running = s.machine.running
  bitmaps : ∀ query, 0xc009a000 ≤ query → query < 0xc009e000 → m.mem query = s.machine.mem query
  esp0 : m.mem.read32 (tss.toNat + 4) = s.machine.mem.read32 (tss.toNat + 4)
  spaces : ∀ space ∈ s.spaces, ∀ query, space.Byte query → m.mem query = s.machine.mem query

/-- What the kernel and the processes do, in any order. -/
inductive Step (tss : UInt32) : Spaces → Spaces → Prop where
  | kernelPages {s : Spaces} {pgCnt vaddr : Nat} {m : Machine} : 1 ≤ pgCnt → pgCnt < 2 ^ 32 →
      getKernelPages s.machine pgCnt = .ok (vaddr, m) → Step tss s { s with machine := m }
  | execute {s : Spaces} {execution : Execution} {thread : Nat} {m : Machine} :
      NameFits execution.name → prepareProcess s.machine execution = .ok (thread, m) →
      Step tss s { s with
        machine := m
        spaces := spaceOf m thread :: s.spaces
        memory := Function.update s.memory thread fun _ => none }
  | start {s : Spaces} {space : Space} {vaddr : Nat} {m : Machine} : space ∈ s.spaces →
      s.machine.running = space.thread → space.thread ∉ s.started →
      getAPage s.machine .user userStack3Vaddr = .ok (vaddr, m) →
      Step tss s { s with machine := m, started := space.thread :: s.started }
  | malloc {s : Spaces} {space : Space} {pgCnt vaddr : Nat} {m : Machine} : space ∈ s.spaces →
      s.machine.running = space.thread → space.thread ∈ s.started → 1 ≤ pgCnt → pgCnt < 2 ^ 32 →
      mallocPages s.machine .user pgCnt = .ok (vaddr, m) → Step tss s { s with machine := m }
  | store {s : Spaces} {space : Space} {vaddr word : Nat} {m : Machine} : space ∈ s.spaces →
      s.machine.running = space.thread → vaddr < 0xc0000000 → vaddr % 4 = 0 →
      writeVirt s.machine vaddr word = .ok m →
      Step tss s { s with
        machine := m
        memory := Function.update s.memory space.thread
          (Function.update (s.memory space.thread) vaddr (some word)) }
  | activate {s : Spaces} {thread : Nat} {m : Machine} :
      (∃ space ∈ s.spaces, space.thread = thread) ∨
        pgdirOf s.machine.mem thread = 0 ∧ s.machine.HasPage thread →
      processActivate s.machine tss thread = .ok m →
      Step tss s { s with machine := m.runBy thread }
  | elsewhere {s : Spaces} {m : Machine} : Elsewhere tss s m → Step tss s { s with machine := m }

/-- The machine behind `mem_pool_init`, on tables that the loader has set up in memory without
entries for the kernel's heap. -/
def Initial (s : Spaces) : Prop :=
  s.spaces = [] ∧ s.started = [] ∧ ∃ (m : Machine) (ram : Words) (allMem : Nat), 0x200000 ≤ allMem ∧
    allMem < 2 ^ 32 ∧
    (∀ page < 260864, ¬Present (ram (heapSlot page))) ∧ m.running < kernelHeapStart ∧
    s.machine = memPoolInit { m with tables := setupPage ram, cr3 := 0x100000 } allMem

/-- The directory that the processor uses, and the kernel stack that it takes from the task state,
are those of the running process. -/
def Active (tss : UInt32) (s : Spaces) : Prop :=
  (∃ space ∈ s.spaces, s.machine.running = space.thread ∧ s.machine.cr3 = space.dir ∧
    s.machine.mem.read32 (tss.toNat + 4) = space.thread + 4096) ∨
  s.machine.cr3 = 0x100000 ∧ s.machine.HasPage s.machine.running ∧
    ∀ space ∈ s.spaces, s.machine.running ≠ space.thread

end Spaces

/-- Processes that come about and run by turns. -/
def spaceSystem (tss : UInt32) : System Spaces where
  init := Spaces.Initial
  step := Spaces.Step tss

/-- A process between two steps: its pages are in use, its bitmap has the pages that its directory
translates, and these hold what it stored. -/
structure Space.Settled (space : Space) (m : Machine) (started : Prop) (memory : Nat → Option Nat) :
    Prop where
  prepared : Prepared space.thread space.bits m
  place : ∃ own bits, space.thread = kernelHeapStart + 4096 * own ∧
    space.bits = kernelHeapStart + 4096 * bits ∧ own < 65536 ∧ bits + 23 ≤ 65536
  pgdir : ∃ page < 65536, pgdirOf m.mem space.thread = kernelHeapStart + 4096 * page ∧
    HasRole heapSharing (fun other => other = space.dir) m.tables (.shared page) space.dir
  marked : ∀ index, space.Owns index → m.pageBit index = true
  stack : started → (processBitmap space.bits).bit m.mem stackBit = true
  bare : ¬started → ∀ number frame,
    ¬HasRole heapSharing (fun other => other = space.dir) m.tables (.page space.dir number) frame
  pages : ∀ number frame,
    HasRole heapSharing (fun other => other = space.dir) m.tables (.page space.dir number) frame →
      ∃ page ≤ stackBit, number = userVaddrStart / 4096 + page ∧
        (processBitmap space.bits).bit m.mem page = true
  memory : ∀ vaddr word, memory vaddr = some word → vaddr < 0xc0000000 ∧ ∃ frame,
    HasRole heapSharing (fun other => other = space.dir) m.tables
      (.page space.dir (vaddr / 4096)) frame ∧
      m.tables (frame + vaddr % 4096) = word

section

variable {m m' : Machine} {space : Space} {started started' : Prop} {memory : Nat → Option Nat}
  {dirs dirs' : Nat → Prop} {kernelPages userPages : Nat}

/-- What is kept of a process lies in its pages. -/
theorem Space.Byte.owned {query : Nat} (byte : space.Byte query) (place : ∃ own bits,
    space.thread = kernelHeapStart + 4096 * own ∧ space.bits = kernelHeapStart + 4096 * bits ∧
      own < 65536 ∧ bits + 23 ≤ 65536) :
    ∃ index < 65536, space.Owns index ∧ kernelHeapStart + 4096 * index ≤ query ∧
      query < kernelHeapStart + 4096 * (index + 1) := by
  have len := userBitmapLen_eq
  obtain ⟨own, bits, thread, bitsEq, ownLt, bitsLe⟩ := place
  rcases byte with pgdir | vaddr | ⟨lower, upper⟩
  · exact ⟨own, ownLt, .inl thread.symm, by omega, by omega⟩
  · exact ⟨own, ownLt, .inl thread.symm, by omega, by omega⟩
  · refine ⟨bits + (query - space.bits) / 4096,
      by omega, .inr ⟨by omega, by omega⟩, by omega, by omega⟩

theorem Space.Owns.lt {index : Nat} (owns : space.Owns index) (place : ∃ own bits,
    space.thread = kernelHeapStart + 4096 * own ∧ space.bits = kernelHeapStart + 4096 * bits ∧
      own < 65536 ∧ bits + 23 ≤ 65536) : index < 65536 := by
  obtain ⟨own, bits, thread, bitsEq, ownLt, bitsLe⟩ := place
  rcases owns with same | ⟨lower, upper⟩ <;> omega

theorem dirIndex_user {vaddr : Nat} (below : vaddr < 0xc0000000) :
    dirIndex vaddr < heapSharing.own := by
  unfold dirIndex heapSharing
  dsimp only
  omega

/-- The marks of the kernel's pages are in the four pages of bitmaps. -/
theorem Machine.Shares.pageBit_same (shares : m.Shares dirs) (layout : SameLayout m m')
    (same : ∀ query, 0xc009a000 ≤ query → query < 0xc009e000 → ¬m.PoolByte query →
      m'.mem query = m.mem query) {page : Nat} (small :
      page < 65536) : m'.pageBit page = m.pageBit page := by
  obtain ⟨kernelPages, userPages, laid⟩ := shares.laid
  have kernelLe := laid.kernelPages_le
  have userLe := laid.userPages_le
  have bitmapBits : m.kernelVaddr.vaddrBitmap.bitmapBits =
      0xc009a000 + kernelPages / 8 + userPages / 8 := by rw [laid.vaddr]
  rw [Machine.pageBit, layout.kernelVaddr]
  refine Bytes.bit_congr (same _ (by omega) (by omega) fun byte => ?_)
  have bounds := laid.poolByte_bounds byte
  omega

namespace Space.Settled

/-- A step that leaves what is kept of the process, and does not disturb its directory. -/
theorem kept (settled : space.Settled m started memory) (layout : SameLayout m m')
    (bytes : ∀ query, space.Byte query → m'.mem query = m.mem query)
    (marks : ∀ index < 65536, m.pageBit index = true → m'.pageBit index = true)
    (dirPage : ∀ page, HasRole heapSharing (fun other => other = space.dir) m.tables
      (.shared page) space.dir →
      HasRole heapSharing (fun other => other = space.dir) m'.tables (.shared page) space.dir)
    (same : SamePrivate heapSharing m.tables m'.tables space.dir) :
    space.Settled m' started memory := by
  have last := stackBit_eq
  have len := userBitmapLen_eq
  have bit : ∀ page ≤ stackBit, (processBitmap space.bits).bit m'.mem page =
      (processBitmap space.bits).bit m.mem page := by
    intro page small
    refine Bytes.bit_congr (bytes _ (.inr (.inr ?_)))
    simp only [processBitmap]
    omega
  have holds : ∀ number frame,
      HasRole heapSharing (fun other => other = space.dir) m'.tables
        (.page space.dir number) frame ↔
        HasRole heapSharing (fun other => other = space.dir) m.tables
          (.page space.dir number) frame :=
    fun number frame => same.holds (.inr ⟨number, rfl⟩)
  refine ⟨?_, settled.place, ?_, fun index owns => ?_, fun isStarted => ?_,
    fun not number frame held => ?_,
    fun number frame held => ?_, fun vaddr word stored => ?_⟩
  · exact settled.prepared.congr layout fun query lower upper =>
      bytes query (.inr (.inl ⟨lower, upper⟩))
  · obtain ⟨page, small, word, held⟩ := settled.pgdir
    refine ⟨page, small, ?_, dirPage page held⟩
    rw [← word]
    exact Bytes.read32_congr fun query lower upper => bytes query (.inl ⟨lower, by omega⟩)
  · exact marks index (owns.lt settled.place) (settled.marked index owns)
  · rw [bit stackBit (Nat.le_refl _)]
    exact settled.stack isStarted
  · exact settled.bare not number frame ((holds number frame).mp held)
  · obtain ⟨page, small, equal, set⟩ := settled.pages number frame ((holds number frame).mp held)
    exact ⟨page, small, equal, (bit page small).trans set⟩
  · obtain ⟨user, frame, held, equal⟩ := settled.memory vaddr word stored
    refine ⟨user, frame, (holds _ _).mpr held, ?_⟩
    rw [← equal]
    exact same frame (.inr (.inr ⟨_, held⟩)) _ (by omega) (by omega)

/-- Pages of the kernel are obtained. -/
theorem grows (settled : space.Settled m started memory) (shares : m.Shares dirs)
    (isDir : dirs space.dir)
    (adds : m.Adds m' dirs dirs') {own : Nat} (grown : Grows own m m')
    (free : m.pageBit own = false) :
    space.Settled m' started memory := by
  refine settled.kept grown.layout (fun query byte => ?_)
    (fun index small => grown.marks index (by omega))
    (fun page held => adds.dirPages page space.dir isDir held) (adds.undisturbed shares isDir)
  obtain ⟨index, small, owns, lower, upper⟩ := byte.owned settled.place
  have set := settled.marked index owns
  refine grown.heap index (by omega) ?_ set query lower upper
  rintro rfl
  rw [free] at set
  cases set

/-- The process gets pages, and marks them. -/
theorem user (settled : space.Settled m started memory) (isDir : dirs space.dir)
    {numbers : Nat → Prop}
    (maps : m.Maps m' dirs space.dir numbers) (layout : SameLayout m m') (now : started')
    (bytes : ∀ query, space.Byte query → (query < space.bits ∨ space.bits + userBitmapLen ≤ query) →
      m'.mem query = m.mem query)
    (marks : ∀ index < 65536, m.pageBit index = true → m'.pageBit index = true)
    (bits : ∀ page ≤ stackBit, (processBitmap space.bits).bit m.mem page = true →
      (processBitmap space.bits).bit m'.mem page = true)
    (stack : (processBitmap space.bits).bit m'.mem stackBit = true)
    (new : ∀ number, numbers number → ∃ page ≤ stackBit, number = userVaddrStart / 4096 + page ∧
      (processBitmap space.bits).bit m'.mem page = true)
    (fresh : ∀ number, numbers number → ∀ frame,
      ¬HasRole heapSharing (fun other => other = space.dir) m.tables
        (.page space.dir number) frame) :
    space.Settled m' started' memory := by
  have len := userBitmapLen_eq
  have apart := settled.prepared.apart
  refine ⟨?_, settled.place, ?_, fun index owns => ?_, fun _ => stack, fun not => absurd now not,
    fun number frame held => ?_, fun vaddr word stored => ?_⟩
  · exact settled.prepared.congr layout fun query lower upper =>
      bytes query (.inr (.inl ⟨lower, upper⟩)) (by omega)
  · obtain ⟨page, small, word, held⟩ := settled.pgdir
    refine ⟨page, small, ?_,
      maps.others (.shared page) space.dir (fun _ _ same => by cases same) held⟩
    rw [← word]
    exact Bytes.read32_congr fun query lower upper =>
      bytes query (.inl ⟨lower, by omega⟩) (by omega)
  · exact marks index (owns.lt settled.place) (settled.marked index owns)
  · have held' := (private_of_page isDir).mp held
    by_cases isNew : numbers number
    · exact new number isNew
    · have old := maps.pages number frame isNew held'
      obtain ⟨page, small, equal, set⟩ :=
        settled.pages number frame ((private_of_page isDir).mpr old)
      exact ⟨page, small, equal, bits page small set⟩
  · obtain ⟨below, frame, held, equal⟩ := settled.memory vaddr word stored
    have old : ¬numbers (vaddr / 4096) := fun isNew => fresh _ isNew frame held
    have held' := (private_of_page isDir).mp held
    refine ⟨below, frame,
      (private_of_page isDir).mpr (maps.others _ _ (fun number isNew same => ?_) held'), ?_⟩
    · injection same with _ same
      exact old (same ▸ isNew)
    · rw [← equal]
      exact maps.words isDir old held' (Nat.le_add_right _ _) (by omega)

/-- The process stores a word in a page of its own. -/
theorem store (settled : space.Settled m started memory) (shares : m.Shares dirs)
    (isDir : dirs space.dir)
    {vaddr word frame : Nat} (below : vaddr < 0xc0000000)
    (held : HasRole heapSharing dirs m.tables (.page space.dir (vaddr / 4096)) frame) :
    space.Settled { m with tables := m.tables.write (frame + vaddr % 4096) word } started
      (Function.update memory vaddr (some word)) := by
  obtain ⟨-, holds⟩ :=
    shares.store (shares.owned.used _ _ held) (shares.owned.not_structural_page held)
    (Nat.le_add_right _ _) (by omega : frame + vaddr % 4096 < frame + 4096) word
  have single : ∀ number found,
      HasRole heapSharing (fun other => other = space.dir)
        (m.tables.write (frame + vaddr % 4096) word)
        (.page space.dir number) found ↔
      HasRole heapSharing (fun other => other = space.dir) m.tables
        (.page space.dir number) found :=
    fun number found =>
      (private_of_page isDir).trans ((holds _ _).trans (private_of_page isDir).symm)
  refine ⟨settled.prepared.congr (.of_eq rfl rfl) fun _ _ _ => rfl, settled.place, ?_,
    settled.marked,
    settled.stack, fun not number found held =>
      settled.bare not number found ((single number found).mp held),
    fun number found held => settled.pages number found ((single number found).mp held), ?_⟩
  · obtain ⟨page, small, stored, shared⟩ := settled.pgdir
    exact ⟨page, small, stored, (holds (.shared page) space.dir).mpr shared⟩
  · intro other value stored
    by_cases same : other = vaddr
    · rw [same, Function.update_self] at stored
      cases stored
      rw [same]
      exact ⟨below, frame, (single _ _).mpr ((private_of_page isDir).mpr held),
        Words.write_self _ _ _⟩
    · rw [Function.update_of_ne same] at stored
      obtain ⟨otherBelow, found, held', equal⟩ := settled.memory other value stored
      refine ⟨otherBelow, found, (single _ _).mpr held', ?_⟩
      have held'' := (private_of_page isDir).mp held'
      have aligned := (shares.owned.apart frame (shares.owned.used _ _ held)).aligned
      have aligned' := (shares.owned.apart found (shares.owned.used _ _ held'')).aligned
      refine (Words.write_of_ne _ _ fun slot => same ?_).trans equal
      obtain rfl : found = frame := by omega
      have roles := shares.owned.unique _ _ _ held'' held
      injection roles with _ number
      omega

end Space.Settled

/-- What `process_execute` made. -/
theorem Machine.NewProcess.spaceOf_eq {own bits pgdir dir : Nat}
    (new : m.NewProcess m' dirs own bits pgdir dir) :
    spaceOf m' (kernelHeapStart + 4096 * own) =
      ⟨kernelHeapStart + 4096 * own, kernelHeapStart + 4096 * bits, dir⟩ := by
  have translated : walk m'.tables m'.cr3 (kernelHeapStart + 4096 * pgdir) = some dir :=
    Machine.Shares.walk_page new.adds.shares.kernel_current new.dirPage
  rw [spaceOf, new.prepared.vaddr, new.pgdirWord, translated]
  rfl

/-! ## All processes -/

/-- It lies in the kernel's heap. -/
theorem Space.Byte.lower {query : Nat} (byte : space.Byte query) (place : ∃ own bits,
    space.thread = kernelHeapStart + 4096 * own ∧ space.bits = kernelHeapStart + 4096 * bits ∧
      own < 65536 ∧ bits + 23 ≤ 65536) : kernelHeapStart ≤ query := by
  obtain ⟨index, -, -, lower, -⟩ := byte.owned place
  exact (Nat.le_add_right _ _).trans lower

theorem Laid.not_poolByte (laid : Laid m kernelPages userPages) {query : Nat}
    (above : kernelHeapStart ≤ query ∨ query < 0xc009a000) : ¬m.PoolByte query := by
  intro byte
  have kernelLe := laid.kernelPages_le
  have userLe := laid.userPages_le
  have bitmapBits : m.kernelVaddr.vaddrBitmap.bitmapBits =
      0xc009a000 + kernelPages / 8 + userPages / 8 := by rw [laid.vaddr]
  have bounds := laid.poolByte_bounds byte
  rw [kernelHeapStart] at above
  omega

end

namespace Spaces

/-- Every process is settled, and they have no page and no directory in common. -/
structure Inv (tss : UInt32) (s : Spaces) : Prop where
  shares : s.machine.Shares s.Dirs
  settled : ∀ space ∈ s.spaces,
    space.Settled s.machine (space.thread ∈ s.started) (s.memory space.thread)
  apart : ∀ a ∈ s.spaces, ∀ b ∈ s.spaces, a ≠ b → a.dir ≠ b.dir ∧ ∀ index, a.Owns index →
    ¬b.Owns index
  started : ∀ thread ∈ s.started, ∃ space ∈ s.spaces, space.thread = thread
  active : s.Active tss

section

variable {tss : UInt32} {s next : Spaces} {m : Machine} {space : Space}

/-- The running thread keeps its directory and its kernel stack. -/
theorem Active.keep (active : s.Active tss) (running : next.machine.running = s.machine.running)
    (cr3 : next.machine.cr3 = s.machine.cr3)
    (esp0 : next.machine.mem.read32 (tss.toNat + 4) = s.machine.mem.read32 (tss.toNat + 4))
    (marks : ∀ index < 65536, s.machine.pageBit index = true → next.machine.pageBit index = true)
    (old : ∀ space ∈ s.spaces, space ∈ next.spaces)
    (new : ∀ space ∈ next.spaces, space ∈ s.spaces ∨ ¬s.machine.HasPage space.thread) :
    next.Active tss := by
  rcases active with ⟨space, member, runs, dir, stack⟩ | ⟨boot, page, none⟩
  · exact .inl ⟨space, old space member, running.trans runs, cr3.trans dir, esp0.trans stack⟩
  · refine .inr ⟨cr3.trans boot, ?_, fun space member same => ?_⟩
    · rw [running]
      rcases page with low | ⟨index, small, equal, set⟩
      · exact .inl low
      · exact .inr ⟨index, small, equal, marks index small set⟩
    · rw [running] at same
      rcases new space member with isOld | noPage
      · exact none space isOld same
      · exact noPage (same ▸ page)

namespace Inv

/-- A thread has one process at most. -/
theorem thread_inj (inv : Inv tss s) {a b : Space} (inA : a ∈ s.spaces) (inB : b ∈ s.spaces)
    (same : a.thread = b.thread) : a = b := by
  by_contra ne
  obtain ⟨own, -, place, -⟩ := (inv.settled a inA).place
  exact (inv.apart a inA b inB ne).2 own (.inl place.symm) (.inl (place.symm.trans same))

/-- The running process has its own directory. -/
theorem current (inv : Inv tss s) (member : space ∈ s.spaces)
    (running : s.machine.running = space.thread) :
    s.machine.cr3 = space.dir := by
  rcases inv.active with ⟨other, inside, runs, dir, -⟩ | ⟨-, -, none⟩
  · rw [dir, inv.thread_inj inside member (runs.symm.trans running)]
  · exact absurd running (none space member)

theorem byte_apart (inv : Inv tss s) {a b : Space} (inA : a ∈ s.spaces) (inB : b ∈ s.spaces)
    (ne : a ≠ b)
    {query : Nat} (byte : b.Byte query) : query < a.bits ∨ a.bits + userBitmapLen ≤ query := by
  have len := userBitmapLen_eq
  by_contra within
  obtain ⟨index, -, owns, lower, upper⟩ := byte.owned (inv.settled b inB).place
  obtain ⟨-, bits, -, place, -⟩ := (inv.settled a inA).place
  exact (inv.apart a inA b inB ne).2 index (.inr ⟨by omega, by omega⟩) owns

/-- Pages of the kernel are obtained. -/
theorem grows (inv : Inv tss s) (low : tss.toNat + 8 ≤ 0xc009a000) {own : Nat}
    (grown : Grows own s.machine m) (free : s.machine.pageBit own = false)
    (adds : s.machine.Adds m s.Dirs s.Dirs) : Inv tss { s with machine := m } where
  shares := adds.shares
  settled space member :=
    (inv.settled space member).grows inv.shares ⟨space, member, rfl⟩ adds grown free
  apart := inv.apart
  started := inv.started
  active := by
    refine inv.active.keep ?_ adds.cr3 ?_ (fun index small => grown.marks index (by omega))
      (fun _ member => member) fun _ member => .inl member
    · exact (congrArg Machine.running grown.same :)
    · refine Bytes.read32_congr fun query lower upper => grown.below query (.inl (by omega)) ?_
      rw [kernelHeapStart]
      omega

/-- `process_execute` makes a process of pages that were free. -/
theorem execute (inv : Inv tss s) (low : tss.toNat + 8 ≤ 0xc009a000) {own bits pgdir dir : Nat}
    (new : s.machine.NewProcess m s.Dirs own bits pgdir dir) : Inv tss { s with
      machine := m
      spaces := ⟨kernelHeapStart + 4096 * own, kernelHeapStart + 4096 * bits, dir⟩ :: s.spaces
      memory := Function.update s.memory (kernelHeapStart + 4096 * own) fun _ => none } := by
  have ownLt := new.ownLt
  have bitsLe := new.bitsLe
  -- the pages of the other processes were in use
  have apart : ∀ space ∈ s.spaces, ∀ index,
      Space.Owns ⟨kernelHeapStart + 4096 * own, kernelHeapStart + 4096 * bits, dir⟩ index →
        ¬space.Owns index := by
    intro space member index mine theirs
    have set := (inv.settled space member).marked index theirs
    rcases mine with same | ⟨lower, upper⟩
    · obtain rfl : index = own := by
        dsimp only at same
        omega
      rw [new.ownPage.1] at set
      cases set
    · dsimp only at lower upper
      obtain ⟨k, rfl⟩ : ∃ k, index = bits + k := ⟨index - bits, by omega⟩
      rw [(new.bitsPages k (by omega)).1] at set
      cases set
  have noThread : ∀ space ∈ s.spaces, space.thread ≠ kernelHeapStart + 4096 * own := by
    intro space member same
    exact apart space member own (.inl rfl) (.inl same.symm)
  have notDir : ∀ space ∈ s.spaces, space.dir ≠ dir := by
    rintro space member rfl
    obtain ⟨page, held⟩ := inv.shares.owned.directory space.dir ⟨space, member, rfl⟩
    exact new.unused (inv.shares.owned.used _ _ held)
  have unstarted : kernelHeapStart + 4096 * own ∉ s.started := by
    intro member
    obtain ⟨space, inside, same⟩ := inv.started _ member
    exact noThread space inside same
  refine ⟨?_, ?_, ?_, ?_, ?_⟩
  · have dirs : (Dirs { s with
        machine := m
        spaces := ⟨kernelHeapStart + 4096 * own, kernelHeapStart + 4096 * bits, dir⟩ :: s.spaces
        memory := Function.update s.memory (kernelHeapStart + 4096 * own) fun _ => none }) =
        fun other => other = dir ∨ s.Dirs other := by
      funext other
      simp only [Dirs, List.mem_cons, exists_eq_or_imp, eq_comm]
    rw [dirs]
    exact new.adds.shares
  · intro space member
    rcases List.mem_cons.mp member with rfl | old
    · refine ⟨new.prepared, ⟨own, bits, rfl, rfl, ownLt, bitsLe⟩,
        ⟨pgdir, new.pgdirLt, new.pgdirWord, new.dirPage⟩, ?_,
        fun isStarted => absurd isStarted unstarted, fun _ => new.bare,
          fun number frame held => ?_, ?_⟩
      · intro index owns
        rcases owns with same | ⟨lower, upper⟩
        · obtain rfl : index = own := by
            dsimp only at same
            omega
          exact new.ownPage.2
        · dsimp only at lower upper
          obtain ⟨k, rfl⟩ : ∃ k, index = bits + k := ⟨index - bits, by omega⟩
          exact (new.bitsPages k (by omega)).2
      · exact absurd held (new.bare number frame)
      · intro vaddr word stored
        dsimp only at stored
        rw [Function.update_self] at stored
        cases stored
    · dsimp only
      rw [Function.update_of_ne (noThread space old)]
      exact (inv.settled space old).grows inv.shares ⟨space, old, rfl⟩ new.adds new.grows
        new.ownPage.1
  · intro a inA b inB ne
    rcases List.mem_cons.mp inA with rfl | oldA <;> rcases List.mem_cons.mp inB with rfl | oldB
    · exact absurd rfl ne
    · exact ⟨(notDir b oldB).symm, apart b oldB⟩
    · exact ⟨notDir a oldA, fun index owns owns' => apart a oldA index owns' owns⟩
    · exact inv.apart a oldA b oldB ne
  · intro thread member
    obtain ⟨space, inside, same⟩ := inv.started thread member
    exact ⟨space, List.mem_cons_of_mem _ inside, same⟩
  · refine inv.active.keep (congrArg Machine.running new.grows.same :) new.adds.cr3 ?_
      (fun index small => new.grows.marks index (by omega))
        (fun _ member => List.mem_cons_of_mem _ member) ?_
    · refine Bytes.read32_congr fun query lower upper => new.grows.below query (.inl (by omega)) ?_
      rw [kernelHeapStart]
      omega
    · intro space member
      rcases List.mem_cons.mp member with rfl | old
      · refine .inr fun page => ?_
        rcases page with below | ⟨index, -, same, set⟩
        · dsimp only at below
          omega
        · obtain rfl : index = own := by
            dsimp only at same
            omega
          rw [new.ownPage.1] at set
          cases set
      · exact .inl old

/-- The running process gets pages. -/
theorem user (inv : Inv tss s) (low : tss.toNat + 8 ≤ 0xc009a000) (member : space ∈ s.spaces)
    (running : s.machine.running = space.thread) {numbers : Nat → Prop} {started : List Nat}
    (maps : s.machine.Maps m s.Dirs s.machine.cr3 numbers) (layout : SameLayout s.machine m)
    (runs : m.running = s.machine.running)
    (bytes : ∀ query, ¬s.machine.PoolByte query →
      (query < space.bits ∨ space.bits + userBitmapLen ≤ query) → m.mem query = s.machine.mem query)
    (bits : ∀ page ≤ stackBit, (processBitmap space.bits).bit s.machine.mem page = true →
      (processBitmap space.bits).bit m.mem page = true)
    (stack : (processBitmap space.bits).bit m.mem stackBit = true)
    (new : ∀ number, numbers number → ∃ page ≤ stackBit, number = userVaddrStart / 4096 + page ∧
      (processBitmap space.bits).bit m.mem page = true)
    (fresh : ∀ number, numbers number →
      ∀ frame, ¬HasRole heapSharing (fun other => other = space.dir)
      s.machine.tables (.page space.dir number) frame)
    (now : ∀ thread, thread ∈ started ↔ thread = space.thread ∨ thread ∈ s.started) :
    Inv tss { s with machine := m, started := started } := by
  obtain ⟨kernelPages, userPages, laid⟩ := inv.shares.laid
  rw [inv.current member running] at maps
  obtain ⟨-, bitsPage, -, place, -, -⟩ := (inv.settled space member).place
  have isDir : s.Dirs space.dir := ⟨space, member, rfl⟩
  have marks : ∀ index < 65536, s.machine.pageBit index = true → m.pageBit index = true := by
    intro index small set
    refine (inv.shares.pageBit_same layout (fun query _ below other => ?_) small).trans set
    refine bytes query other (.inl ?_)
    rw [kernelHeapStart] at place
    omega
  refine ⟨maps.shares, fun other inside => ?_, inv.apart, fun thread inside => ?_, ?_⟩
  · by_cases same : other = space
    · subst same
      refine (inv.settled other member).user isDir maps layout
        ((now other.thread).mpr (.inl rfl)) ?_ marks
        bits stack new fresh
      exact fun query byte => bytes query
        (laid.not_poolByte (.inl (byte.lower (inv.settled other member).place)))
    · have different : other.thread ≠ space.thread :=
        fun equal => same (inv.thread_inj inside member equal)
      have isStarted : (other.thread ∈ started) = (other.thread ∈ s.started) :=
        propext ((now other.thread).trans (or_iff_right different))
      dsimp only
      rw [isStarted]
      refine (inv.settled other inside).kept layout (fun query byte => ?_) marks
        (fun page held => ?_)
        (maps.undisturbed isDir ⟨other, inside, rfl⟩ (inv.apart other inside space member same).1)
      · exact bytes query (laid.not_poolByte (.inl (byte.lower (inv.settled other inside).place)))
          (inv.byte_apart member inside (fun equal => same equal.symm) byte)
      · exact maps.others (.shared page) other.dir (fun _ _ equal => by cases equal) held
  · rcases (now thread).mp inside with rfl | old
    · exact ⟨space, member, rfl⟩
    · exact inv.started thread old
  · refine inv.active.keep runs maps.cr3 ?_ marks (fun _ inside => inside) fun _ inside =>
      .inl inside
    refine Bytes.read32_congr fun query lower upper =>
      bytes query (laid.not_poolByte (.inr (by omega))) ?_
    rw [kernelHeapStart] at place
    omega

/-- `process_start` gets the stack page. -/
theorem start (inv : Inv tss s) (low : tss.toNat + 8 ≤ 0xc009a000) (member : space ∈ s.spaces)
    (running : s.machine.running = space.thread) (unstarted : space.thread ∉ s.started)
    {vaddr : Nat}
    (run : getAPage s.machine .user userStack3Vaddr = .ok (vaddr, m)) :
    Inv tss { s with machine := m, started := space.thread :: s.started } := by
  have last := stackBit_eq
  have len := userBitmapLen_eq
  have settled := inv.settled space member
  have lower := settled.prepared.bitsLower
  obtain ⟨kernelPages, userPages, laid⟩ := inv.shares.laid
  have process : s.Dirs s.machine.cr3 := ⟨space, member, (inv.current member running).symm⟩
  obtain ⟨maps, runs, layout, bytes⟩ := inv.shares.getStackPage process settled.prepared running run
  have bit : ∀ page, (processBitmap space.bits).bit m.mem page =
      if page = stackBit then true else (processBitmap space.bits).bit s.machine.mem page := by
    intro page
    have same := bytes ((8 * space.bits + page) / 8) (laid.not_poolByte (.inl (by omega)))
    rw [Bitmap.bit, processBitmap, Bytes.bit_congr same, Bytes.bit_setBit]
    by_cases here : page = stackBit <;> simp [here, Bitmap.bit]
  refine inv.user low member running maps layout runs (fun query other off => ?_)
    (fun page _ set => ?_) ?_
    (fun number new => ?_) (fun number _ => ?_) fun thread => List.mem_cons
  · exact (bytes query other).trans (Bytes.setBit_of_ne _ _ (by omega))
  · rw [bit, set, ite_self]
  · rw [bit, if_pos rfl]
  · refine ⟨stackBit, Nat.le_refl _, ?_, by rw [bit, if_pos rfl]⟩
    rw [new, last]
    decide
  · exact settled.bare unstarted number

/-- `malloc_pages` for the running process. -/
theorem malloc (inv : Inv tss s) (low : tss.toNat + 8 ≤ 0xc009a000) (member : space ∈ s.spaces)
    (running : s.machine.running = space.thread) (started : space.thread ∈ s.started)
    {pgCnt vaddr : Nat}
    (positive : 1 ≤ pgCnt) (fits : pgCnt < 2 ^ 32)
    (run : mallocPages s.machine .user pgCnt = .ok (vaddr, m)) :
    Inv tss { s with machine := m } := by
  have last := stackBit_eq
  have len := userBitmapLen_eq
  have settled := inv.settled space member
  have lower := settled.prepared.bitsLower
  obtain ⟨kernelPages, userPages, laid⟩ := inv.shares.laid
  have process : s.Dirs s.machine.cr3 := ⟨space, member, (inv.current member running).symm⟩
  have state : ProcessState.Inv space.thread space.bits ⟨s.machine, []⟩ :=
    ⟨running, settled.prepared, settled.stack started, by simp, .nil⟩
  obtain ⟨first, rfl, within, clear, maps, only⟩ :=
    inv.shares.mallocUser process state positive fits run
  have bytes : ∀ query, ¬s.machine.PoolByte query →
      m.mem query = markRun s.machine.mem space.bits first true pgCnt query :=
        fun query other => only.mem query other
  have bit : ∀ page, (processBitmap space.bits).bit m.mem page =
      if first ≤ page ∧ page < first + pgCnt then true
      else (processBitmap space.bits).bit s.machine.mem page := by
    intro page
    have same := bytes ((8 * space.bits + page) / 8) (laid.not_poolByte (.inl (by omega)))
    exact (Bytes.bit_congr same).trans (bit_markRun _ _ _ (by omega) page)
  have start : (userVaddrStart + 4096 * first) / 4096 = userVaddrStart / 4096 + first := by
    rw [userVaddrStart]
    omega
  refine inv.user low member running maps (.of_eq only.pool_eq only.kernelVaddr_eq)
    (congrArg Machine.running only.same :) (fun query other off => ?_) (fun page _ set => ?_) ?_
    (fun number new => ?_) (fun number new frame held => ?_) fun thread => ?_
  · refine (bytes query other).trans (Bytes.setBits_of_ne _ _ fun idx idxLt => ?_)
    omega
  · rw [bit, set, ite_self]
  · rw [bit, settled.stack started, ite_self]
  · rw [start] at new
    refine ⟨number - userVaddrStart / 4096, by omega, by omega, ?_⟩
    rw [bit, if_pos (by omega)]
  · rw [start] at new
    obtain ⟨page, -, rfl, set⟩ := settled.pages number frame held
    rw [clear page (by omega) (by omega)] at set
    cases set
  · refine ⟨.inr, fun either => ?_⟩
    rcases either with rfl | old
    · exact started
    · exact old

/-- The running process stores a word. -/
theorem store (inv : Inv tss s) (member : space ∈ s.spaces)
    (running : s.machine.running = space.thread)
    {vaddr word : Nat} (below : vaddr < 0xc0000000) (run : writeVirt s.machine vaddr word = .ok m) :
    Inv tss { s with
      machine := m
      memory := Function.update s.memory space.thread
        (Function.update (s.memory space.thread) vaddr (some word)) } := by
  have isDir : s.Dirs space.dir := ⟨space, member, rfl⟩
  have owned := inv.shares.owned
  obtain ⟨slot, mapped, rfl⟩ := writeVirt_ok run
  rw [inv.current member running] at mapped
  obtain ⟨aligned, -, fits⟩ := inv.shares.dir_lt isDir
  have held : HasRole heapSharing s.Dirs s.machine.tables (.page space.dir (vaddr / 4096))
      (frameOf slot) :=
    holds_of_walk isDir aligned fits (dirIndex_user below) mapped
  have place := walk_of_holds aligned fits held
  rw [mapped, Option.some.injEq] at place
  generalize frameOf slot = frame at held place
  obtain rfl : slot = frame + vaddr % 4096 := place
  have frameAligned := (owned.apart frame (owned.used _ _ held)).aligned
  obtain ⟨shares, holds⟩ := inv.shares.store (owned.used _ _ held) (owned.not_structural_page held)
    (Nat.le_add_right _ _) (by omega : frame + vaddr % 4096 < frame + 4096) word
  refine ⟨shares, fun other member' => ?_, inv.apart, inv.started, ?_⟩
  · by_cases same : other = space
    · subst same
      dsimp only
      rw [Function.update_self]
      exact (inv.settled other member).store inv.shares isDir below held
    · have different : other.thread ≠ space.thread :=
        fun equal => same (inv.thread_inj member' member equal)
      dsimp only
      rw [Function.update_of_ne different]
      refine (inv.settled other member').kept (.of_eq rfl rfl) (fun _ _ => rfl) (fun _ _ set => set)
        (fun page shared => (holds (.shared page) other.dir).mpr shared) ?_
      refine owned.undisturbed ⟨other, member', rfl⟩ frameAligned
        (fun theirs => ?_) fun query off =>
        Words.write_of_ne _ _ (by omega)
      -- the frame is private to the process that stores
      have mine : PrivateTo heapSharing s.machine.tables space.dir frame :=
        .inr (.inr ⟨_, (private_of_page isDir).mpr held⟩)
      exact (inv.apart other member' space member same).1
        (owned.private_unique ⟨other, member', rfl⟩ isDir theirs mine)
  · exact inv.active.keep rfl rfl rfl (fun _ _ set => set) (fun _ member => member) fun _ member =>
      .inl member

/-- Stores of the kernel elsewhere. -/
theorem storesElsewhere (inv : Inv tss s) (layout : SameLayout s.machine m)
    (tables : m.tables = s.machine.tables) (cr3 : m.cr3 = s.machine.cr3)
    (bitmaps : ∀ query, 0xc009a000 ≤ query → query < 0xc009e000 → m.mem query = s.machine.mem query)
    (spaces : ∀ space ∈ s.spaces, ∀ query, space.Byte query → m.mem query = s.machine.mem query) :
    m.Shares s.Dirs ∧ (∀ index < 65536, s.machine.pageBit index = true → m.pageBit index = true) ∧
      ∀ space ∈ s.spaces, space.Settled m (space.thread ∈ s.started) (s.memory space.thread) := by
  obtain ⟨kernelPages, userPages, laid⟩ := inv.shares.laid
  have marks : ∀ index < 65536, s.machine.pageBit index = true → m.pageBit index = true := by
    intro index small set
    exact (inv.shares.pageBit_same layout (fun query above below _ => bitmaps query above below)
      small).trans set
  refine ⟨?_, marks, fun space member => ?_⟩
  · refine inv.shares.of_mem layout tables cr3 (fun query byte => ?_) fun page _ set some => ?_
    · have kernelLe := laid.kernelPages_le
      have userLe := laid.userPages_le
      have bitmapBits : s.machine.kernelVaddr.vaddrBitmap.bitmapBits =
          0xc009a000 + kernelPages / 8 + userPages / 8 := by rw [laid.vaddr]
      have bounds := laid.poolByte_bounds byte
      exact bitmaps query (by omega) (by omega)
    · obtain ⟨_, ⟨space, member, rfl⟩, held⟩ := some
      obtain ⟨other, small, -, held'⟩ := (inv.settled space member).pgdir
      have roles := inv.shares.owned.unique (.shared page) (.shared other) space.dir held held'
      injection roles with same
      exact marks page (same ▸ small) set
  · refine (inv.settled space member).kept layout (spaces space member) marks
      (fun page held => ?_) ?_
    · rwa [tables]
    · rw [tables]
      exact .refl _ _ _

theorem elsewhere (inv : Inv tss s) (other : s.Elsewhere tss m) :
    Inv tss { s with machine := m } := by
  obtain ⟨shares, marks, settled⟩ :=
    inv.storesElsewhere other.layout other.tables other.cr3 other.bitmaps other.spaces
  refine ⟨shares, settled, inv.apart, inv.started, ?_⟩
  exact inv.active.keep other.running other.cr3 other.esp0 marks (fun _ member => member)
    fun _ member => .inl member

/-- Another thread runs, with the directory that belongs to it. -/
theorem switched (inv : Inv tss s) (low : tss.toNat + 8 ≤ 0xc009a000) {mem : Bytes}
    {cr3 thread : Nat}
    (same : ∀ query, (query < tss.toNat + 4 ∨ tss.toNat + 8 ≤ query) →
      mem query = s.machine.mem query)
    (dir : cr3 = 0x100000 ∨ s.Dirs cr3)
    (active : (∀ index < 65536, s.machine.pageBit index = true →
        ({ s.machine with mem := mem } : Machine).pageBit index = true) →
      Active tss
        { s with machine := { s.machine with mem := mem, cr3 := cr3, running := thread } }) :
    Inv tss { s with machine := { s.machine with mem := mem, cr3 := cr3, running := thread } } := by
  obtain ⟨shares, marks, settled⟩ :=
    @storesElsewhere tss s { s.machine with mem := mem } inv (.of_eq rfl rfl)
    rfl rfl (fun query above _ => same query (.inr (by omega))) fun space member query byte => by
      have lower := byte.lower (inv.settled space member).place
      rw [kernelHeapStart] at lower
      exact same query (.inr (by omega))
  obtain ⟨kernelPages, userPages, laid⟩ := shares.laid
  refine ⟨⟨⟨_, _, laid.congr (.of_eq rfl rfl)⟩, shares.owned, shares.boot, shares.kernel, dir,
    shares.marked⟩,
    fun space member => ?_, inv.apart, inv.started, active marks⟩
  exact (settled space member).kept (.of_eq rfl rfl) (fun _ _ => rfl) (fun _ _ set => set)
    (fun _ held => held)
    (.refl _ _ _)

/-- `process_activate` of a process takes its directory and its kernel stack. -/
theorem activate_run (inv : Inv tss s) (member : space ∈ s.spaces) :
    processActivate s.machine tss space.thread = .ok { s.machine with
      mem := storeTssEsp s.machine.mem tss space.thread
      cr3 := space.dir } := by
  obtain ⟨page, small, word, held⟩ := (inv.settled space member).pgdir
  have kernel := inv.shares.kernel_current
  have nonNull : pgdirOf s.machine.mem space.thread ≠ 0 := by
    rw [word, kernelHeapStart]
    omega
  have translated : addrV2p s.machine (kernelHeapStart + 4096 * page) = .ok space.dir :=
    addrV2p_of_walk kernel.self (by rw [kernelHeapStart]; omega)
      (Machine.Shares.walk_page kernel held)
  have first : pageDirActivate s.machine space.thread =
      .ok { s.machine with cr3 := space.dir } := by
    rw [pageDirActivate, if_pos nonNull, word, bind_ok translated]
    rfl
  rw [processActivate, bind_ok first]
  dsimp only
  rw [if_pos nonNull]
  rfl

/-- `process_activate` -/
theorem activate (inv : Inv tss s) (low : tss.toNat + 8 ≤ 0xc009a000) {thread : Nat}
    (who : (∃ space ∈ s.spaces, space.thread = thread) ∨
      pgdirOf s.machine.mem thread = 0 ∧ s.machine.HasPage thread)
    (run : processActivate s.machine tss thread = .ok m) :
    Inv tss { s with machine := m.runBy thread } := by
  rcases who with ⟨space, member, rfl⟩ | ⟨noDir, page⟩
  · obtain ⟨own, -, place, -, ownLt, -⟩ := (inv.settled space member).place
    rw [inv.activate_run member] at run
    cases run
    refine inv.switched low (fun query off => Bytes.write32_of_outside _ _ off)
      (.inr ⟨space, member, rfl⟩)
      fun _ => .inl ⟨space, member, rfl, rfl, ?_⟩
    have esp0 : updateTssEsp space.thread = space.thread + 4096 := by
      rw [updateTssEsp, place, kernelHeapStart]
      omega
    have fits : space.thread + 4096 < 2 ^ 32 := by
      rw [place, kernelHeapStart]
      omega
    exact esp0 ▸ Bytes.read32_write32_self _ (esp0 ▸ fits)
  · have first : pageDirActivate s.machine thread = .ok { s.machine with cr3 := 0x100000 } := by
      rw [pageDirActivate, if_neg (not_not.mpr noDir)]
      rfl
    rw [processActivate, bind_ok first] at run
    dsimp only at run
    rw [if_neg (not_not.mpr noDir)] at run
    cases run
    refine inv.switched low (fun _ _ => rfl) (.inl rfl) fun _ =>
      .inr ⟨rfl, page, fun space member same => ?_⟩
    obtain ⟨page, -, word, -⟩ := (inv.settled space member).pgdir
    have equal : thread = space.thread := same
    rw [← equal, noDir, kernelHeapStart] at word
    omega

/-- No process has been made. -/
theorem initial (start : s.Initial) : Inv tss s := by
  obtain ⟨none, started, m, ram, allMem, lower, upper, absent, low, machine⟩ := start
  have laid := memPoolInit_laid { m with tables := setupPage ram, cr3 := 0x100000 } lower upper
  rw [← machine] at laid
  have tables : s.machine.tables = setupPage ram := by rw [machine, memPoolInit_tables]
  have cr3 : s.machine.cr3 = 0x100000 := by rw [machine, memPoolInit_cr3]
  have noDirs : ∀ dir, ¬s.Dirs dir := by
    rintro dir ⟨space, member, -⟩
    rw [none] at member
    cases member
  have noRole : ∀ role frame, ¬HasRole heapSharing s.Dirs s.machine.tables role frame := by
    intro role frame held
    cases role with
    | shared page =>
        have present : Present (s.machine.tables (heapSlot page)) := held.2.1
        have above : 0x101400 ≤ heapSlot page := Nat.le_add_right _ _
        rw [tables, setupPage_outside ram (.inr above)] at present
        exact absent page held.1 present
    | table dir index => exact noDirs dir held.1
    | page dir number => exact noDirs dir held.1
  refine ⟨⟨⟨_, _, laid⟩, ⟨?_, ?_, ?_, ?_⟩, ?_, ?_, .inl cr3, ?_⟩, ?_, ?_, ?_,
    .inr ⟨cr3, .inl ?_, ?_⟩⟩
  · exact fun role _ frame held => absurd held (noRole role frame)
  · exact fun role frame held => absurd held (noRole role frame)
  · exact fun dir isDir => absurd isDir (noDirs dir)
  · exact fun frame used => laid.used_apart used
  · rw [tables]
    exact setupPage_kernelTables ram
  · exact fun dir isDir => absurd isDir (noDirs dir)
  · exact fun dir _ isDir => absurd isDir (noDirs dir)
  · rw [none]
    simp
  · rw [none]
    simp
  · rw [started]
    simp
  · rwa [machine, memPoolInit_running]
  · rw [none]
    simp

theorem step (inv : Inv tss s) (low : tss.toNat + 8 ≤ 0xc009a000) (taken : Step tss s next) :
    Inv tss next := by
  cases taken with
  | kernelPages positive fits run =>
      obtain ⟨start, -, -, obtains, -, adds⟩ := inv.shares.getPages positive fits run
      exact inv.grows low (obtains.grows start)
        (obtains.clear start (Nat.le_refl _) (by omega)) adds
  | execute fits run =>
      obtain ⟨own, bits, pgdir, dir, rfl, new⟩ := inv.shares.prepare fits run
      rw [new.spaceOf_eq]
      exact inv.execute low new
  | start member running unstarted run => exact inv.start low member running unstarted run
  | malloc member running started positive fits run =>
      exact inv.malloc low member running started positive fits run
  | store member running below _ run => exact inv.store member running below run
  | activate who run => exact inv.activate low who run
  | elsewhere other => exact inv.elsewhere other

end Inv

end

end Spaces

/-! ## Results -/

/-- What processes may rely on: the kernel's half is the same for all, frames of their own halves
are in one place only and are neither tables nor pages of the kernel, and each runs on its own
directory. -/
structure Spaces.Separate (tss : UInt32) (s : Spaces) : Prop where
  kernel : ∀ space ∈ s.spaces, ∀ vaddr, 0xc0000000 ≤ vaddr → vaddr < 0xffc00000 →
    walk s.machine.tables space.dir vaddr = walk s.machine.tables 0x100000 vaddr
  frames : ∀ a ∈ s.spaces, ∀ b ∈ s.spaces, ∀ vaddr vaddr' paddr paddr', vaddr < 0xc0000000 →
    vaddr' < 0xc0000000 → walk s.machine.tables a.dir vaddr = some paddr →
    walk s.machine.tables b.dir vaddr' = some paddr' → frameOf paddr = frameOf paddr' →
    a = b ∧ vaddr / 4096 = vaddr' / 4096
  hidden : ∀ a ∈ s.spaces, ∀ vaddr paddr, vaddr < 0xc0000000 →
    walk s.machine.tables a.dir vaddr = some paddr → 0x200000 ≤ frameOf paddr ∧
      (∀ b ∈ s.spaces, frameOf paddr ≠ b.dir ∧ ∀ index < 768,
        Present (s.machine.tables (b.dir + 4 * index)) →
          frameOf (s.machine.tables (b.dir + 4 * index)) ≠ frameOf paddr) ∧
      ∀ vaddr' paddr', kernelHeapStart ≤ vaddr' → vaddr' < 0xffc00000 →
        walk s.machine.tables 0x100000 vaddr' = some paddr' → frameOf paddr' ≠ frameOf paddr
  active : s.Active tss

section

variable {tss : UInt32} {s : Spaces}

theorem KernelTables.pteSlot_upper {ram : Words} {cr3 vaddr : Nat} (kernel : KernelTables ram cr3)
    (lower : 0xc0000000 ≤ vaddr) (upper : vaddr < 0xffc00000) :
    pteSlot ram cr3 vaddr = some (kernelTable (dirIndex vaddr) + 4 * tableIndex vaddr) := by
  obtain ⟨present, table⟩ := kernel.entries (dirIndex vaddr) (by unfold dirIndex; omega)
    (by unfold dirIndex; omega)
  rw [pteSlot_of_present present, pdeSlot, table]

namespace Spaces.Inv

/-- The frame of a user page has the role of this page. -/
theorem role (inv : s.Inv tss) {space : Space} (member : space ∈ s.spaces) {vaddr paddr : Nat}
    (below : vaddr < 0xc0000000) (run : walk s.machine.tables space.dir vaddr = some paddr) :
    HasRole heapSharing s.Dirs s.machine.tables (.page space.dir (vaddr / 4096))
      (frameOf paddr) := by
  have isDir : s.Dirs space.dir := ⟨space, member, rfl⟩
  obtain ⟨aligned, -, fits⟩ := inv.shares.dir_lt isDir
  exact holds_of_walk isDir aligned fits (dirIndex_user below) run

theorem separate (inv : s.Inv tss) : s.Separate tss where
  kernel space member vaddr lower upper := by
    have slot := (inv.shares.kernel space.dir ⟨space, member, rfl⟩).pteSlot_upper lower upper
    rw [walk, walk, slot, inv.shares.boot.pteSlot_upper lower upper]
  frames a inA b inB vaddr vaddr' paddr paddr' below below' run run' same := by
    obtain ⟨-, -, fits⟩ := inv.shares.dir_lt ⟨a, inA, rfl⟩
    obtain ⟨-, -, fits'⟩ := inv.shares.dir_lt ⟨b, inB, rfl⟩
    obtain ⟨sameDir, samePage⟩ := inv.shares.owned.isolated ⟨a, inA, rfl⟩ ⟨b, inB, rfl⟩ fits fits'
      (dirIndex_user below) (dirIndex_user below') run run' same
    refine ⟨?_, samePage⟩
    by_contra different
    exact (inv.apart a inA b inB different).1 sameDir
  hidden a inA vaddr paddr below run := by
    obtain ⟨kernelPages, userPages, laid⟩ := inv.shares.laid
    have owned := inv.shares.owned
    have held := inv.role inA below run
    have notStructural := owned.not_structural_page held
    refine ⟨(laid.used_lt (owned.used _ _ held)).1,
      fun b inB => ⟨fun same => ?_, fun index lt present same => ?_⟩,
      fun vaddr' paddr' lower upper run' same => ?_⟩
    · exact notStructural (.inl ⟨b, inB, same.symm⟩)
    · exact notStructural (.inr ⟨b.dir, index, ⟨b, inB, rfl⟩, lt, present, same⟩)
    · rw [kernelHeapStart] at lower
      obtain ⟨page, offset, small, rfl⟩ : ∃ page offset, offset < 4096 ∧
          vaddr' = 0xc0100000 + 4096 * page + offset :=
        ⟨(vaddr' - 0xc0100000) / 4096, (vaddr' - 0xc0100000) % 4096,
          Nat.mod_lt _ (by decide), by omega⟩
      obtain ⟨frame, shared, rfl⟩ :=
        @Machine.Shares.shared_of_walk s.Dirs _ _ _ _ _ inv.shares.boot (by omega) small run'
      have used := owned.used _ _ shared
      rw [frameOf_add (laid.used_apart used).aligned (laid.used_lt used).2 small] at same
      rw [same] at shared
      cases owned.unique _ _ _ held shared
  active := inv.active

theorem reachable (low : tss.toNat + 8 ≤ 0xc009a000) (reached : (spaceSystem tss).Reachable s) :
    s.Inv tss := by
  have base (state : Spaces) (start : state.Initial) : state.Inv tss := initial start
  have preserved (state next : Spaces) (inv : state.Inv tss) (taken : Spaces.Step tss state next) :
      next.Inv tss := inv.step low taken
  exact reached.invariant base preserved

end Spaces.Inv

/-- 32 MB of memory, and no process yet. -/
def Spaces.booted : Spaces where
  machine := memPoolInit Machine.booted 0x2000000
  spaces := []
  started := []
  memory _ _ := none

end

end Pumelo
