import Pumelo.MallocCall
import Pumelo.SchedulerRun

/-!
# Threads until memory runs out

Under the directory that the loader built, `get_kernel_pages(1)` obtains a page or runs off
a bitmap.  Each thread takes a frame, so a kernel that goes on starting threads ends in the
assertion of `bitmap_scan`.
-/

namespace Pumelo

open Foundation PageWalk

/-- The panic of a scan that finds nothing. -/
def noPage : Fault := .panic "assertion failed: idx_byte < btmp->bitmap_len"

section

variable {m : Machine} {kernelPages userPages index page : Nat}

/-- A page that was entered in the tables can be cleared through its address. -/
theorem Laid.clearVirt_withPage (laid : Laid m kernelPages userPages)
    (kernel : KernelTables m.tables m.cr3) (boot : frameOf m.cr3 = 0x100000)
    (inside : page < 260864) (frameInside : index < m.frameCount .kernel) (mem : Bytes) :
    clearVirt { m.withPage index page with mem := mem } (0xc0100000 + 4096 * page) 1024 =
      .ok { m.withPage index page with
        mem := mem
        tables := (m.withPage index page).tables.clearFrame (m.frameAddr .kernel index) } := by
  obtain ⟨-, aligned, -, -, above, fits⟩ := laid.frameAddr_spec frameInside
  obtain ⟨slotLower, slotUpper⟩ := KernelTables.heapSlot_bounds inside
  have kernel' := kernel.withPage inside index
  have slot : ∀ offset, offset < 1024 → pteSlot (m.withPage index page).tables m.cr3
      (0xc0100000 + 4096 * page + 4 * offset) = some (heapSlot page) := by
    intro offset small
    rw [pteSlot_of_page _ _ (show (0xc0100000 + 4096 * page + 4 * offset) / 2 ^ 12 =
      (0xc0100000 + 4096 * page) / 2 ^ 12 by omega)]
    exact kernel'.pteSlot_heap inside
  have entry : (m.withPage index page).tables (heapSlot page) =
      m.frameAddr .kernel index + 7 := Words.write_self _ _ _
  have present : Present (m.frameAddr .kernel index + 7) := by
    rw [Present]
    omega
  refine (clearVirt_of_walk ?_ ?_ ?_).trans rfl
  · intro offset small
    have mapped : walk (m.withPage index page).tables m.cr3
        (0xc0100000 + 4096 * page + 4 * offset) =
        some (m.frameAddr .kernel index + 4 * offset) := by
      rw [walk, slot offset small, Option.bind_some, entry, if_pos present,
        frameOf_add aligned fits (by decide), pageOffset]
      congr 2
      omega
    exact mapped
  · intro offset other small otherSmall
    change pdeSlot m.cr3 _ ≠ _
    rw [pdeSlot, boot, dirIndex]
    omega
  · intro offset other found small otherSmall same
    have equal := (slot offset small).symm.trans same
    obtain rfl := Option.some.inj equal
    omega

/-- A directory below the frames of the pools does not change when a frame is cleared. -/
theorem KernelTables.clearFrame {ram : Words} {cr3 frame : Nat} (kernel : KernelTables ram cr3)
    (boot : frameOf cr3 = 0x100000) (above : 0x200000 ≤ frame) :
    KernelTables (ram.clearFrame frame) cr3 := by
  have entry : ∀ index, index ≤ 1023 →
      ram.clearFrame frame (frameOf cr3 + 4 * index) = ram (frameOf cr3 + 4 * index) := by
    intro index small
    apply Words.clearFrame_outside
    rw [boot]
    omega
  refine ⟨?_, fun index lower upper => ?_, kernel.apart⟩
  · have self := kernel.self
    rw [SelfMapped] at self ⊢
    rwa [entry 1023 (Nat.le_refl _)]
  · rw [entry index (by omega)]
    exact kernel.entries index lower upper

/-- The page that `malloc_pages` entered is cleared, and the tables stay the kernel's. -/
theorem Laid.clearPages_withPage (laid : Laid m kernelPages userPages)
    (kernel : KernelTables m.tables m.cr3) (boot : frameOf m.cr3 = 0x100000)
    (inside : page < 260864) (frameInside : index < m.frameCount .kernel) :
    ∃ m', clearPages (m.withPage index page) (0xc0100000 + 4096 * page) 1 = .ok m' ∧
      m'.freeFrames .kernel = (m.withPage index page).freeFrames .kernel ∧
      m'.cr3 = m.cr3 ∧ KernelTables m'.tables m'.cr3 := by
  have kernelLe := laid.kernelPages_le
  have userLe := laid.userPages_le
  have bitmapBits : (m.withPage index page).kernelVaddr.vaddrBitmap.bitmapBits =
      0xc009a000 + kernelPages / 8 + userPages / 8 := by rw [(laid.withPage index page).vaddr]
  have frames := (laid.withPage index page).freeFrames_of_virtual (fun query below =>
    (m.withPage index page).mem.fill_of_outside 0 (.inl (show query < 0xc0100000 + 4096 * page by
      omega)) : ∀ query < _, ((m.withPage index page).mem.fill (0xc0100000 + 4096 * page) 0 4096)
        query = _) .kernel
  have size : 1 * pageSize % 2 ^ 32 = 4096 := by decide
  obtain ⟨-, -, -, -, above, -⟩ := laid.frameAddr_spec frameInside
  have cleared := laid.clearVirt_withPage kernel boot inside frameInside
    ((m.withPage index page).mem.fill (0xc0100000 + 4096 * page) 0 4096)
  refine ⟨{ m.withPage index page with
      mem := (m.withPage index page).mem.fill (0xc0100000 + 4096 * page) 0 4096
      tables := (m.withPage index page).tables.clearFrame (m.frameAddr .kernel index) }, ?_,
        frames, rfl,
    (kernel.withPage inside index).clearFrame boot above⟩
  rw [clearPages, size]
  exact cleared

/-- `get_kernel_pages(1)` returns where `malloc_pages` does. -/
theorem Laid.getKernelPages_of_malloc (laid : Laid m kernelPages userPages)
    (kernel : KernelTables m.tables m.cr3) (boot : frameOf m.cr3 = 0x100000) {vaddr : Nat}
    {m1 : Machine} (malloc : mallocPages m .kernel 1 = .ok (vaddr, m1)) :
    ∃ m', getKernelPages m 1 = .ok (vaddr, m') ∧
      (m.freeFrames .kernel).card ≤ (m'.freeFrames .kernel).card + 1 ∧ m'.cr3 = m.cr3 ∧
      KernelTables m'.tables m'.cr3 := by
  obtain ⟨start, index, mem, inside, frameInside, rfl, rfl, same⟩ :=
    laid.mallocPages_withPage kernel malloc
  have nonNull : 0xc0100000 + 4096 * start ≠ 0 := by omega
  obtain ⟨m', cleared, frames, kept⟩ :=
    (laid.of_mem mem).clearPages_withPage kernel boot inside frameInside
  have fewer : (m.freeFrames .kernel).card ≤ (m'.freeFrames .kernel).card + 1 := by
    rw [frames, (laid.of_mem mem).freeFrames_withPage frameInside, same]
    exact Nat.sub_le_iff_le_add.mp Finset.pred_card_le_card_erase
  refine ⟨m', ?_, fewer, kept⟩
  rw [getKernelPages, bind_ok malloc]
  dsimp only
  rw [if_pos nonNull, bind_ok cleared]
  rfl

/-- A page of the kernel heap and a frame for it are left. -/
structure Machine.PageLeft (m : Machine) : Prop where
  page : ∃ index < 8 * m.kernelVaddr.vaddrBitmap.bitmapLen, m.pageBit index = false
  frame : (m.freeFrames .kernel).Nonempty

/-- Where a page is left, `get_kernel_pages(1)` returns one. -/
theorem Laid.getKernelPages_left (laid : Laid m kernelPages userPages)
    (kernel : KernelTables m.tables m.cr3) (boot : frameOf m.cr3 = 0x100000) (left : m.PageLeft) :
    ∃ vaddr m', getKernelPages m 1 = .ok (vaddr, m') ∧
      (m.freeFrames .kernel).card ≤ (m'.freeFrames .kernel).card + 1 ∧ m'.cr3 = m.cr3 ∧
      KernelTables m'.tables m'.cr3 := by
  obtain ⟨⟨index, inside, clear⟩, frame⟩ := left
  obtain ⟨vaddr, m', malloc⟩ := (laid.mallocPages_heap kernel (by decide) (by decide)).mpr
    ⟨bitmapScan_one_of_clear inside clear, Finset.card_pos.mpr frame⟩
  exact ⟨vaddr, laid.getKernelPages_of_malloc kernel boot malloc⟩

end

/-! ## Runs that end for want of a page -/

/-- The directory is the one that the loader built. -/
structure Machine.BootTables (m : Machine) : Prop where
  kernel : KernelTables m.tables m.cr3
  boot : frameOf m.cr3 = 0x100000

/-- The pages of the kernel heap that are not in use. -/
def Machine.freePages (m : Machine) : Finset Nat :=
  (Finset.range (2 ^ 15)).filter fun index => m.pageBit index = false

section

variable {m m' : Machine} {d : Dispatcher Nat Asleep} {kernelPages userPages own : Nat}

/-- The bits of pages lie in the bitmaps. -/
theorem Laid.pageBit_congr (laid : Laid m kernelPages userPages)
    (kernelVaddr : m'.kernelVaddr = m.kernelVaddr)
    (agree : ∀ query, 0xc009a000 ≤ query → query < 0xc009e000 → m'.mem query = m.mem query)
    {index : Nat} (small : index < 2 ^ 15) : m'.pageBit index = m.pageBit index := by
  have kernelLe := laid.kernelPages_le
  have userLe := laid.userPages_le
  have bitmapBits : m.kernelVaddr.vaddrBitmap.bitmapBits =
      0xc009a000 + kernelPages / 8 + userPages / 8 := by rw [laid.vaddr]
  rw [Machine.pageBit, Machine.pageBit, kernelVaddr]
  exact Bytes.bit_congr (agree _ (by omega) (by omega))

end

namespace Tasks

variable {s : Tasks}

/-- `kthread_init` returns with the pools of `mem_init` and the directory that the loader
built, and another page is left. -/
theorem kthreadInit_booted :
    ∃ s, taskSystem.Reachable s ∧ s.machine.BootTables ∧ s.machine.PageLeft := by
  obtain ⟨m, -, initial, tables, -, -, -⟩ := memInit_booted
  have laid := initial.heap.laid
  have running : m.running = 0xc009e000 := initial.running
  have aligned : m.running % 4096 = 0 := by rw [running]
  have lower : 0xc009e000 ≤ m.running := by rw [running]
  have upper : m.running + 4096 ≤ kernelHeapStart := by
    rw [running]
    decide
  obtain ⟨mem, made, booted, kept⟩ := schedules_main laid aligned lower upper
  generalize main : ({ m with
    mem := mem
    mainThread := m.running } : Machine) = m1 at made booted
  have layout : SameLayout m m1 := by
    rw [← main]
    exact .of_eq rfl rfl
  have tables1 : m1.BootTables := by
    rw [← main]
    refine ⟨tables, ?_⟩
    simp only [initial.cr3]
    decide
  have laid1 := laid.congr layout
  have bitmaps : ∀ {m m' : Machine}, Laid m 3840 3840 →
      (∀ query, 0xc009a000 ≤ query → query < 0xc009e000 → m'.mem query = m.mem query) →
      ∀ query, m.PoolByte query → m'.mem query = m.mem query := by
    intro m m' laid agree query byte
    have bounds := laid.poolByte_bounds byte
    have bitmapBits : m.kernelVaddr.vaddrBitmap.bitmapBits =
        0xc009a000 + 3840 / 8 + 3840 / 8 := by rw [laid.vaddr]
    exact agree query bounds.1 (by omega)
  -- no bit is set yet
  have agree : ∀ query, 0xc009a000 ≤ query → query < 0xc009e000 → m1.mem query = m.mem query := by
    rw [← main]
    exact kept
  have virtual : ∀ index < 2, m1.pageBit index = false := by
    intro index small
    rw [laid.pageBit_congr (by rw [← main]) agree (by omega)]
    exact initial.pages index (by rw [laid.vaddr]; exact Nat.lt_trans small (by decide))
  have frames : 2 ≤ (m1.freeFrames .kernel).card := by
    rw [Machine.freeFrames_congr layout (bitmaps laid agree) .kernel]
    have two : ({0, 1} : Finset Nat) ⊆ m.freeFrames .kernel := by
      intro index member
      have small : index < m.frameCount .kernel := by
        rw [laid.frameCount_kernel]
        simp only [Finset.mem_insert, Finset.mem_singleton] at member
        omega
      exact Machine.mem_freeFrames.mpr ⟨small, initial.frames .kernel index small⟩
    exact (Finset.card_le_card two).trans' (by decide)
  have left1 : m1.PageLeft := by
    refine ⟨⟨0, ?_, virtual 0 (by decide)⟩, Finset.card_pos.mp (by omega)⟩
    rw [laid1.vaddr]
    decide
  obtain ⟨thread, m3, got, fewer, cr3, kernel⟩ :=
    laid1.getKernelPages_left tables1.kernel tables1.boot left1
  obtain ⟨grown, held, absent, notMain, -⟩ := booted.obtained got
  obtain ⟨mem', started, -, kept'⟩ := grown.start held absent notMain
    ⟨nameBytes ['i', 'd', 'l', 'e'], 10, 0, 0, 0⟩ (by decide)
  have run : kthreadInitPage m 0 0 = .ok { m3 with
      mem := mem'
      idleThread := thread } := by
    have same : (listInit m m.image.threadReadyList).image = m.image := rfl
    simp only [kthreadInitPage, same]
    rw [bind_ok made, threadStartPage, bind_ok got]
    simp only
    rw [bind_ok started]
    rfl
  -- one of the first two pages is the idle thread's
  obtain ⟨own, inside, -, obtains⟩ := getKernelPages_obtains laid1 (by decide) (by decide) got
  have laid3 := laid1.congr (obtains.grows own).layout
  have page : ∃ index < 2, m3.pageBit index = false := by
    obtain ⟨other, small, different⟩ : ∃ other < 2, other ≠ own := by
      by_cases first : own = 0
      · exact ⟨1, by decide, by omega⟩
      · exact ⟨0, by decide, Ne.symm first⟩
    refine ⟨other, small, ?_⟩
    rw [obtains.bits other (by omega), if_neg (by omega), virtual other small]
  have left : ({ m3 with
      mem := mem'
      idleThread := thread } : Machine).PageLeft := by
    obtain ⟨index, small, clear⟩ := page
    refine ⟨⟨index, ?_, ?_⟩, Finset.card_pos.mp ?_⟩
    · rw [laid3.vaddr]
      exact Nat.lt_trans small (by decide)
    · refine Eq.trans ?_ clear
      exact @Laid.pageBit_congr m3 { m3 with
        mem := mem'
        idleThread := thread } _ _ laid3 rfl kept' index (Nat.lt_trans small (by decide))
    · rw [@Machine.freeFrames_congr m3 { m3 with
        mem := mem'
        idleThread := thread } (.of_eq rfl rfl) (bitmaps laid3 kept') .kernel]
      omega
  exact ⟨⟨_, [m.running, thread]⟩, .init ⟨m, 3840, 3840, 0, 0, laid, aligned, lower, upper, run,
    rfl⟩, ⟨kernel, cr3 ▸ tables1.boot⟩, left⟩

end Tasks

end Pumelo
