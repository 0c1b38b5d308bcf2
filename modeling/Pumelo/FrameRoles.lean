import Pumelo.Foundation.Ownership
import Pumelo.PageRoundTrip
import Pumelo.Process

/-!
# Frames in use

The frames that are marked in the bitmaps of the pools are those that page tables name: pages of
the kernel heap, tables of the processes and their pages.  What the functions of `mem.c` do to the
bitmaps and tables, by the role that a frame gets or loses.
-/

namespace Pumelo

open Foundation PageWalk

/-- All directories have the pages of the kernel heap, and 768 entries of their own. -/
def heapSharing : Sharing where
  pages := 260864
  slot := heapSlot
  own := 768
  slot_inj _ _ _ _ := KernelTables.heapSlot_inj
  own_le := by decide

/-- A frame that is marked in its pool. -/
def Machine.FrameUsed (m : Machine) (frame : Nat) : Prop :=
  ∃ pf index, index < m.frameCount pf ∧ m.frameBit pf index = true ∧ m.frameAddr pf index = frame

/-- What every call keeps: each frame has one role, every directory has the kernel's tables, and the
pages with directories are marked. -/
structure Machine.Shares (m : Machine) (dirs : Nat → Prop) : Prop where
  laid : ∃ kernelPages userPages, Laid m kernelPages userPages
  owned : Owned heapSharing dirs m.tables m.FrameUsed
  boot : KernelTables m.tables 0x100000
  kernel : ∀ dir, dirs dir → KernelTables m.tables dir
  current : m.cr3 = 0x100000 ∨ dirs m.cr3
  marked : ∀ dir page, dirs dir → HasRole heapSharing dirs m.tables (.shared page) dir →
    m.pageBit page = true

/-- No page of the run holds a directory. -/
def Machine.NoDirectory (m : Machine) (dirs : Nat → Prop) (page cnt : Nat) : Prop :=
  ∀ k < cnt, ∀ dir, dirs dir → ¬HasRole heapSharing dirs m.tables (.shared (page + k)) dir

/-- Pages of the heap from `page` on got these frames of the kernel pool, and no other role
changed. -/
def Machine.Enters (m m' : Machine) (dirs : Nat → Prop) (page : Nat) (frames : List Nat) : Prop :=
  ∀ role frame, HasRole heapSharing dirs m'.tables role frame ↔
    (∃ k index, frames[k]? = some index ∧ role = .shared (page + k) ∧
      frame = m.frameAddr .kernel index) ∨
    (∀ k < frames.length, role ≠ .shared (page + k)) ∧ HasRole heapSharing dirs m.tables role frame

/-- Frames that were in use still are, and nothing was stored in them. -/
structure Machine.KeepsUsed (m m' : Machine) : Prop where
  used : ∀ frame, m.FrameUsed frame → m'.FrameUsed frame
  words : ∀ frame, m.FrameUsed frame → ∀ query, frame ≤ query → query < frame + 4096 →
    m'.tables query = m.tables query

/-- A run of pages of the heap that was free got frames that were free. -/
structure Machine.Got (m m' : Machine) (dirs : Nat → Prop) (start pgCnt : Nat) (frames : List Nat) :
    Prop where
  small : start + pgCnt ≤ 131072
  few : pgCnt ≤ 32768
  clear : ∀ k < pgCnt, m.pageBit (start + k) = false
  length : frames.length = pgCnt
  free : ∀ index ∈ frames, index ∈ m.freeFrames .kernel
  left : (m'.freeFrames .kernel).card + pgCnt = (m.freeFrames .kernel).card
  user : m'.freeFrames .user = m.freeFrames .user
  cr3 : m'.cr3 = m.cr3
  shares : m'.Shares dirs
  noDir : m'.NoDirectory dirs start pgCnt
  enters : m.Enters m' dirs start frames
  keeps : m.KeepsUsed m'

/-- A free page of the heap became a directory, with the kernel's tables and none of its own. -/
structure Machine.NewDirectory (m m' : Machine) (dirs : Nat → Prop) (page dir : Nat) : Prop where
  small : page < 65536
  unused : ¬m.FrameUsed dir
  cr3 : m'.cr3 = m.cr3
  shares : m'.Shares (fun other => other = dir ∨ dirs other)
  holds : ∀ role frame, HasRole heapSharing (fun other => other = dir ∨
    dirs other) m'.tables role frame ↔
    if role = .shared page then frame = dir else HasRole heapSharing dirs m.tables role frame
  obtains : Obtains m m' page 1
  keeps : m.KeepsUsed m'
  left : (m'.freeFrames .kernel).card + 1 = (m.freeFrames .kernel).card
  user : m'.freeFrames .user = m.freeFrames .user

section

variable {m m' m'' : Machine} {kernelPages userPages : Nat}

theorem Obtains.of_tables {start pgCnt : Nat} (obtains : Obtains m m' start pgCnt)
    (tables : Words) :
    Obtains m { m' with tables := tables } start pgCnt where
  same := by rw [obtains.same]
  clear := obtains.clear
  bits := obtains.bits
  bytes := obtains.bytes

theorem Machine.KeepsUsed.refl (m : Machine) : m.KeepsUsed m :=
  ⟨fun _ used => used, fun _ _ _ _ _ => rfl⟩

theorem Machine.KeepsUsed.trans (first : m.KeepsUsed m') (second : m'.KeepsUsed m'') :
    m.KeepsUsed m'' where
  used frame used := second.used frame (first.used frame used)
  words frame used query lower upper :=
    (second.words frame (first.used frame used) query lower upper).trans
      (first.words frame used query lower upper)

/-- Frames lie behind the kernel's tables. -/
theorem Laid.used_apart (laid : Laid m kernelPages userPages) {frame : Nat}
    (used : m.FrameUsed frame) :
    heapSharing.Apart frame := by
  obtain ⟨pf, index, inside, -, rfl⟩ := used
  obtain ⟨-, aligned, -, -, above, -⟩ := laid.frameAddr_spec inside
  refine ⟨aligned, fun page pageInside => .inl ?_⟩
  have bounds := KernelTables.heapSlot_bounds pageInside
  simp only [heapSharing]
  omega

theorem Laid.used_lt (laid : Laid m kernelPages userPages) {frame : Nat}
    (used : m.FrameUsed frame) :
    0x200000 ≤ frame ∧ frame < 2 ^ 32 := by
  obtain ⟨pf, index, inside, -, rfl⟩ := used
  obtain ⟨-, -, -, -, above, fits⟩ := laid.frameAddr_spec inside
  exact ⟨above, fits⟩

theorem Laid.not_used (laid : Laid m kernelPages userPages) {pf : PoolFlags} {index : Nat}
    (inside : index < m.frameCount pf) (clear : m.frameBit pf index = false) :
    ¬m.FrameUsed (m.frameAddr pf index) := by
  rintro ⟨pf', other, otherInside, marked, equal⟩
  obtain ⟨rfl, rfl⟩ := laid.frameAddr_inj otherInside inside equal
  rw [clear] at marked
  cases marked

/-- The marks depend on the bitmaps of the pools only. -/
theorem Machine.frameUsed_congr (layout : SameLayout m m')
    (same : ∀ query, m.PoolByte query → m'.mem query = m.mem query) (frame : Nat) :
    m'.FrameUsed frame ↔ m.FrameUsed frame := by
  refine exists_congr fun pf => exists_congr fun index => ?_
  have count : m'.frameCount pf = m.frameCount pf := by
    rw [Machine.frameCount, Machine.frameCount, layout.poolBitmap]
  have addr : m'.frameAddr pf index = m.frameAddr pf index := by
    rw [Machine.frameAddr, Machine.frameAddr, layout.paddrStart]
  rw [count, addr]
  refine and_congr_right fun inside => and_congr_left' ?_
  have bit : m'.frameBit pf index = m.frameBit pf index := by
    rw [Machine.frameBit, Machine.frameBit, layout.poolBitmap]
    refine Bytes.bit_congr (same _ ⟨pf, by omega, ?_⟩)
    rw [Machine.frameCount] at inside
    omega
  rw [bit]

theorem Machine.KeepsUsed.of_mem (layout : SameLayout m m') (tables : m'.tables = m.tables)
    (same : ∀ query, m.PoolByte query → m'.mem query = m.mem query) : m.KeepsUsed m' where
  used frame := (Machine.frameUsed_congr layout same frame).mpr
  words _ _ _ _ _ := by rw [tables]

theorem Laid.used_setFrame (laid : Laid m kernelPages userPages) {pf : PoolFlags} {index : Nat}
    (inside : index < m.frameCount pf) (value : Bool) (frame : Nat) :
    (m.setFrame pf index value).FrameUsed frame ↔
      if frame = m.frameAddr pf index then value = true else m.FrameUsed frame := by
  have addr (pf' : PoolFlags) (index' : Nat) :
      (m.setFrame pf index value).frameAddr pf' index' = m.frameAddr pf' index' := rfl
  constructor
  · rintro ⟨pf', index', inside', marked, rfl⟩
    rw [addr]
    rw [laid.frameBit_setFrame value inside inside'] at marked
    split at marked
    · next same =>
        obtain ⟨rfl, rfl⟩ := same
        rwa [if_pos rfl]
    · next different =>
        rw [if_neg]
        · exact ⟨pf', index', inside', marked, rfl⟩
        · exact fun equal => different (laid.frameAddr_inj inside' inside equal)
  · intro marked
    split at marked
    · next same =>
        refine ⟨pf, index, inside, ?_, same.symm⟩
        rw [laid.frameBit_setFrame value inside inside, if_pos ⟨rfl, rfl⟩, marked]
    · next different =>
        obtain ⟨pf', index', inside', marked, rfl⟩ := marked
        refine ⟨pf', index', inside', ?_, rfl⟩
        rw [laid.frameBit_setFrame value inside inside', if_neg]
        · exact marked
        · rintro ⟨rfl, rfl⟩
          exact different rfl

/-- `alloc_physical_pages` marks a frame that was not in use. -/
theorem Laid.alloc_used (laid : Laid m kernelPages userPages) {pf : PoolFlags} {paddr : Nat}
    (run : allocPhysicalPages m pf = .ok (paddr, m')) :
    ∃ index, index < m.frameCount pf ∧ paddr = m.frameAddr pf index ∧
      m' = m.setFrame pf index true ∧
      ¬m.FrameUsed paddr ∧ ∀ frame, m'.FrameUsed frame ↔ frame = paddr ∨ m.FrameUsed frame := by
  obtain ⟨index, inside, clear, -, addr, rfl⟩ := allocPhysicalPages_ok run
  rw [(laid.frameAddr_spec inside).1] at addr
  refine ⟨index, inside, addr, rfl, addr ▸ laid.not_used inside clear, fun frame => ?_⟩
  · rw [laid.used_setFrame inside, addr]
    by_cases same : frame = m.frameAddr pf index <;> simp [same]

theorem Machine.Enters.one {dirs : Nat → Prop} {page index : Nat}
    (enters : m.Enters m' dirs page [index])
    (role : Role) (frame : Nat) : HasRole heapSharing dirs m'.tables role frame ↔
      if role = .shared page then frame = m.frameAddr .kernel index
      else HasRole heapSharing dirs m.tables role frame := by
  rw [enters role frame]
  constructor
  · rintro (⟨k, other, at', rfl, rfl⟩ | ⟨others, held⟩)
    · cases k with
      | zero =>
          cases at'
          exact if_pos rfl ▸ rfl
      | succ k => cases at'
    · have other := others 0 (Nat.succ_pos _)
      rw [Nat.add_zero] at other
      rwa [if_neg other]
  · intro held
    split at held
    · next same => exact .inl ⟨0, index, rfl, same, held⟩
    · next different =>
        refine .inr ⟨fun k lt => ?_, held⟩
        obtain rfl : k = 0 := Nat.lt_one_iff.mp lt
        exact different

theorem Machine.freeFrames_tables (m : Machine) (tables : Words) (pf : PoolFlags) :
    ({ m with tables := tables } : Machine).freeFrames pf = m.freeFrames pf := rfl

/-- The frames of the user pool are left. -/
theorem Laid.setPages_user (laid : Laid m kernelPages userPages) {word : Nat → Nat} {page : Nat}
    {frames : List Nat} (inside : ∀ index ∈ frames, index < m.frameCount .kernel) :
    (m.setPages true word page frames).freeFrames .user = m.freeFrames .user := by
  induction frames generalizing m page with
  | nil => rfl
  | cons index rest ih =>
      have later := @ih { m.setFrame .kernel index true with
        tables := m.tables.write (heapSlot page) (word index) }
        (laid.congr (.of_eq rfl rfl)) (page + 1)
        fun other member => inside other (List.mem_cons_of_mem _ member)
      refine later.trans ((Machine.freeFrames_tables _ _ _).trans ?_)
      ext other
      simp only [Machine.mem_freeFrames]
      refine and_congr_right fun otherInside => ?_
      rw [laid.frameBit_setFrame true (inside index (List.mem_cons_self ..)) otherInside,
        if_neg (by simp)]

/-- As many frames fewer are left. -/
theorem Laid.setPages_left (laid : Laid m kernelPages userPages) {page : Nat} {frames : List Nat}
    (nodup : frames.Nodup) (free : ∀ index ∈ frames, index ∈ m.freeFrames .kernel) :
    ((m.setPages true (fun index => m.frameAddr .kernel index + 7) page frames).freeFrames
      .kernel).card +
      frames.length = (m.freeFrames .kernel).card := by
  induction frames generalizing m page with
  | nil => rfl
  | cons index rest ih =>
      obtain ⟨notIn, nodup⟩ := List.nodup_cons.mp nodup
      have member := free index (List.mem_cons_self ..)
      have fewer : (m.withPage index page).freeFrames .kernel =
          (m.freeFrames .kernel).erase index :=
        laid.freeFrames_withPage (Machine.mem_freeFrames.mp member).1 page
      have stillFree : ∀ other ∈ rest, other ∈ (m.withPage index page).freeFrames .kernel := by
        intro other inside
        rw [fewer]
        refine Finset.mem_erase.mpr ⟨?_, free other (List.mem_cons_of_mem _ inside)⟩
        rintro rfl
        exact notIn inside
      have later := @ih (m.withPage index page) (laid.withPage index page)
        (page + 1) nodup stillFree
      rw [fewer, Finset.card_erase_of_mem member] at later
      have positive := Finset.card_pos.mpr ⟨index, member⟩
      have same : m.setPages true (fun index => m.frameAddr .kernel index + 7) page
        (index :: rest) =
          (m.withPage index page).setPages true
            (fun other => (m.withPage index page).frameAddr .kernel other + 7) (page + 1) rest :=
              rfl
      rw [same, List.length_cons]
      omega

namespace Machine.Shares

variable {dirs : Nat → Prop} {frame page : Nat}

theorem dir_lt (shares : m.Shares dirs) {dir : Nat} (isDir : dirs dir) :
    dir % 4096 = 0 ∧ 0x200000 ≤ dir ∧ dir < 2 ^ 32 := by
  obtain ⟨kernelPages, userPages, laid⟩ := shares.laid
  obtain ⟨page, held⟩ := shares.owned.directory dir isDir
  obtain ⟨above, fits⟩ := laid.used_lt (shares.owned.used _ _ held)
  exact ⟨(shares.owned.dir_apart isDir).aligned, above, fits⟩

theorem frameOf_dir (shares : m.Shares dirs) {dir : Nat} (isDir : dirs dir) :
    frameOf dir = dir := by
  obtain ⟨aligned, -, fits⟩ := shares.dir_lt isDir
  unfold frameOf
  omega

theorem kernel_current (shares : m.Shares dirs) : KernelTables m.tables m.cr3 := by
  rcases shares.current with boot | isDir
  · exact boot ▸ shares.boot
  · exact shares.kernel _ isDir

/-- The kernel's tables stay as long as the upper quarters of the directories do. -/
theorem of_owned (shares : m.Shares dirs)
    (laid : ∃ kernelPages userPages, Laid m' kernelPages userPages)
    (cr3 : m'.cr3 = m.cr3) (owned : Owned heapSharing dirs m'.tables m'.FrameUsed)
    (upper : ∀ dir, dir = 0x100000 ∨ dirs dir → ∀ index, 768 ≤ index → index < 1024 →
      m'.tables (dir + 4 * index) = m.tables (dir + 4 * index))
    (marked : ∀ dir page, dirs dir → HasRole heapSharing dirs m'.tables (.shared page) dir →
      m'.pageBit page = true) : m'.Shares dirs where
  laid := laid
  owned := owned
  boot := shares.boot.congr fun index lower indexLt => upper _ (.inl rfl) index lower indexLt
  kernel dir isDir := (shares.kernel dir isDir).congr fun index lower indexLt => by
    rw [shares.frameOf_dir isDir]
    exact upper dir (.inr isDir) index lower indexLt
  current := cr3 ▸ shares.current
  marked := marked

/-- A frame of the kernel pool is entered as a page of the heap that holds no directory. -/
theorem withPage (shares : m.Shares dirs) {index : Nat} (inside : page < 260864)
    (frameInside : index < m.frameCount .kernel) (clear : m.frameBit .kernel index = false)
    (notDir : ∀ dir, dirs dir → ¬HasRole heapSharing dirs m.tables (.shared page) dir) :
    (m.withPage index page).Shares dirs ∧ m.KeepsUsed (m.withPage index page) ∧ ∀ role frame,
      HasRole heapSharing dirs (m.withPage index page).tables role frame ↔
        if role = .shared page then frame = m.frameAddr .kernel index
        else HasRole heapSharing dirs m.tables role frame := by
  obtain ⟨kernelPages, userPages, laid⟩ := shares.laid
  obtain ⟨-, aligned, -, -, above, fits⟩ := laid.frameAddr_spec frameInside
  have notUsed := laid.not_used frameInside clear
  have fresh : ∀ role, ¬HasRole heapSharing dirs m.tables role (m.frameAddr .kernel index) :=
    fun role held => notUsed (shares.owned.used role _ held)
  have named : Names (m.frameAddr .kernel index + 7) (m.frameAddr .kernel index) :=
    names_add aligned fits (by decide) (by decide)
  have used : ∀ frame, (m.withPage index page).FrameUsed frame ↔
      frame = m.frameAddr .kernel index ∨ m.FrameUsed frame := by
    intro frame
    refine (laid.used_setFrame frameInside true frame).trans ?_
    by_cases same : frame = m.frameAddr .kernel index <;> simp [same]
  have owned : Owned heapSharing dirs m.tables (m.withPage index page).FrameUsed := by
    refine shares.owned.of_used (fun role frame held => (used frame).mpr (.inr ?_))
      fun frame marked => ?_
    · exact shares.owned.used role frame held
    · exact (laid.withPage index page).used_apart marked
  have holds : ∀ role frame, HasRole heapSharing dirs (m.withPage index page).tables role frame ↔
      if role = .shared page then frame = m.frameAddr .kernel index
      else HasRole heapSharing dirs m.tables role frame := by
    intro role frame
    rw [← show Names (m.frameAddr .kernel index + 7) frame ↔ frame = m.frameAddr .kernel index from
      ⟨fun names => names.unique named, fun equal => equal ▸ named⟩]
    exact owned.holds_write_slot inside _ role frame
  obtain ⟨lower, upper⟩ := KernelTables.heapSlot_bounds inside
  refine ⟨shares.of_owned ⟨_, _, laid.withPage index page⟩ rfl ?_ ?_ ?_,
    ⟨fun frame old => (used frame).mpr (.inr old), fun frame old query lower' _ => ?_⟩, holds⟩
  · exact owned.assign holds fresh ((used _).mpr (.inl rfl)) notDir
  · intro dir either index' _ indexLt
    refine Words.write_of_ne _ _ ?_
    rcases either with rfl | isDir
    · omega
    · obtain ⟨-, dirAbove, -⟩ := shares.dir_lt isDir
      omega
  · intro dir other isDir held
    rw [holds] at held
    have bit : (m.withPage index page).pageBit other = m.pageBit other :=
      laid.virtualBit_mapsOnly (.setFrame frameInside true) other
    split at held
    · obtain ⟨page', held'⟩ := shares.owned.directory dir isDir
      exact absurd (held ▸ shares.owned.used _ _ held') notUsed
    · rw [bit]
      exact shares.marked dir other isDir held
  · obtain ⟨oldAbove, -⟩ := laid.used_lt old
    exact Words.write_of_ne _ _ (by omega)

/-- A change of memory that keeps the marks of frames and of the pages with directories. -/
theorem of_mem (shares : m.Shares dirs) (layout : SameLayout m m') (tables : m'.tables = m.tables)
    (cr3 : m'.cr3 = m.cr3) (same : ∀ query, m.PoolByte query → m'.mem query = m.mem query)
    (marked : ∀ page < 2 ^ 18, m.pageBit page = true →
      (∃ dir, dirs dir ∧ HasRole heapSharing dirs m.tables (.shared page) dir) →
        m'.pageBit page = true) :
    m'.Shares dirs := by
  obtain ⟨kernelPages, userPages, laid⟩ := shares.laid
  have used := Machine.frameUsed_congr layout same
  refine shares.of_owned ⟨_, _, laid.congr layout⟩ cr3 ?_ (fun dir _ index _ _ => by rw [tables]) ?_
  · rw [tables]
    refine shares.owned.of_used
      (fun role frame held => (used frame).mpr (shares.owned.used role frame held)) ?_
    exact fun frame marked => shares.owned.apart frame ((used frame).mp marked)
  · intro dir page isDir held
    rw [tables] at held
    have inside : page < 260864 := held.1
    exact marked page (by omega) (shares.marked dir page isDir held) ⟨dir, isDir, held⟩

/-! ## Kernel pages -/

/-- Frames are entered as pages of a run, one after the other. -/
theorem setPages (shares : m.Shares dirs) {frames : List Nat}
    (inside : page + frames.length ≤ 260864)
    (nodup : frames.Nodup) (free : ∀ index ∈ frames, index ∈ m.freeFrames .kernel)
    (noDir : m.NoDirectory dirs page frames.length) :
    (m.setPages true (fun index => m.frameAddr .kernel index + 7) page frames).Shares dirs ∧
      m.KeepsUsed (m.setPages true (fun index => m.frameAddr .kernel index + 7) page frames) ∧
      m.Enters (m.setPages true (fun index => m.frameAddr .kernel index + 7) page frames) dirs page
        frames := by
  induction frames generalizing m page with
  | nil => exact ⟨shares, .refl m, fun role frame => by simp [Machine.setPages]⟩
  | cons index rest ih =>
      obtain ⟨notIn, nodup⟩ := List.nodup_cons.mp nodup
      obtain ⟨frameInside, clear⟩ := Machine.mem_freeFrames.mp (free index (List.mem_cons_self ..))
      obtain ⟨kernelPages, userPages, laid⟩ := shares.laid
      rw [List.length_cons] at inside noDir
      obtain ⟨first, keeps, holds⟩ :=
        shares.withPage (show page < 260864 by omega) frameInside clear
        (noDir 0 (by omega))
      have later : (m.withPage index page).NoDirectory dirs (page + 1) rest.length := by
        intro k lt dir isDir held
        have next : page + 1 + k = page + (k + 1) := by omega
        rw [holds, next, if_neg (by simp)] at held
        exact noDir (k + 1) (by omega) dir isDir held
      have stillFree : ∀ other ∈ rest, other ∈ (m.withPage index page).freeFrames .kernel := by
        intro other member
        rw [laid.freeFrames_withPage frameInside]
        refine Finset.mem_erase.mpr ⟨?_, free other (List.mem_cons_of_mem _ member)⟩
        rintro rfl
        exact notIn member
      obtain ⟨all, keeps', holds'⟩ := ih first (by omega) nodup stillFree later
      refine ⟨all, keeps.trans keeps', fun role frame => (holds' role frame).trans ?_⟩
      constructor
      · rintro (⟨k, other, at', rfl, equal⟩ | ⟨others, held⟩)
        · exact .inl ⟨k + 1, other, at', congrArg Role.shared (by omega), equal⟩
        · rw [holds] at held
          split at held
          · next same => exact .inl ⟨0, index, rfl, same, held⟩
          · next different =>
              refine .inr ⟨fun k lt => ?_, held⟩
              cases k with
              | zero => exact different
              | succ k =>
                  have other := others k (by rw [List.length_cons] at lt; omega)
                  rwa [show page + 1 + k = page + (k + 1) by omega] at other
      · rintro (⟨k, other, at', rfl, equal⟩ | ⟨others, held⟩)
        · cases k with
          | zero =>
              refine .inr ⟨fun k lt same => ?_, (holds _ _).mpr ?_⟩
              · injection same with same
                omega
              · cases at'
                rw [Nat.add_zero, if_pos rfl]
                exact equal
          | succ k => exact .inl ⟨k, other, at', congrArg Role.shared (by omega), equal⟩
        · refine .inr ⟨fun k lt => ?_, (holds _ _).mpr ?_⟩
          · have other := others (k + 1) (by rw [List.length_cons]; omega)
            rwa [show page + (k + 1) = page + 1 + k by omega] at other
          · have other := others 0 (by rw [List.length_cons]; omega)
            rw [Nat.add_zero] at other
            rw [if_neg other]
            exact held

theorem setVirtual (shares : m.Shares dirs) {start pgCnt : Nat} (fits : start + pgCnt ≤ 2 ^ 32) :
    (m.setVirtual true start pgCnt).Shares dirs ∧ m.KeepsUsed (m.setVirtual true start pgCnt) := by
  obtain ⟨kernelPages, userPages, laid⟩ := shares.laid
  have same : ∀ query, m.PoolByte query →
      (m.setVirtual true start pgCnt).mem query = m.mem query := by
    intro query byte
    have bounds := laid.poolByte_bounds byte
    refine Bytes.setBits_of_ne _ _ fun idx idxLt => ?_
    rw [Nat.mod_eq_of_lt (by omega)]
    omega
  refine ⟨shares.of_mem (.of_eq rfl rfl) rfl rfl same fun page _ marked _ => ?_,
    .of_mem (.of_eq rfl rfl) rfl same⟩
  · refine (bit_markRun m.mem _ true fits page).trans ?_
    split
    · rfl
    · exact marked

/-- `malloc_pages` for the kernel. -/
theorem mallocKernel (shares : m.Shares dirs) {pgCnt vaddr : Nat} (positive : 1 ≤ pgCnt)
    (fits : pgCnt < 2 ^ 32) (run : mallocPages m .kernel pgCnt = .ok (vaddr, m')) :
    ∃ start frames, vaddr = 0xc0100000 + 4096 * start ∧ m.Got m' dirs start pgCnt frames := by
  obtain ⟨kernelPages, userPages, laid⟩ := shares.laid
  obtain ⟨start, frames, small, rfl, clear, length, nodup, free, rfl⟩ :=
    laid.mallocPages_frames shares.kernel_current positive fits run
  have noDir : m.NoDirectory dirs start frames.length := by
    intro k lt dir isDir held
    have marked := shares.marked dir _ isDir held
    rw [Machine.pageBit, clear k (by omega)] at marked
    cases marked
  obtain ⟨marked, keeps⟩ := @setVirtual m dirs shares start pgCnt (by omega)
  have same : ∀ pf, (m.setVirtual true start pgCnt).freeFrames pf = m.freeFrames pf := by
    refine laid.freeFrames_of_virtual fun query below => Bytes.setBits_of_ne _ _ ?_
    intro idx idxLt
    omega
  have stillFree : ∀ index ∈ frames,
      index ∈ (m.setVirtual true start pgCnt).freeFrames .kernel := by
    rwa [same .kernel]
  have left := @Laid.setPages_left _ _ _ (laid.setVirtual true start pgCnt) start frames nodup
    stillFree
  have user := @Laid.setPages_user _ _ _ (laid.setVirtual true start pgCnt)
    (fun index => m.frameAddr .kernel index + 7) start frames fun index member =>
      (Machine.mem_freeFrames.mp (free index member)).1
  have few : frames.length ≤ m.frameCount .kernel := by
    rw [← List.toFinset_card_of_nodup nodup]
    refine (Finset.card_le_card fun index member => ?_).trans (Finset.card_range _).le
    exact Finset.mem_range.mpr
      (Machine.mem_freeFrames.mp (free index (List.mem_toFinset.mp member))).1
  have kernelLe := laid.kernelPages_le
  rw [laid.frameCount_kernel] at few
  obtain ⟨all, keeps', holds⟩ := marked.setPages (by omega) nodup stillFree noDir
  refine ⟨start, frames, rfl, small, by omega, clear, length, free, ?_, user.trans (same .user),
    Machine.setPages_cr3, all, ?_, holds,
    keeps.trans keeps'⟩
  · rw [← same .kernel, ← left, length]
    rfl
  intro k lt dir isDir held
  rcases (holds _ _).mp held with ⟨k', index, at', -, rfl⟩ | ⟨others, -⟩
  · have member : index ∈ frames := List.mem_of_getElem? at'
    obtain ⟨inside, clear⟩ := Machine.mem_freeFrames.mp (free index member)
    obtain ⟨page', held'⟩ := shares.owned.directory _ isDir
    exact laid.not_used inside clear (shares.owned.used _ _ held')
  · exact others k (by omega) rfl

theorem walk_shared {ram : Words} {cr3 offset : Nat} (kernel : KernelTables ram cr3)
    (held : HasRole heapSharing dirs ram (.shared page) frame) (small : offset < 4096) :
    walk ram cr3 (0xc0100000 + 4096 * page + offset) = some (frame + offset) := by
  have within : pageOffset (0xc0100000 + 4096 * page + offset) = offset := by
    unfold pageOffset
    omega
  have present : Present (ram (heapSlot page)) := held.2.1
  have named : frameOf (ram (heapSlot page)) = frame := held.2.2
  rw [walk, kernel.pteSlot_page held.1 small, Option.bind_some, if_pos present, within, named]

theorem walk_page {ram : Words} {cr3 : Nat} (kernel : KernelTables ram cr3)
    (held : HasRole heapSharing dirs ram (.shared page) frame) :
    walk ram cr3 (0xc0100000 + 4096 * page) = some frame := by
  have translated := walk_shared kernel held (by decide : 0 < 4096)
  rwa [Nat.add_zero, Nat.add_zero] at translated

theorem shared_of_walk {ram : Words} {cr3 offset slot : Nat} (kernel : KernelTables ram cr3)
    (inside : page < 260864) (small : offset < 4096)
    (run : walk ram cr3 (0xc0100000 + 4096 * page + offset) = some slot) :
    ∃ frame, HasRole heapSharing dirs ram (.shared page) frame ∧ slot = frame + offset := by
  have within : pageOffset (0xc0100000 + 4096 * page + offset) = offset := by
    unfold pageOffset
    omega
  rw [walk, kernel.pteSlot_page inside small, Option.bind_some, within] at run
  split at run
  · next present =>
      cases run
      exact ⟨_, ⟨inside, present, rfl⟩, rfl⟩
  · cases run

/-- A store into a frame that is neither a directory nor a table. -/
theorem store (shares : m.Shares dirs) {slot : Nat} (used : m.FrameUsed frame)
    (data : ¬Structural heapSharing dirs m.tables frame) (lower : frame ≤ slot)
    (upper : slot < frame + 4096)
    (word : Nat) : ({ m with tables := m.tables.write slot word } : Machine).Shares dirs ∧
      ∀ role other, HasRole heapSharing dirs (m.tables.write slot word) role other ↔
        HasRole heapSharing dirs m.tables role other := by
  obtain ⟨kernelPages, userPages, laid⟩ := shares.laid
  obtain ⟨above, -⟩ := laid.used_lt used
  have apart := laid.used_apart used
  have holds := shares.owned.holds_data apart data fun query outside =>
    @Words.write_of_ne m.tables slot query word (by omega)
  refine ⟨shares.of_owned ⟨_, _, laid.congr (.of_eq rfl rfl)⟩ rfl (shares.owned.of_holds holds) ?_
    ?_, holds⟩
  · intro dir either index _ indexLt
    refine Words.write_of_ne _ _ ?_
    have aligned := apart.aligned
    rcases either with rfl | isDir
    · omega
    · obtain ⟨aligned', -, -⟩ := shares.dir_lt isDir
      have different : dir ≠ frame := by
        rintro rfl
        exact data (.inl isDir)
      omega
  · exact fun dir page isDir held => shares.marked dir page isDir ((holds _ _).mp held)

/-- `memset` of pages of the heap that hold no directory. -/
theorem clearHeap (shares : m.Shares dirs) {cnt count : Nat} (inside : page + cnt ≤ 260864)
    (noDir : m.NoDirectory dirs page cnt) (size : 4 * count ≤ 4096 * cnt)
    (run : clearVirt m (0xc0100000 + 4096 * page) count = .ok m') :
    m'.Shares dirs ∧ m' = { m with tables := m'.tables } ∧
      (∀ role frame, HasRole heapSharing dirs m'.tables role frame ↔
        HasRole heapSharing dirs m.tables role frame) ∧
      (∀ query, (∀ k < cnt, ∀ frame, HasRole heapSharing dirs m.tables (.shared (page + k)) frame →
        query < frame ∨ frame + 4096 ≤ query) → m'.tables query = m.tables query) ∧
      ∀ i < count, ∀ frame, HasRole heapSharing dirs m.tables (.shared (page + i / 1024)) frame →
        m'.tables (frame + 4 * (i % 1024)) = 0 := by
  induction count generalizing m' with
  | zero =>
      cases run
      exact ⟨shares, rfl, fun _ _ => Iff.rfl, fun _ _ => rfl,
        fun i lt => absurd lt (Nat.not_lt_zero i)⟩
  | succ count ih =>
      rw [clearVirt, bind_eq_ok] at run
      obtain ⟨between, first, last⟩ := run
      obtain ⟨shares1, same, holds, kept, cleared⟩ := ih (by omega) first
      obtain ⟨slot, mapped, rfl⟩ := writeVirt_ok last
      have place : 0xc0100000 + 4096 * page + 4 * count =
          0xc0100000 + 4096 * (page + count / 1024) + 4 * (count % 1024) := by omega
      have placeLt : count / 1024 < cnt := by omega
      have offsetLt : 4 * (count % 1024) < 4096 := by omega
      rw [place] at mapped
      obtain ⟨frame, held, rfl⟩ :=
        @shared_of_walk dirs _ _ _ _ _ shares1.kernel_current (by omega) offsetLt mapped
      have held0 := (holds _ _).mp held
      have notDir : ¬dirs frame := fun isDir => noDir _ placeLt frame isDir held0
      obtain ⟨shares2, holds2⟩ := shares1.store (shares1.owned.used _ _ held)
        (shares1.owned.not_structural_shared held notDir) (Nat.le_add_right _ _)
        (by omega : frame + 4 * (count % 1024) < frame + 4096) 0
      refine ⟨shares2, ?_, fun role other => (holds2 role other).trans (holds role other), ?_, ?_⟩
      · rw [same]
      · intro query outside
        have off := outside (count / 1024) placeLt frame held0
        exact (Words.write_of_ne _ _ (by omega)).trans (kept query outside)
      · intro i lt other held'
        by_cases here : other + 4 * (i % 1024) = frame + 4 * (count % 1024)
        · exact (congrArg _ here).trans (Words.write_self _ _ _)
        · refine (Words.write_of_ne _ _ here).trans (cleared i ?_ other held')
          by_contra last
          obtain rfl : i = count := by omega
          exact here (by rw [held'.2.unique held0.2])

/-- `get_kernel_pages` -/
theorem getKernel (shares : m.Shares dirs) {pgCnt vaddr : Nat} (positive : 1 ≤ pgCnt)
    (fits : pgCnt < 2 ^ 32) (run : getKernelPages m pgCnt = .ok (vaddr, m')) :
    ∃ start frames, start < 32768 ∧ vaddr = 0xc0100000 + 4096 * start ∧
      m.Got m' dirs start pgCnt frames ∧
      Obtains m m' start pgCnt ∧
      ∀ i < 1024 * pgCnt, ∀ frame,
        HasRole heapSharing dirs m'.tables (.shared (start + i / 1024)) frame →
        m'.tables (frame + 4 * (i % 1024)) = 0 := by
  obtain ⟨_, _, laid0⟩ := shares.laid
  have kernelLe0 := laid0.kernelPages_le
  have whole := run
  rw [getKernelPages, bind_eq_ok] at run
  obtain ⟨⟨first, m1⟩, malloc, run⟩ := run
  obtain ⟨start, frames, rfl, got⟩ := shares.mallocKernel positive fits malloc
  have small := got.small
  obtain ⟨kernelPages, userPages, laid⟩ := got.shares.laid
  have kernelLe := laid.kernelPages_le
  have userLe := laid.userPages_le
  have nonNull : 0xc0100000 + 4096 * start ≠ 0 := by omega
  have size : pgCnt * pageSize % 2 ^ 32 = 4096 * pgCnt := by
    rw [pageSize]
    omega
  have words : 4096 * pgCnt / 4 = 1024 * pgCnt := by omega
  dsimp only at run
  rw [if_pos nonNull, bind_eq_ok] at run
  obtain ⟨m2, cleared, run⟩ := run
  cases run
  rw [clearPages, size, words] at cleared
  have bitmapBits : m1.kernelVaddr.vaddrBitmap.bitmapBits =
      0xc009a000 + kernelPages / 8 + userPages / 8 := by rw [laid.vaddr]
  have pools : ∀ query, m1.PoolByte query →
      (m1.mem.fill (0xc0100000 + 4096 * start) 0 (4096 * pgCnt)) query = m1.mem query := by
    intro query byte
    have bounds := laid.poolByte_bounds byte
    exact Bytes.fill_of_outside _ _ (.inl (by omega))
  have filled : ({ m1 with mem := m1.mem.fill (0xc0100000 + 4096 * start) 0 (4096 * pgCnt) } :
      Machine).Shares dirs := by
    refine got.shares.of_mem (.of_eq rfl rfl) rfl rfl pools fun page pageLt marked _ => ?_
    have bit : m1.kernelVaddr.vaddrBitmap.bit
        (m1.mem.fill (0xc0100000 + 4096 * start) 0 (4096 * pgCnt)) page = m1.pageBit page :=
      Bytes.bit_congr (Bytes.fill_of_outside _ _ (.inl (by omega)))
    exact bit.trans marked
  have used := @Machine.frameUsed_congr m1
    { m1 with mem := m1.mem.fill (0xc0100000 + 4096 * start) 0 (4096 * pgCnt) }
      (.of_eq rfl rfl) pools
  obtain ⟨shares2, same, holds, kept, zero⟩ :=
    filled.clearHeap (show start + pgCnt ≤ 260864 by omega)
    got.noDir (show 4 * (1024 * pgCnt) ≤ 4096 * pgCnt by omega) cleared
  have cr3 : m'.cr3 = m1.cr3 := by rw [same]
  have frames' : ∀ pf,
    ({ m1 with mem := m1.mem.fill (0xc0100000 + 4096 * start) 0 (4096 * pgCnt) } :
      Machine).freeFrames pf = m1.freeFrames pf :=
    laid.freeFrames_of_virtual fun query below => Bytes.fill_of_outside _ _ (.inl (by omega))
  have keeps : m.KeepsUsed m' := by
    refine ⟨fun frame old => ?_, fun frame old query lower upper => ?_⟩
    · have used1 := (used frame).mpr (got.keeps.used frame old)
      rw [same]
      exact used1
    · refine (kept query fun k lt other held => ?_).trans
        (got.keeps.words frame old query lower upper)
      -- the pages of the run have frames that were free
      have different : other ≠ frame := by
        rintro rfl
        rcases (got.enters _ _).mp held with ⟨k', index, at', -, equal⟩ | ⟨others, -⟩
        · obtain ⟨inside, clear⟩ :=
            Machine.mem_freeFrames.mp (got.free index (List.mem_of_getElem? at'))
          exact laid0.not_used inside clear (equal ▸ old)
        · exact others k (by rw [got.length]; exact lt) rfl
      have aligned := (got.shares.owned.apart _ (got.shares.owned.used _ _ held)).aligned
      have aligned' := (laid0.used_apart old).aligned
      omega
  obtain ⟨start', startLt, startEq, obtains⟩ := getKernelPages_obtains laid0 positive got.few whole
  obtain rfl : start' = start := by
    simp only [kernelHeapStart] at startEq
    omega
  refine ⟨start', frames, by omega, rfl, ?_, obtains, ?_⟩
  · exact { got with
      left := by rw [same, Machine.freeFrames_tables, frames', got.left]
      user := by rw [same, Machine.freeFrames_tables, frames', got.user]
      cr3 := cr3.trans got.cr3
      shares := shares2
      noDir := fun k lt dir isDir held => got.noDir k lt dir isDir ((holds _ _).mp held)
      enters := fun role frame => (holds role frame).trans (got.enters role frame)
      keeps := keeps }
  · exact fun i lt frame held => zero i lt frame ((holds _ _).mp held)

/-- `memcpy` of the current directory's upper quarter to a page of the heap. -/
theorem copyDir (shares : m.Shares dirs)
    (held : HasRole heapSharing dirs m.tables (.shared page) frame)
    (notDir : ¬dirs frame) {count : Nat} (small : count ≤ 256)
    (run : copyVirt m (0xc0100000 + 4096 * page + 0x300 * 4) (0xfffff000 + 0x300 * 4) count =
      .ok m') :
    m'.Shares dirs ∧ m' = { m with tables := m'.tables } ∧
      (∀ role other, HasRole heapSharing dirs m'.tables role other ↔
        HasRole heapSharing dirs m.tables role other) ∧
      (∀ i < count, m'.tables (frame + 4 * (768 + i)) = m.tables (frameOf m.cr3 + 4 * (768 + i))) ∧
      ∀ query, (query < frame + 4 * 768 ∨ frame + 4 * (768 + count) ≤ query) →
        m'.tables query = m.tables query := by
  induction count generalizing m' with
  | zero =>
      cases run
      exact ⟨shares, rfl, fun _ _ => Iff.rfl, fun i lt => absurd lt (Nat.not_lt_zero i),
        fun _ _ => rfl⟩
  | succ count ih =>
      rw [copyVirt, bind_eq_ok] at run
      obtain ⟨between, first, run⟩ := run
      obtain ⟨word, read, last⟩ := bind_eq_ok.mp run
      obtain ⟨shares1, same, holds, copied, kept⟩ := ih (by omega) first
      obtain ⟨slot, mapped, rfl⟩ := writeVirt_ok last
      have cr3 : between.cr3 = m.cr3 := by rw [same]
      have source : 0xfffff000 + 0x300 * 4 + 4 * count = 0xfffff000 + 4 * (768 + count) := by omega
      have target : 0xc0100000 + 4096 * page + 0x300 * 4 + 4 * count =
          0xc0100000 + 4096 * page + 4 * (768 + count) := by omega
      have held1 := (holds _ _).mpr held
      rw [source, readVirt_of_walk (walk_dir_window shares1.kernel_current.self (by omega)),
        cr3] at read
      rw [target, walk_shared shares1.kernel_current held1 (by omega)] at mapped
      cases mapped
      obtain ⟨shares2, holds2⟩ := shares1.store (shares1.owned.used _ _ held1)
        (shares1.owned.not_structural_shared held1 notDir) (Nat.le_add_right _ _)
        (by omega : frame + 4 * (768 + count) < frame + 4096) word
      -- the current directory is in another frame
      have apart : frameOf m.cr3 + 4096 ≤ frame ∨ frame + 4096 ≤ frameOf m.cr3 := by
        obtain ⟨kernelPages, userPages, laid⟩ := shares.laid
        obtain ⟨above, -⟩ := laid.used_lt (shares.owned.used _ _ held)
        have aligned := (shares.owned.apart _ (shares.owned.used _ _ held)).aligned
        have aligned' := frameOf_mod m.cr3
        have different : frameOf m.cr3 ≠ frame := by
          rcases shares.current with boot | isDir
          · rw [boot]
            unfold frameOf
            omega
          · rw [shares.frameOf_dir isDir]
            rintro rfl
            exact notDir isDir
        omega
      refine ⟨shares2,
        by rw [same], fun role other => (holds2 role other).trans (holds role other), ?_, ?_⟩
      · intro i lt
        by_cases here : i = count
        · rw [here]
          refine (Words.write_self _ _ _).trans ?_
          rw [← Except.ok.inj read]
          exact kept _ (by omega)
        · exact (Words.write_of_ne _ _ (by omega)).trans (copied i (by omega))
      · exact fun query outside => (Words.write_of_ne _ _ (by omega)).trans (kept query (by omega))

/-- `create_page_dir` -/
theorem createDir (shares : m.Shares dirs) {pgdir : Nat} (run : createPageDir m = .ok (pgdir, m')) :
    ∃ page dir, pgdir = 0xc0100000 + 4096 * page ∧ m.NewDirectory m' dirs page dir := by
  rw [createPageDir, bind_eq_ok] at run
  obtain ⟨⟨first, m1⟩, first', run⟩ := run
  obtain ⟨kernelPages, userPages, laid⟩ := shares.laid
  obtain ⟨page, frames, pageLt, rfl, got, obtains, zero⟩ :=
    shares.getKernel (by decide) (by decide) first'
  obtain ⟨index, rfl⟩ : ∃ index, frames = [index] := List.length_eq_one_iff.mp got.length
  obtain ⟨frameInside, frameClear⟩ :=
    Machine.mem_freeFrames.mp (got.free index (List.mem_singleton.mpr rfl))
  obtain ⟨-, aligned, -, -, above, fits⟩ := laid.frameAddr_spec frameInside
  have unused := laid.not_used frameInside frameClear
  have entered := got.enters.one
  have shares1 := got.shares
  have small := got.small
  generalize m.frameAddr .kernel index = dir at aligned above fits unused entered
  have held1 : HasRole heapSharing dirs m1.tables (.shared page) dir :=
    (entered _ _).mpr (if_pos rfl ▸ rfl)
  have notDir : ¬dirs dir := fun isDir => got.noDir 0 (by decide) dir isDir held1
  have nonNull : 0xc0100000 + 4096 * page ≠ 0 := by omega
  dsimp only at run
  rw [if_neg nonNull, bind_eq_ok] at run
  obtain ⟨m2, copied, run⟩ := run
  obtain ⟨shares2, same, holds, words, kept⟩ := shares1.copyDir held1 notDir (by decide) copied
  have held2 := (holds _ _).mpr held1
  have kernel2 := shares2.kernel_current
  have translated : addrV2p m2 (0xc0100000 + 4096 * page) = .ok dir :=
    addrV2p_of_walk kernel2.self (by omega) (walk_page kernel2 held2)
  have flags : dir ||| pgFlags = dir + 7 := or_flags aligned (by decide)
  have last : 0xc0100000 + 4096 * page + 1023 * 4 = 0xc0100000 + 4096 * page + 4 * 1023 := by omega
  rw [bind_ok translated, flags, last,
    writeVirt_of_walk (walk_shared kernel2 held2 (by decide : 4 * 1023 < 4096)), bind_ok rfl] at run
  cases run
  obtain ⟨shares3, holds3⟩ := shares2.store (shares2.owned.used _ _ held2)
    (shares2.owned.not_structural_shared held2 notDir) (Nat.le_add_right _ _)
    (by omega : dir + 4 * 1023 < dir + 4096) (dir + 7)
  have clear3 : ∀ index < 768,
      ¬Present ((m2.tables.write (dir + 4 * 1023) (dir + 7)) (dir + 4 * index)) := by
    intro index indexLt
    have word := zero index (by omega) dir (by rwa [Nat.div_eq_of_lt (by omega)])
    rw [Nat.mod_eq_of_lt (by omega)] at word
    rw [Words.write_of_ne _ _ (by omega), kept _ (by omega), word]
    decide
  have dirFrame : frameOf dir = dir := by
    unfold frameOf
    omega
  have kernel3 : KernelTables (m2.tables.write (dir + 4 * 1023) (dir + 7)) dir := by
    refine ⟨⟨?_, ?_⟩, fun index lower upper => ?_, ?_⟩
    · rw [dirFrame, Words.write_self, Present]
      omega
    · rw [dirFrame, Words.write_self]
      exact frameOf_add aligned fits (by decide)
    · have word := words (index - 768) (by omega)
      rw [Nat.add_sub_cancel' lower] at word
      rw [dirFrame, Words.write_of_ne _ _ (by omega), word]
      exact shares1.kernel_current.entries index lower upper
    · rw [dirFrame]
      omega
  have held3 := (holds3 _ _).mpr held2
  have mem2 : m2 = { m1 with tables := m2.tables } := same
  have obtains3 : Obtains m { m2 with tables := m2.tables.write (dir + 4 * 1023) (dir + 7) }
      page 1 := by
    rw [mem2]
    exact obtains.of_tables _
  refine ⟨page, dir,
    rfl, by omega, unused, (congrArg Machine.cr3 mem2).trans got.cr3, ?_, ?_, obtains3, ?_,
    ?_, ?_⟩
  · refine ⟨shares3.laid, shares3.owned.addDir held3 clear3, shares3.boot, ?_, ?_, ?_⟩
    · rintro other (rfl | isDir)
      · exact kernel3
      · exact shares3.kernel other isDir
    · rcases shares3.current with boot | isDir
      · exact .inl boot
      · exact .inr (.inr isDir)
    · rintro other page' (rfl | isDir) held
      · have roles := shares3.owned.unique _ _ _ ((Owned.holds_add_dir clear3 _ _).mp held) held3
        obtain rfl : page' = page := by simpa using roles
        rw [obtains3.bits page' (by omega), if_pos ⟨Nat.le_refl _, by omega⟩]
      · exact shares3.marked other page' isDir held
  · intro role frame
    refine (Owned.holds_add_dir clear3 role frame).trans ?_
    exact (holds3 role frame).trans ((holds role frame).trans (entered role frame))
  · refine ⟨fun frame used => ?_, fun frame used query lower upper => ?_⟩
    · have used1 := got.keeps.used frame used
      rw [mem2]
      exact used1
    · have different : frame ≠ dir := by
        rintro rfl
        exact unused used
      have aligned' := (laid.used_apart used).aligned
      refine (Words.write_of_ne _ _ (by omega)).trans ?_
      exact (kept query (by omega)).trans (got.keeps.words frame used query lower upper)
  · rw [Machine.freeFrames_tables, mem2, Machine.freeFrames_tables, got.left]
  · rw [Machine.freeFrames_tables, mem2, Machine.freeFrames_tables, got.user]

end Machine.Shares

end

end Pumelo
