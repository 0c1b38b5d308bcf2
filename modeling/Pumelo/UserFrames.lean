import Pumelo.FrameRoles

/-!
# Frames of processes

What `insert_page_table`, `malloc_pages` and `get_a_page` enter for a process lies in tables and
pages of its own directory, and they store into that directory and its tables only.
-/

namespace Pumelo

open Foundation PageWalk

/-- Pages of a directory were entered, and its other pages stay where they are. -/
structure Machine.Maps (m m' : Machine) (dirs : Nat → Prop) (dir : Nat) (numbers : Nat → Prop) :
    Prop where
  shares : m'.Shares dirs
  cr3 : m'.cr3 = m.cr3
  used : ∀ frame, m.FrameUsed frame → m'.FrameUsed frame
  mapped : ∀ number, numbers number → ∃ frame,
    HasRole heapSharing dirs m'.tables (.page dir number) frame
  others : ∀ role frame, (∀ number, numbers number → role ≠ .page dir number) →
    HasRole heapSharing dirs m.tables role frame → HasRole heapSharing dirs m'.tables role frame
  pages : ∀ number frame, ¬numbers number →
    HasRole heapSharing dirs m'.tables (.page dir number) frame →
    HasRole heapSharing dirs m.tables (.page dir number) frame
  stores : ∀ query, (query < dir ∨ dir + 4096 ≤ query) →
    (∀ index frame, HasRole heapSharing dirs m'.tables (.table dir index) frame →
      query < frame ∨ frame + 4096 ≤ query) → m'.tables query = m.tables query

/-- The free frames of the kernel pool, those for page tables, hold no word that reads as a present
entry. -/
def Machine.FreeClear (m : Machine) : Prop :=
  ∀ frame, ¬m.FrameUsed frame →
    (∃ index < m.frameCount .kernel, m.frameAddr .kernel index = frame) →
    ∀ query, frame ≤ query → query < frame + 4096 → ¬Present (m.tables query)

section

variable {m m' m'' : Machine} {dirs : Nat → Prop} {dir frame : Nat} {numbers numbers' : Nat → Prop}

namespace Machine.Maps

/-- A change that leaves every role and every word. -/
theorem of_tables (shares : m'.Shares dirs) (cr3 : m'.cr3 = m.cr3) (tables : m'.tables = m.tables)
    (used : ∀ frame, m.FrameUsed frame → m'.FrameUsed frame) :
    m.Maps m' dirs dir (fun _ => False) where
  shares := shares
  cr3 := cr3
  used := used
  mapped _ impossible := impossible.elim
  others _ _ _ held := by rwa [tables]
  pages _ _ _ held := by rwa [← tables]
  stores _ _ _ := by rw [tables]

theorem congr (maps : m.Maps m' dirs dir numbers) (same : ∀ number, numbers number ↔
    numbers' number) :
    m.Maps m' dirs dir numbers' := by
  obtain rfl : numbers = numbers' := funext fun number => propext (same number)
  exact maps

theorem trans (first : m.Maps m' dirs dir numbers) (second : m'.Maps m'' dirs dir numbers') :
    m.Maps m'' dirs dir (fun number => numbers number ∨ numbers' number) where
  shares := second.shares
  cr3 := second.cr3.trans first.cr3
  used frame used := second.used frame (first.used frame used)
  mapped number either := by
    by_cases later : numbers' number
    · exact second.mapped number later
    · obtain ⟨frame, held⟩ := first.mapped number (either.resolve_right later)
      refine ⟨frame, second.others _ frame (fun other isNew same => ?_) held⟩
      injection same with _ same
      exact later (same ▸ isNew)
  others role frame ne held :=
    second.others role frame (fun number isNew => ne number (.inr isNew))
      (first.others role frame (fun number isNew => ne number (.inl isNew)) held)
  pages number frame ne held :=
    first.pages number frame (fun isNew => ne (.inl isNew))
      (second.pages number frame (fun isNew => ne (.inr isNew)) held)
  stores query offDir offTables := by
    refine (second.stores query offDir offTables).trans
      (first.stores query offDir fun index frame held => ?_)
    exact offTables index frame (second.others _ frame (fun _ _ same => by cases same) held)

/-- The other directories are not disturbed. -/
theorem undisturbed (maps : m.Maps m' dirs dir numbers) (isDir : dirs dir) {other : Nat}
    (isOther : dirs other) (ne : other ≠ dir) :
    SamePrivate heapSharing m.tables m'.tables other := by
  have owned := maps.shares.owned
  intro own mine query lower upper
  have mine' : PrivateTo heapSharing m'.tables other own := by
    rcases private_role isOther mine with same | ⟨index, held⟩ | ⟨number, held⟩
    · exact .inl same
    · refine .inr (.inl ⟨index, (private_of_table isOther).mpr (maps.others _ _ ?_ held)⟩)
      exact fun _ _ same => by cases same
    · refine .inr (.inr ⟨number, (private_of_page isOther).mpr (maps.others _ _ ?_ held)⟩)
      exact fun _ _ same => ne (by injection same)
  have aligned := (owned.apart own (owned.private_used isOther mine')).aligned
  have apart : ∀ found, PrivateTo heapSharing m'.tables dir found →
      query < found ∨ found + 4096 ≤ query := by
    intro found theirs
    have aligned' := (owned.apart found (owned.private_used isDir theirs)).aligned
    have different : found ≠ own := by
      rintro rfl
      exact ne (owned.private_unique isOther isDir mine' theirs)
    omega
  refine maps.stores query (apart dir (.inl rfl)) fun index found held => ?_
  exact apart found (.inr (.inl ⟨index, (private_of_table isDir).mpr held⟩))

/-- Nor are the pages that the directory had. -/
theorem words (maps : m.Maps m' dirs dir numbers) (isDir : dirs dir) {number : Nat}
    (old : ¬numbers number) (held : HasRole heapSharing dirs m.tables (.page dir number) frame)
    {query : Nat}
    (lower : frame ≤ query) (upper : query < frame + 4096) : m'.tables query = m.tables query := by
  have owned := maps.shares.owned
  have held' : HasRole heapSharing dirs m'.tables (.page dir number) frame := by
    refine maps.others _ _ (fun other isNew same => ?_) held
    injection same with _ same
    exact old (same ▸ isNew)
  have notStructural := owned.not_structural_page held'
  have aligned := (owned.apart frame (owned.used _ _ held')).aligned
  have apart : ∀ found, Structural heapSharing dirs m'.tables found →
      query < found ∨ found + 4096 ≤ query := by
    intro found structural
    have aligned' := (owned.structural_apart structural).aligned
    have different : found ≠ frame := by
      rintro rfl
      exact notStructural structural
    omega
  exact maps.stores query (apart dir (.inl isDir)) fun index found table =>
    apart found (.inr ⟨_, _, table⟩)

/-- What `insert_page_table` stores lies in no free frame. -/
theorem freeClear (maps : m.Maps m' dirs dir numbers) (isDir : dirs dir) (layout : SameLayout m m')
    (clear : m.FreeClear) : m'.FreeClear := by
  intro frame unused kernelFrame query lower upper
  obtain ⟨kernelPages, userPages, laid⟩ := maps.shares.laid
  have owned := maps.shares.owned
  have aligned : frame % 4096 = 0 := by
    obtain ⟨index, inside, rfl⟩ := kernelFrame
    exact (laid.frameAddr_spec inside).2.1
  have outside : ∀ found, Structural heapSharing dirs m'.tables found →
      query < found ∨ found + 4096 ≤ query := by
    intro found structural
    have aligned' := (owned.structural_apart structural).aligned
    have different : found ≠ frame := by
      rintro rfl
      rcases structural with isDir | ⟨_, _, table⟩
      · obtain ⟨page, held⟩ := owned.directory found isDir
        exact unused (owned.used _ _ held)
      · exact unused (owned.used _ _ table)
    omega
  have same := maps.stores query (outside dir (.inl isDir)) fun index found table =>
    outside found (.inr ⟨_, _, table⟩)
  have before : ∃ index < m.frameCount .kernel, m.frameAddr .kernel index = frame := by
    obtain ⟨index, inside, addr⟩ := kernelFrame
    rw [Machine.frameCount, layout.poolBitmap] at inside
    rw [Machine.frameAddr, layout.paddrStart] at addr
    exact ⟨index, inside, addr⟩
  rw [same]
  exact clear frame (fun used => unused (maps.used frame used)) before query lower upper

end Machine.Maps

namespace Machine.Shares

/-- `alloc_physical_pages` -/
theorem alloc (shares : m.Shares dirs) {pf : PoolFlags}
    (run : allocPhysicalPages m pf = .ok (frame, m')) :
    m.Maps m' dirs m.cr3 (fun _ => False) ∧ m'.FrameUsed frame ∧ ¬m.FrameUsed frame ∧
      m'.tables = m.tables := by
  obtain ⟨kernelPages, userPages, laid⟩ := shares.laid
  obtain ⟨index, inside, -, rfl, unused, used⟩ := laid.alloc_used run
  refine ⟨.of_tables ?_ rfl rfl fun other old => (used other).mpr (.inr old),
    (used frame).mpr (.inl rfl),
    unused, rfl⟩
  refine shares.of_owned ⟨_, _, laid.setFrame _ _ _⟩ rfl ?_ (fun _ _ _ _ _ => rfl) ?_
  · refine shares.owned.of_used (fun role other held => (used other).mpr (.inr ?_))
      fun other marked => ?_
    · exact shares.owned.used role other held
    · exact (laid.setFrame _ _ _).used_apart marked
  · intro dir page isDir held
    exact (laid.virtualBit_mapsOnly (.setFrame inside true) page).trans
      (shares.marked dir page isDir held)

/-- The table is there. -/
theorem insertPresent (shares : m.Shares dirs) (process : dirs m.cr3) {vaddr slot : Nat}
    (user : vaddr < 0xc0000000) (slotEq : pteSlot m.tables m.cr3 vaddr = some slot)
    (used : m.FrameUsed frame) (fresh : ∀ role, ¬HasRole heapSharing dirs m.tables role frame) :
    m.Maps { m with tables := m.tables.write slot (frame + 7) } dirs m.cr3
      (fun number => number = vaddr / 4096) := by
  obtain ⟨kernelPages, userPages, laid⟩ := shares.laid
  obtain ⟨above, fits⟩ := laid.used_lt used
  have aligned := (laid.used_apart used).aligned
  have dirLt : dirIndex vaddr < 768 := by
    unfold dirIndex
    omega
  have present : Present (m.tables (pdeSlot m.cr3 vaddr)) := by
    by_contra absent
    simp [pteSlot, absent] at slotEq
  rw [pteSlot_of_present present] at slotEq
  obtain rfl := (Option.some.inj slotEq).symm
  rw [pdeSlot, shares.frameOf_dir process] at present ⊢
  generalize tableEq : frameOf (m.tables (m.cr3 + 4 * dirIndex vaddr)) = table
  have held : HasRole heapSharing dirs m.tables (.table m.cr3 (dirIndex vaddr)) table :=
    ⟨process, dirLt, present, tableEq⟩
  have number : 1024 * dirIndex vaddr + tableIndex vaddr = vaddr / 4096 := by
    unfold dirIndex tableIndex
    omega
  have named : Names (frame + 7) frame := names_add aligned fits (by decide) (by decide)
  have holds : ∀ role other, HasRole heapSharing dirs
      (m.tables.write (table + 4 * tableIndex vaddr) (frame + 7)) role other ↔
        if role = .page m.cr3 (vaddr / 4096) then other = frame
        else HasRole heapSharing dirs m.tables role other := by
    intro role other
    rw [← number, ← show Names (frame + 7) other ↔ other = frame from
      ⟨fun names => names.unique named, fun equal => equal ▸ named⟩]
    exact shares.owned.holds_write_page held (tableIndex_lt vaddr) _ role other
  have notDir : ∀ dir, dirs dir →
      ¬HasRole heapSharing dirs m.tables (.page m.cr3 (vaddr / 4096)) dir := by
    intro dir isDir held
    exact shares.owned.not_structural_page held (.inl isDir)
  have tableLt := tableIndex_lt vaddr
  refine ⟨shares.of_owned ⟨_, _, laid.congr (.of_eq rfl rfl)⟩ rfl ?_ ?_ ?_, rfl, fun _ old => old,
    ?_, ?_, ?_, ?_⟩
  · exact shares.owned.assign holds fresh used notDir
  · intro dir either index _ indexLt
    refine Words.write_of_ne _ _ ?_
    have tableUsed := shares.owned.used _ _ held
    obtain ⟨tableAbove, -⟩ := laid.used_lt tableUsed
    have tableAligned := (laid.used_apart tableUsed).aligned
    rcases either with rfl | isDir
    · omega
    · obtain ⟨aligned', -, -⟩ := shares.dir_lt isDir
      have different := shares.owned.table_ne_dir held isDir
      omega
  · intro dir page isDir held
    rw [holds, if_neg (by simp)] at held
    exact shares.marked dir page isDir held
  · rintro _ rfl
    exact ⟨frame, (holds _ _).mpr (if_pos rfl ▸ rfl)⟩
  · intro role other different held
    rw [holds, if_neg (different _ rfl)]
    exact held
  · intro other found different held
    rwa [holds, if_neg (by simpa using different)] at held
  · intro query _ offTables
    have off := offTables (dirIndex vaddr) table ((holds _ _).mpr (by rwa [if_neg (by simp)]))
    exact Words.write_of_ne _ _ (by omega)

/-- A directory gets a table, which is clear; the frame was taken before. -/
theorem insertTable (shares : m.Shares dirs) (process : dirs m.cr3) {index : Nat}
    (inside : index < 768)
    (absent : ¬Present (m.tables (m.cr3 + 4 * index))) (used : m.FrameUsed frame)
    (fresh : ∀ role, ¬HasRole heapSharing dirs m.tables role frame) :
    let ram := (m.tables.clearFrame frame).write (m.cr3 + 4 * index) (frame + 7)
    m.Maps { m with tables := ram } dirs m.cr3 (fun _ => False) ∧
      ∀ role other, HasRole heapSharing dirs ram role other ↔
        if role = .table m.cr3 index then other =
          frame else HasRole heapSharing dirs m.tables role other := by
  intro ram
  obtain ⟨kernelPages, userPages, laid⟩ := shares.laid
  obtain ⟨above, fits⟩ := laid.used_lt used
  have apart := laid.used_apart used
  have aligned := apart.aligned
  have outside : ∀ query, (query < frame ∨ frame + 4096 ≤ query) →
      (m.tables.clearFrame frame) query = m.tables query :=
        fun query off => Words.clearFrame_outside _ off
  have cleared := shares.owned.holds_data apart (shares.owned.not_structural_of_fresh fresh) outside
  have owned := shares.owned.of_holds cleared
  have freshDir : ∀ dir, dirs dir → dir ≠ frame := by
    rintro dir isDir rfl
    obtain ⟨page, held⟩ := shares.owned.directory dir isDir
    exact fresh _ held
  have dirOutside : ∀ dir, dir = 0x100000 ∨ dirs dir → ∀ index < 1024,
      (m.tables.clearFrame frame) (dir + 4 * index) = m.tables (dir + 4 * index) := by
    intro dir either index indexLt
    apply outside
    rcases either with rfl | isDir
    · omega
    · obtain ⟨aligned', -, -⟩ := shares.dir_lt isDir
      have different := freshDir dir isDir
      omega
  have holds : ∀ role other, HasRole heapSharing dirs ram role other ↔
      if role = .table m.cr3 index then other =
        frame else HasRole heapSharing dirs m.tables role other := by
    intro role other
    refine (owned.holds_write_table process inside ?_
      (fun role held => fresh role ((cleared _ _).mp held))
      apart (fun place placeLt => ?_) (names_add aligned fits (by decide) (by decide)) role
        other).trans ?_
    · rwa [dirOutside _ (.inr process) _ (by omega)]
    · rw [Words.clearFrame_slot _ _ placeLt]
      decide
    · rw [cleared role other]
  refine ⟨⟨shares.of_owned ⟨_, _, laid.congr (.of_eq rfl rfl)⟩ rfl ?_ ?_ ?_, rfl, fun _ old => old,
    ?_, ?_, ?_, ?_⟩, holds⟩
  · refine shares.owned.assign holds fresh used fun dir isDir held => ?_
    exact shares.owned.table_ne_dir held isDir rfl
  · intro dir either index' lower indexLt
    refine (Words.write_of_ne _ _ ?_).trans (dirOutside dir either index' indexLt)
    obtain ⟨currentAligned, currentAbove, -⟩ := shares.dir_lt process
    rcases either with rfl | isDir
    · omega
    · obtain ⟨aligned', -, -⟩ := shares.dir_lt isDir
      omega
  · intro dir page isDir held
    exact shares.marked dir page isDir (by rwa [holds, if_neg (by simp)] at held)
  · exact fun _ impossible => impossible.elim
  · intro role other _ held
    rw [holds, if_neg]
    · exact held
    · rintro rfl
      exact absent held.2.2.1
  · intro number other _ held
    rwa [holds, if_neg (by simp)] at held
  · intro query offDir offTables
    have off := offTables index frame ((holds _ _).mpr (if_pos rfl ▸ rfl))
    exact (Words.write_of_ne _ _ (by omega)).trans (outside query off)

/-- A frame that is not in use is no table of the current directory, and not the directory. -/
theorem frameUnused (shares : m.Shares dirs) (process : dirs m.cr3) (unused : ¬m.FrameUsed frame)
    (aligned : frame % 2 ^ 12 = 0) (fits : frame < 2 ^ 32) (above : 0x200000 ≤ frame) :
    FrameUnused m.tables m.cr3 frame := by
  have cr3 := shares.frameOf_dir process
  have notDir : m.cr3 ≠ frame := by
    rintro rfl
    obtain ⟨page, held⟩ := shares.owned.directory _ process
    exact unused (shares.owned.used _ _ held)
  refine ⟨aligned, fits, by rw [cr3]; exact notDir.symm, ?_⟩
  rw [cr3]
  intro index indexLt present equal
  have kernel := shares.kernel m.cr3 process
  by_cases own : index < 768
  · exact unused (equal ▸ shares.owned.used (.table m.cr3 index) _ ⟨process, own, present, rfl⟩)
  · by_cases self : index = 1023
    · have mapped := kernel.self.2
      rw [cr3] at mapped
      rw [self, mapped] at equal
      exact notDir equal
    · have named := (kernel.entries index (by omega) (by omega)).2
      rw [cr3] at named
      rw [named] at equal
      unfold kernelTable at equal
      omega

/-- A frame that is taken for a page table is none of those. -/
theorem tableUnused (shares : m.Shares dirs) (process : dirs m.cr3) {table : Nat}
    (run : allocPhysicalPages m .kernel = .ok (table, m')) : FrameUnused m.tables m.cr3 table := by
  obtain ⟨kernelPages, userPages, laid⟩ := shares.laid
  obtain ⟨index, inside, addr, -, notUsed, -⟩ := laid.alloc_used run
  obtain ⟨-, aligned, -, -, above, fits⟩ := laid.frameAddr_spec inside
  rw [← addr] at aligned above fits
  exact shares.frameUnused process notUsed aligned fits above

/-- `insert_page_table` for a page of a process, with a frame that has just been taken. -/
theorem insertUser (shares : m.Shares dirs) (process : dirs m.cr3) {vaddr : Nat}
    (user : vaddr < 0xc0000000) (used : m.FrameUsed frame)
    (fresh : ∀ role, ¬HasRole heapSharing dirs m.tables role frame)
    (run : insertPageTable m vaddr frame = .ok m') :
    m.Maps m' dirs m.cr3 (fun number => number = vaddr / 4096) := by
  obtain ⟨kernelPages, userPages, laid⟩ := shares.laid
  have cr3 := shares.frameOf_dir process
  have dirLt : dirIndex vaddr < 768 := by
    unfold dirIndex
    omega
  rcases insertPageTable_ok (shares.kernel _ process).self (by omega) (laid.used_apart used).aligned
      (fun _ _ _ alloc => shares.tableUnused process alloc) run with
    ⟨slot, slotEq, rfl⟩ | ⟨absent, table, m1, alloc, rfl⟩
  · exact shares.insertPresent process user slotEq used fresh
  · obtain ⟨first, tableUsed, notUsed, tables1⟩ := shares.alloc alloc
    have cr31 := first.cr3
    have shares1 := first.shares
    have tableFresh : ∀ role, ¬HasRole heapSharing dirs m1.tables role table := by
      intro role held
      rw [tables1] at held
      exact notUsed (shares.owned.used role table held)
    have different : frame ≠ table := by
      rintro rfl
      exact notUsed used
    -- the directory's entry is outside the new table, which may be cleared first
    have entryOutside : pdeSlot m.cr3 vaddr < table ∨ table + 4096 ≤ pdeSlot m.cr3 vaddr := by
      have notDir := (shares.tableUnused process alloc).notDirectory
      have tableAligned := (shares.tableUnused process alloc).aligned
      obtain ⟨currentAligned, -, -⟩ := shares.dir_lt process
      rw [cr3] at notDir
      rw [pdeSlot, cr3]
      omega
    have order : newTable m.tables m.cr3 vaddr table frame =
        ((m1.tables.clearFrame table).write (m1.cr3 + 4 * dirIndex vaddr) (table + 7)).write
          (table + 4 * tableIndex vaddr) (frame + 7) := by
      rw [newTable, Words.clearFrame_write _ _ entryOutside, pdeSlot, cr3, tables1, cr31]
    have absent1 : ¬Present (m1.tables (m1.cr3 + 4 * dirIndex vaddr)) := by
      rwa [tables1, cr31, ← cr3, ← pdeSlot]
    obtain ⟨second, holds⟩ :=
      shares1.insertTable (cr31 ▸ process) dirLt absent1 tableUsed tableFresh
    generalize (m1.tables.clearFrame table).write (m1.cr3 + 4 * dirIndex vaddr) (table + 7) = ram
      at order second holds
    rw [order]
    have own : HasRole heapSharing dirs ram (.table m1.cr3 (dirIndex vaddr)) table :=
      (holds _ _).mpr (if_pos rfl ▸ rfl)
    have slotEq : pteSlot ram m1.cr3 vaddr = some (table + 4 * tableIndex vaddr) := by
      obtain ⟨-, -, present, names⟩ := own
      have pde : pdeSlot m1.cr3 vaddr = m1.cr3 + 4 * dirIndex vaddr := by rw [pdeSlot, cr31, cr3]
      rw [← pde] at present names
      rw [pteSlot_of_present present, names]
    have fresh2 : ∀ role, ¬HasRole heapSharing dirs ram role frame := by
      intro role held
      rw [holds] at held
      split at held
      · exact different held
      · exact fresh role (tables1 ▸ held)
    have third := second.shares.insertPresent (cr31 ▸ process) user slotEq
      (first.used frame used) fresh2
    rw [← cr31] at first ⊢
    exact ((first.trans second).trans third).congr fun number => by simp

/-- The loop of `malloc_pages`. -/
theorem mapUser (shares : m.Shares dirs) (process : dirs m.cr3) {vaddr cnt : Nat}
    (inside : vaddr + 4096 * cnt ≤ 0xc0000000) (run : mapPages m .user vaddr cnt = .ok (true, m')) :
    m.Maps m' dirs m.cr3 (fun number => vaddr / 4096 ≤ number ∧ number < vaddr / 4096 + cnt) := by
  induction cnt generalizing m vaddr with
  | zero =>
      cases run
      refine (Machine.Maps.of_tables shares rfl rfl fun _ old => old).congr fun number => ?_
      exact ⟨fun impossible => impossible.elim, fun range => by omega⟩
  | succ cnt ih =>
      rw [mapPages, bind_eq_ok] at run
      obtain ⟨⟨frame, m1⟩, alloc, run⟩ := run
      obtain ⟨first, used, notUsed, tables1⟩ := shares.alloc alloc
      dsimp only at run
      split at run
      · cases run
      · obtain ⟨m2, insert, run⟩ := bind_eq_ok.mp run
        have fresh : ∀ role, ¬HasRole heapSharing dirs m1.tables role frame := by
          intro role held
          rw [tables1] at held
          exact notUsed (shares.owned.used role frame held)
        have second := first.shares.insertUser (first.cr3 ▸ process) (by omega) used fresh insert
        have next : (vaddr + pageSize) % 2 ^ 32 = vaddr + 4096 := by
          rw [pageSize]
          omega
        rw [next] at run
        have third := ih second.shares (second.cr3.trans first.cr3 ▸ process) (by omega) run
        have cr32 := second.cr3
        rw [first.cr3] at second
        rw [cr32, first.cr3] at third
        refine ((first.trans second).trans third).congr fun number => ?_
        rw [false_or]
        omega

/-- A page of the process that has no frame has no present entry. -/
theorem entryAbsent (shares : m.Shares dirs) (process : dirs m.cr3) {vaddr : Nat}
    (user : vaddr < 0xc0000000)
    (absent : ∀ frame, ¬HasRole heapSharing dirs m.tables (.page m.cr3 (vaddr / 4096)) frame)
    (present : Present (m.tables (pdeSlot m.cr3 vaddr))) : EntryAbsent m (pteAddr vaddr) := by
  intro slot mapped entry
  have directory : vaddr / 4096 / 1024 = dirIndex vaddr := by
    unfold dirIndex
    omega
  have place : vaddr / 4096 % 1024 = tableIndex vaddr := rfl
  have own : vaddr / 4096 / 1024 < heapSharing.own := by
    simp only [heapSharing]
    omega
  rw [walk_pteAddr (shares.kernel _ process).self (by omega), pteSlot_of_present present] at mapped
  cases mapped
  rw [pdeSlot, shares.frameOf_dir process, ← directory] at present entry
  rw [← place] at entry
  exact absent _ ⟨process, own, _, ⟨present, rfl⟩, ⟨entry, rfl⟩⟩

/-- When a frame is installed as a page table, the window shows its words, which are those of a free
frame. -/
theorem windowAbsent (shares : m.Shares dirs) (process : dirs m.cr3) {vaddr index : Nat}
    (user : vaddr < 0xc0000000) (clear : m.FreeClear)
    (alloc : allocPhysicalPages m .kernel = .ok (frame, m'))
    (install : writeVirt m' (pdeAddr vaddr) (frame ||| pgFlags) = .ok m'') (indexLt : index < 1024) :
    EntryAbsent m'' ((pteAddr vaddr &&& 0xfffff000) + 4 * index) := by
  intro slot mapped
  obtain ⟨kernelPages, userPages, laid⟩ := shares.laid
  have self := (shares.kernel _ process).self
  have cr3 := shares.frameOf_dir process
  have dirLt : dirIndex vaddr < 768 := by
    unfold dirIndex
    omega
  have unused := shares.tableUnused process alloc
  have same := allocPhysicalPages_sameTables alloc
  obtain ⟨number, inside, addr, -, notUsed, -⟩ := laid.alloc_used alloc
  obtain ⟨currentAligned, -, -⟩ := shares.dir_lt process
  have notDir := unused.notDirectory
  have aligned := unused.aligned
  have flags : frame ||| pgFlags = frame + 7 := or_flags aligned (by decide)
  have self1 : SelfMapped m'.tables m'.cr3 := by rwa [same.tables, same.cr3]
  rw [writeVirt_of_walk (walk_pdeAddr self1 (by omega)), flags, pdeSlot, same.tables, same.cr3,
    cr3] at install
  cases install
  rw [cr3] at notDir
  have entry : (m.tables.write (m.cr3 + 4 * dirIndex vaddr) (frame + 7))
      (m.cr3 + 4 * dirIndex vaddr) = frame + 7 := Words.write_self _ _ _
  have self2 : SelfMapped (m.tables.write (m.cr3 + 4 * dirIndex vaddr) (frame + 7)) m.cr3 := by
    rw [SelfMapped, cr3, Words.write_of_ne _ _ (by omega)]
    rwa [SelfMapped, cr3] at self
  have present : Present (frame + 7) := by
    unfold Present
    omega
  have shown := walk_table_window self2 (show dirIndex vaddr < 1024 by omega) indexLt
  simp only [cr3, entry, if_pos present,
    frameOf_add aligned unused.fits (show 7 < 2 ^ 12 by decide)] at shown
  rw [pteAddr_page (by omega)] at mapped
  obtain rfl := Option.some.inj (shown.symm.trans mapped)
  dsimp only
  rw [Words.write_of_ne _ _ (by omega)]
  exact clear frame notUsed ⟨number, inside, addr.symm⟩ _ (by omega) (by omega)

/-- For a page of the process that has no frame, `insert_page_table` replaces no present entry. -/
theorem insertFresh (shares : m.Shares dirs) (process : dirs m.cr3) {vaddr : Nat}
    (user : vaddr < 0xc0000000)
    (absent : ∀ frame, ¬HasRole heapSharing dirs m.tables (.page m.cr3 (vaddr / 4096)) frame)
    (clear : m.FreeClear) : InsertFresh m vaddr := by
  intro pde read
  rw [readVirt_of_walk (walk_pdeAddr (shares.kernel _ process).self (by omega))] at read
  cases read
  split
  · next present => exact shares.entryAbsent process user absent (present_iff.mpr present)
  · exact fun frame m1 m2 alloc install index indexLt =>
      shares.windowAbsent process user clear alloc install indexLt

/-- Nor does the loop of `malloc_pages` for pages that have none before it. -/
theorem mapFresh (shares : m.Shares dirs) (process : dirs m.cr3) {vaddr cnt : Nat}
    (inside : vaddr + 4096 * cnt ≤ 0xc0000000)
    (absent : ∀ number, vaddr / 4096 ≤ number → number < vaddr / 4096 + cnt →
      ∀ frame, ¬HasRole heapSharing dirs m.tables (.page m.cr3 number) frame)
    (clear : m.FreeClear) : MapFresh m .user vaddr cnt := by
  induction cnt generalizing m vaddr with
  | zero => trivial
  | succ cnt ih =>
      intro paddr m1 alloc _
      obtain ⟨first, used, notUsed, tables1⟩ := shares.alloc alloc
      have cr31 := first.cr3
      have clear1 := first.freeClear process (.of_eq (allocPhysicalPages_mapsOnly alloc).pool_eq
        (allocPhysicalPages_mapsOnly alloc).kernelVaddr_eq) clear
      have fresh : ∀ role, ¬HasRole heapSharing dirs m1.tables role paddr := by
        intro role held
        rw [tables1] at held
        exact notUsed (shares.owned.used role paddr held)
      refine ⟨first.shares.insertFresh (cr31 ▸ process) (by omega) ?_ clear1, fun m2 insert => ?_⟩
      · rw [tables1, cr31]
        exact absent _ (Nat.le_refl _) (by omega)
      · have second := first.shares.insertUser (cr31 ▸ process) (by omega) used fresh insert
        have cr32 := second.cr3
        rw [cr31] at second cr32
        have next : (vaddr + pageSize) % 2 ^ 32 = vaddr + 4096 := by
          rw [pageSize]
          omega
        rw [next]
        refine ih second.shares (cr32 ▸ process) (by omega)
          (fun number lower upper frame held => ?_)
          (second.freeClear process (.of_eq (insertPageTable_mapsOnly insert).pool_eq
            (insertPageTable_mapsOnly insert).kernelVaddr_eq) clear1)
        rw [cr32] at held
        have before := second.pages number frame (by omega) held
        rw [tables1] at before
        exact absent number (by omega) (by omega) frame before

/-! ## `malloc_pages` and `get_a_page` -/

theorem acquirePool_tables {pf : PoolFlags} (run : acquirePool m pf = .ok m') :
    m'.tables = m.tables ∧ m'.cr3 = m.cr3 := by
  obtain ⟨⟨lk, m1⟩, acquired, rest⟩ := bind_eq_ok.mp run
  cases rest
  have only := lockAcquire_machine acquired
  generalize m1.intr = intr at only
  subst only
  exact ⟨rfl, rfl⟩

theorem releasePool_tables {pf : PoolFlags} (run : releasePool m pf = .ok m') :
    m'.tables = m.tables ∧ m'.cr3 = m.cr3 := by
  obtain ⟨⟨lk, m1⟩, released, rest⟩ := bind_eq_ok.mp run
  cases rest
  have only := lockRelease_machine released
  generalize m1.intr = intr at only
  subst only
  exact ⟨rfl, rfl⟩

/-- The bitmaps are below the kernel's heap. -/
theorem pageBit_heap (shares : m.Shares dirs) {mem : Bytes}
    (same : ∀ query < kernelHeapStart, mem query = m.mem query) {page : Nat}
    (small : page < 2 ^ 18) :
    ({ m with mem := mem } : Machine).pageBit page = m.pageBit page := by
  obtain ⟨kernelPages, userPages, laid⟩ := shares.laid
  have kernelLe := laid.kernelPages_le
  have userLe := laid.userPages_le
  have bitmapBits : m.kernelVaddr.vaddrBitmap.bitmapBits =
      0xc009a000 + kernelPages / 8 + userPages / 8 := by rw [laid.vaddr]
  refine Bytes.bit_congr (same _ ?_)
  rw [kernelHeapStart]
  simp only
  omega

theorem freeFrames_heap (shares : m.Shares dirs) {mem : Bytes}
    (same : ∀ query < kernelHeapStart, mem query = m.mem query) (pf : PoolFlags) :
    ({ m with mem := mem } : Machine).freeFrames pf = m.freeFrames pf := by
  obtain ⟨kernelPages, userPages, laid⟩ := shares.laid
  have kernelLe := laid.kernelPages_le
  have userLe := laid.userPages_le
  have bitmapBits : m.kernelVaddr.vaddrBitmap.bitmapBits =
      0xc009a000 + kernelPages / 8 + userPages / 8 := by rw [laid.vaddr]
  refine laid.freeFrames_of_virtual (fun query below => same query ?_) pf
  rw [kernelHeapStart]
  omega

/-- Bits of a process are marked in the kernel's heap. -/
theorem markHeap (shares : m.Shares dirs) {mem : Bytes}
    (same : ∀ query < kernelHeapStart, mem query = m.mem query) :
    m.Maps { m with mem := mem } dirs m.cr3 (fun _ => False) := by
  obtain ⟨kernelPages, userPages, laid⟩ := shares.laid
  have kernelLe := laid.kernelPages_le
  have userLe := laid.userPages_le
  have pools : ∀ query, m.PoolByte query → mem query = m.mem query := by
    intro query byte
    have bounds := laid.poolByte_bounds byte
    refine same query ?_
    have bitmapBits : m.kernelVaddr.vaddrBitmap.bitmapBits =
        0xc009a000 + kernelPages / 8 + userPages / 8 := by rw [laid.vaddr]
    rw [kernelHeapStart]
    omega
  refine .of_tables (shares.of_mem (.of_eq rfl rfl) rfl rfl pools fun page small marked _ => ?_) rfl
    rfl fun frame =>
    (@Machine.frameUsed_congr m { m with mem := mem } (.of_eq rfl rfl) pools frame).mpr
  exact (shares.pageBit_heap same small).trans marked

/-- The lock of a pool. -/
theorem locking (shares : m.Shares dirs) (locks : Locking m m') (tables : m'.tables = m.tables)
    (cr3 : m'.cr3 = m.cr3) : m.Maps m' dirs m.cr3 (fun _ => False) := by
  have pools : ∀ query, m.PoolByte query → m'.mem query = m.mem query :=
    fun query _ => by rw [locks.mem]
  refine .of_tables (shares.of_mem locks.layout tables cr3 pools fun page _ marked _ => ?_) cr3
    tables fun frame =>
    (Machine.frameUsed_congr locks.layout pools frame).mpr
  rw [Machine.pageBit, locks.layout.kernelVaddr, locks.mem]
  exact marked

/-- `malloc_pages` for the process whose directory is the current one. -/
theorem mallocUser {thread bits : Nat} (shares : m.Shares dirs) (process : dirs m.cr3)
    (inv : ProcessState.Inv thread bits ⟨m, []⟩) {pgCnt vaddr : Nat} (positive : 1 ≤ pgCnt)
    (fits : pgCnt < 2 ^ 32) (run : mallocPages m .user pgCnt = .ok (vaddr, m')) :
    ∃ first, vaddr = userVaddrStart + 4096 * first ∧ first + pgCnt ≤ stackBit ∧
      (∀ page, first ≤ page → page < first + pgCnt → (processBitmap bits).bit m.mem page = false) ∧
      m.Maps m' dirs m.cr3 (fun number => vaddr / 4096 ≤ number ∧ number < vaddr / 4096 + pgCnt) ∧
      MapsOnly { m with mem := markRun m.mem bits first true pgCnt } m' := by
  have last := stackBit_eq
  obtain ⟨first, scan, within, rfl, clear, -⟩ := inv.malloc_ok positive fits run
  have lower := inv.prepared.bitsLower
  have nonNull : userVaddrStart + 4096 * first ≠ 0 := by
    rw [userVaddrStart]
    omega
  rw [mallocPages, bind_ok (inv.getVirtualPages_eq scan within positive)] at run
  dsimp only at run
  rw [if_neg nonNull, bind_eq_ok] at run
  obtain ⟨⟨mapped, m2⟩, map, run⟩ := run
  obtain ⟨kernelPages, userPages, laid⟩ := shares.laid
  obtain rfl := (laid.of_mem _).mapPages_true map
  cases run
  have marks := @markHeap _ _ shares (markRun m.mem bits first true pgCnt) fun query below => by
    refine Bytes.setBits_of_ne _ _ fun idx idxLt => ?_
    rw [kernelHeapStart] at lower below
    omega
  have maps := marks.shares.mapUser process (by rw [userVaddrStart]; omega) map
  refine ⟨first, rfl, within, clear, (marks.trans maps).congr fun number => ?_,
    mapPages_mapsOnly map⟩
  rw [false_or]

/-- For a process, `malloc_pages` replaces no present entry when the directory has no page in the
run that the scan finds, and no free frame a word that reads as a present entry. -/
theorem mallocFresh {thread bits : Nat} (shares : m.Shares dirs) (process : dirs m.cr3)
    (inv : ProcessState.Inv thread bits ⟨m, []⟩) {pgCnt : Nat} (positive : 1 ≤ pgCnt)
    (fits : pgCnt < 2 ^ 32)
    (absent : ∀ first, bitmapScan m.mem (processBitmap bits) pgCnt = .ok (some first) →
      ∀ offset < pgCnt, walk m.tables m.cr3 (userVaddrStart + 4096 * (first + offset)) = none)
    (clear : m.FreeClear) : MallocFresh m .user pgCnt := by
  intro vaddr m1 virtual _
  have last := stackBit_eq
  have lower := inv.prepared.bitsLower
  obtain ⟨first, scan, within, rfl, -, rfl⟩ := inv.getVirtualPages_ok positive fits virtual
  obtain ⟨dirAligned, -, dirLt⟩ := shares.dir_lt process
  have marks := @markHeap _ _ shares (markRun m.mem bits first true pgCnt) fun query below => by
    refine Bytes.setBits_of_ne _ _ fun idx idxLt => ?_
    rw [kernelHeapStart] at lower below
    omega
  refine marks.shares.mapFresh process (by rw [userVaddrStart]; omega)
    (fun number numberGe numberLt frame held => ?_) (marks.freeClear process (.of_eq rfl rfl) clear)
  obtain ⟨offset, rfl⟩ := Nat.exists_eq_add_of_le numberGe
  have none := absent first scan offset (by omega)
  have number : (userVaddrStart + 4096 * first) / 4096 + offset =
      (userVaddrStart + 4096 * (first + offset)) / 2 ^ 12 := by
    rw [userVaddrStart]
    omega
  rw [number] at held
  have mapped := walk_of_holds dirAligned dirLt held
  exact nomatch none.symm.trans mapped

/-- `get_a_page` for the stack page of the process whose directory is the current one. -/
theorem getStackPage {thread bits : Nat} (shares : m.Shares dirs) (process : dirs m.cr3)
    (prepared : Prepared thread bits m) (running : m.running = thread) {vaddr : Nat}
    (run : getAPage m .user userStack3Vaddr = .ok (vaddr, m')) :
    m.Maps m' dirs m.cr3 (fun number => number = userStack3Vaddr / 4096) ∧ m'.running = m.running ∧
      SameLayout m m' ∧ ∀ query, ¬m.PoolByte query →
        m'.mem query = (m.mem.setBit (8 * bits + stackBit) true) query := by
  rw [getAPage, bind_eq_ok] at run
  obtain ⟨m1, acquired, run⟩ := run
  have locks := acquirePool_locking acquired
  obtain ⟨tables1, cr31⟩ := acquirePool_tables acquired
  have prepared1 := prepared.congr locks.layout fun query _ _ => by rw [locks.mem]
  have running1 : m1.runningThread = thread := locks.running.trans running
  have lower := prepared.bitsLower
  have last := stackBit_eq
  have index : (userStack3Vaddr + 2 ^ 32 - userVaddrStart) % 2 ^ 32 / pageSize = stackBit := by
    decide
  dsimp only at run
  rw [running1, prepared1.vaddr] at run
  split at run
  · simp only [index, bitmapSet_one, bind_eq_ok, Except.ok.injEq, exists_eq_left',
      pure_eq_ok] at run
    obtain ⟨_, -, ⟨paddr, m2⟩, alloc, run⟩ := run
    have first := shares.locking locks tables1 cr31
    have second := @markHeap _ _ first.shares (m1.mem.setBit (8 * bits + stackBit) true)
      fun query below => Bytes.setBit_of_ne _ _ (by rw [kernelHeapStart] at lower below; omega)
    have process1 : dirs m1.cr3 := cr31 ▸ process
    obtain ⟨third, used, notUsed, tables2⟩ := second.shares.alloc alloc
    obtain ⟨kernelPages, userPages, laid⟩ := second.shares.laid
    have nonNull := laid.alloc_ne_zero alloc
    dsimp only at run
    rw [if_neg nonNull] at run
    simp only [bind_eq_ok] at run
    obtain ⟨m3, insert, m4, released, run⟩ := run
    cases run
    have fresh : ∀ role, ¬HasRole heapSharing dirs m2.tables role paddr := by
      intro role held
      rw [tables2] at held
      exact notUsed (second.shares.owned.used role paddr held)
    have cr32 : m2.cr3 = m1.cr3 := third.cr3
    have fourth := third.shares.insertUser (cr32 ▸ process1) (by decide) used fresh insert
    have unlocks := releasePool_locking released
    obtain ⟨tables4, cr34⟩ := releasePool_tables released
    have fifth := fourth.shares.locking unlocks tables4 cr34
    have only := (allocPhysicalPages_mapsOnly alloc).trans (insertPageTable_mapsOnly insert)
    refine ⟨?_, ?_, ?_, fun query other => ?_⟩
    · rw [fourth.cr3, cr32] at fifth
      rw [cr32] at fourth
      rw [← cr31] at first ⊢
      exact ((((first.trans second).trans third).trans fourth).trans fifth).congr fun number =>
        by simp
    · exact unlocks.running.trans ((congrArg Machine.running only.same).trans locks.running)
    · have between : SameLayout m1 m3 := SameLayout.of_eq only.pool_eq only.kernelVaddr_eq
      exact (locks.layout.trans between).trans unlocks.layout
    · have other1 : ¬m1.PoolByte query := by
        rintro ⟨pf, lower, upper⟩
        rw [locks.layout.poolBitmap] at lower upper
        exact other ⟨pf, lower, upper⟩
      rw [unlocks.mem, only.mem query other1, locks.mem]
  · split at run
    · next kernel => cases kernel.2
    · cases run

end Machine.Shares

end

end Pumelo
