import Pumelo.Foundation.System
import Pumelo.Foundation.Tlb
import Pumelo.MallocCall

/-!
# Page tables and the TLB

`insert_page_table` stores into the page tables and leaves the TLB as it is.
`remove_page_table` ends with `invlpg` on its parameter, a memory operand: what
the TLB gives up is the entry for the page in which the parameter lies, that of
the running thread's stack.  `sys_free` stores nothing into the page tables, and
the entries it leaves there are replaced when the pages are handed out again.

The TLB may load a translation at every moment of a call.  A moment is given by
the page tables at that time: those between one store of the call and the next.
-/

namespace Pumelo

open Foundation PageWalk

/-- The page tables while `insert_page_table` runs.  Those of `clearing` are seen
when the first `count` words of a new table have been cleared. -/
inductive InsertMoment (m : Machine) (vaddr paddr : Nat) : Words → Prop where
  | first : InsertMoment m vaddr paddr m.tables
  | clearing {pde frame count : Nat} {m1 m2 m3 : Machine} :
      readVirt m (pdeAddr vaddr) = .ok pde → ¬(pde &&& 1 ≠ 0) →
      allocPhysicalPages m .kernel = .ok (frame, m1) →
      writeVirt m1 (pdeAddr vaddr) (frame ||| pgFlags) = .ok m2 → count ≤ 1024 →
      clearVirt m2 (pteAddr vaddr &&& 0xfffff000) count = .ok m3 →
      InsertMoment m vaddr paddr m3.tables
  | last {m' : Machine} : insertPageTable m vaddr paddr = .ok m' →
      InsertMoment m vaddr paddr m'.tables

/-- The page tables while the loop of `malloc_pages` runs. -/
inductive MapMoment (memPool : PoolFlags) : Machine → (vaddr cnt : Nat) → Words → Prop where
  | first (m : Machine) (vaddr cnt : Nat) : MapMoment memPool m vaddr cnt m.tables
  | insert {m m1 : Machine} {vaddr cnt pagePaddr : Nat} {tables : Words} :
      allocPhysicalPages m memPool = .ok (pagePaddr, m1) → pagePaddr ≠ 0 →
      InsertMoment m1 vaddr pagePaddr tables → MapMoment memPool m vaddr (cnt + 1) tables
  | later {m m1 m2 : Machine} {vaddr cnt pagePaddr : Nat} {tables : Words} :
      allocPhysicalPages m memPool = .ok (pagePaddr, m1) → pagePaddr ≠ 0 →
      insertPageTable m1 vaddr pagePaddr = .ok m2 →
      MapMoment memPool m2 ((vaddr + pageSize) % 2 ^ 32) cnt tables →
      MapMoment memPool m vaddr (cnt + 1) tables

/-- The page tables while `malloc_pages` runs. -/
inductive MallocMoment (m : Machine) (pf : PoolFlags) (pgCnt : Nat) : Words → Prop where
  | first : MallocMoment m pf pgCnt m.tables
  | map {vaddr : Nat} {m1 : Machine} {tables : Words} :
      getVirtualPages m pf pgCnt = .ok (vaddr, m1) → vaddr ≠ 0 →
      MapMoment pf m1 vaddr pgCnt tables → MallocMoment m pf pgCnt tables

/-- The page tables while the loops of `free_pages` run: each turn stores once. -/
inductive FreeMoment : Machine → (vaddr pgCnt : Nat) → Words → Prop where
  | first (m : Machine) (vaddr pgCnt : Nat) : FreeMoment m vaddr pgCnt m.tables
  | later {m m1 m2 : Machine} {vaddr pgCnt pgPhyAddr : Nat} {tables : Words} :
      addrV2p m vaddr = .ok pgPhyAddr → freePhysicalPages m pgPhyAddr = .ok m1 →
      removePageTable m1 vaddr = .ok m2 →
      FreeMoment m2 ((vaddr + pageSize) % 2 ^ 32) pgCnt tables →
      FreeMoment m vaddr (pgCnt + 1) tables

/-- The calls that hand out and take back pages. -/
inductive Call where
  | mallocPages (pf : PoolFlags) (pgCnt : Nat)
  | freePages (pf : PoolFlags) (vaddr pgCnt : Nat)
  | sysMalloc (size : Nat)
  | sysFree (ptr : Nat)

/-- What the call leaves, when it returns. -/
def Call.run (m : Machine) : Call → Except Fault Machine
  | mallocPages pf pgCnt => Prod.snd <$> Pumelo.mallocPages m pf pgCnt
  | freePages pf vaddr pgCnt => Pumelo.freePages m pf vaddr pgCnt
  | sysMalloc size => Prod.snd <$> Pumelo.sysMalloc m size
  | sysFree ptr => Pumelo.sysFree m ptr

/-- The page tables while a call runs.  In `sys_malloc` they change in the
`malloc_pages` for the pages that it needs, and in `sys_free` never. -/
inductive CallMoment (m : Machine) : Call → Words → Prop where
  | first (call : Call) : CallMoment m call m.tables
  | mallocPages {pf : PoolFlags} {pgCnt : Nat} {tables : Words} :
      MallocMoment m pf pgCnt tables → CallMoment m (.mallocPages pf pgCnt) tables
  | freePages {pf : PoolFlags} {vaddr pgCnt : Nat} {tables : Words} :
      FreeMoment m vaddr pgCnt tables → CallMoment m (.freePages pf vaddr pgCnt) tables
  | sysMalloc {size : Nat} {m1 : Machine} {tables : Words} :
      0 < size → size < (m.pool (callerFlags m)).poolSize →
      acquirePool m (callerFlags m) = .ok m1 → pagesNeeded m1 size ≠ 0 →
      MallocMoment m1 (callerFlags m) (pagesNeeded m1 size) tables →
      CallMoment m (.sysMalloc size) tables

/-- The page whose entry the TLB is told to give up: `free_pages` does so at each
turn, for the page that holds the operand of `invlpg`. -/
def Call.Drops (m : Machine) : Call → (page : Nat) → Prop
  | freePages .., page => page = m.running / 4096
  | _, _ => False

/-- The entry that a store through `vaddr` replaces is not present. -/
def EntryAbsent (m : Machine) (vaddr : Nat) : Prop :=
  ∀ slot, walk m.tables m.cr3 vaddr = some slot → ¬Present (m.tables slot)

/-- `insert_page_table` replaces no present entry: the page has none, and where the
page table is a new one, the frame it lies in holds no word that reads as one. -/
def InsertFresh (m : Machine) (vaddr : Nat) : Prop :=
  ∀ pde, readVirt m (pdeAddr vaddr) = .ok pde →
    if pde &&& 1 ≠ 0 then EntryAbsent m (pteAddr vaddr)
    else ∀ frame m1 m2, allocPhysicalPages m .kernel = .ok (frame, m1) →
      writeVirt m1 (pdeAddr vaddr) (frame ||| pgFlags) = .ok m2 →
      ∀ index, index < 1024 → EntryAbsent m2 ((pteAddr vaddr &&& 0xfffff000) + 4 * index)

/-- `insert_page_table` replaces no present entry at any turn of the loop of
`malloc_pages`. -/
def MapFresh (m : Machine) (memPool : PoolFlags) (vaddr : Nat) : (cnt : Nat) → Prop
  | 0 => True
  | cnt + 1 => ∀ pagePaddr m1, allocPhysicalPages m memPool = .ok (pagePaddr, m1) →
      pagePaddr ≠ 0 → InsertFresh m1 vaddr ∧
        ∀ m2, insertPageTable m1 vaddr pagePaddr = .ok m2 →
          MapFresh m2 memPool ((vaddr + pageSize) % 2 ^ 32) cnt

/-- `malloc_pages` finds the pages of the run without present entries. -/
def MallocFresh (m : Machine) (pf : PoolFlags) (pgCnt : Nat) : Prop :=
  ∀ vaddr m1, getVirtualPages m pf pgCnt = .ok (vaddr, m1) → vaddr ≠ 0 → MapFresh m1 pf vaddr pgCnt

/-- No page of a run has a present entry. -/
def RunAbsent (m : Machine) (vaddr : Nat) : (pgCnt : Nat) → Prop
  | 0 => True
  | pgCnt + 1 => EntryAbsent m (pteAddr vaddr) ∧ RunAbsent m ((vaddr + pageSize) % 2 ^ 32) pgCnt

/-- The call replaces no present entry of the page tables. -/
def Call.Fresh (m : Machine) : Call → Prop
  | mallocPages pf pgCnt => MallocFresh m pf pgCnt
  | freePages _ vaddr pgCnt => RunAbsent m vaddr pgCnt
  | sysMalloc size => ∀ m1, acquirePool m (callerFlags m) = .ok m1 →
      MallocFresh m1 (callerFlags m) (pagesNeeded m1 size)
  | sysFree _ => True

/-- The MMU translates as before. -/
structure SameTables (m m' : Machine) : Prop where
  tables : m'.tables = m.tables
  cr3 : m'.cr3 = m.cr3

namespace SameTables

variable {m m' m'' : Machine}

theorem refl (m : Machine) : SameTables m m := ⟨rfl, rfl⟩

theorem trans (first : SameTables m m') (second : SameTables m' m'') : SameTables m m'' :=
  ⟨second.tables.trans first.tables, second.cr3.trans first.cr3⟩

theorem samePresent (same : SameTables m m') : SamePresent m.tables m'.tables := by
  rw [same.tables]
  exact .refl _

end SameTables

section

variable {m m' : Machine}

theorem allocPhysicalPages_sameTables {pf : PoolFlags} {paddr : Nat}
    (run : allocPhysicalPages m pf = .ok (paddr, m')) : SameTables m m' := by
  obtain ⟨index, -, -, -, -, rfl⟩ := allocPhysicalPages_ok run
  exact ⟨rfl, rfl⟩

theorem freePhysicalPages_sameTables {pgPhyAddr : Nat}
    (run : freePhysicalPages m pgPhyAddr = .ok m') : SameTables m m' := by
  obtain ⟨mem, -, rest⟩ := bind_eq_ok.mp run
  cases rest
  exact ⟨rfl, rfl⟩

theorem getVirtualPages_sameTables {pf : PoolFlags} {pgCnt vaddr : Nat}
    (run : getVirtualPages m pf pgCnt = .ok (vaddr, m')) : SameTables m m' := by
  unfold getVirtualPages at run
  split at run <;>
  · obtain ⟨scanned, -, run⟩ := bind_eq_ok.mp run
    split at run
    · simp only [setRun_one, bind_eq_ok] at run
      obtain ⟨mem, -, run⟩ := run
      first
      | (cases run; exact ⟨rfl, rfl⟩)
      | (obtain ⟨_, -, run⟩ := run; cases run; exact ⟨rfl, rfl⟩)
    · cases run
      exact .refl m

theorem removeVirtualPages_sameTables {pf : PoolFlags} {vaddr pgCnt : Nat}
    (run : removeVirtualPages m pf vaddr pgCnt = .ok m') : SameTables m m' := by
  obtain ⟨mem, -, rest⟩ := bind_eq_ok.mp run
  cases rest
  exact ⟨rfl, rfl⟩

theorem acquirePool_sameTables {pf : PoolFlags} (run : acquirePool m pf = .ok m') :
    SameTables m m' := by
  obtain ⟨⟨lk, m1⟩, acquired, rest⟩ := bind_eq_ok.mp run
  cases rest
  rw [lockAcquire_machine acquired]
  exact ⟨rfl, rfl⟩

theorem releasePool_sameTables {pf : PoolFlags} (run : releasePool m pf = .ok m') :
    SameTables m m' := by
  obtain ⟨⟨lk, m1⟩, released, rest⟩ := bind_eq_ok.mp run
  cases rest
  rw [lockRelease_machine released]
  exact ⟨rfl, rfl⟩

theorem listAppend_sameTables (m : Machine) (plist elem : Nat) :
    SameTables m (listAppend m plist elem) := by
  rw [listAppend_eq]
  exact ⟨rfl, rfl⟩

theorem listRemove_sameTables (m : Machine) (elem : Nat) : SameTables m (listRemove m elem) := by
  rw [listRemove_eq]
  exact ⟨rfl, rfl⟩

theorem setIntrStatus_sameTables (m : Machine) (status : IntrStatus) :
    SameTables m (setIntrStatus m status).2 := by
  rw [setIntrStatus_eq]
  exact ⟨rfl, rfl⟩

theorem carveBlocks_sameTables {a blockPerArena : Nat}
    (run : carveBlocks m a blockPerArena = .ok m') : SameTables m m' := by
  induction blockPerArena generalizing m' with
  | zero =>
      cases run
      exact .refl m
  | succ blockIdx ih =>
      simp only [carveBlocks, bind_eq_ok] at run
      obtain ⟨m1, carved, found, -, -, -, run⟩ := run
      cases run
      exact (ih carved).trans (listAppend_sameTables m1 _ _)

theorem releaseBlocks_sameTables {a blockPerArena : Nat}
    (run : releaseBlocks m a blockPerArena = .ok m') : SameTables m m' := by
  induction blockPerArena generalizing m' with
  | zero =>
      cases run
      exact .refl m
  | succ blockIdx ih =>
      simp only [releaseBlocks, bind_eq_ok] at run
      obtain ⟨m1, released, found, -, -, -, run⟩ := run
      cases run
      exact (ih released).trans (listRemove_sameTables m1 _)

theorem initArena_sameTables {desc a : Nat} (run : initArena m desc a = .ok m') :
    SameTables m m' := by
  simp only [initArena, intrDisable_eq, bind_eq_ok] at run
  obtain ⟨m1, carved, rest⟩ := run
  cases rest
  have same := carveBlocks_sameTables carved
  exact ⟨(setIntrStatus_sameTables m1 _).tables.trans same.tables,
    (setIntrStatus_sameTables m1 _).cr3.trans same.cr3⟩

theorem takeBlock_sameTables (m : Machine) (desc : Nat) : SameTables m (takeBlock m desc).2 := by
  have removed := listRemove_sameTables m (nextOf m.mem (freeListOf desc))
  exact ⟨removed.tables, removed.cr3⟩

/-- The page tables changed in the `malloc_pages` for a request, if it needs pages. -/
def ChangedByPages (m : Machine) (pf : PoolFlags) (size : Nat) (m' : Machine) : Prop :=
  pagesNeeded m size = 0 ∧ SameTables m m' ∨
    ∃ a m1, mallocPages m pf (pagesNeeded m size) = .ok (a, m1) ∧ SameTables m1 m'

theorem mallocLarge_tables {pf : PoolFlags} {size p : Nat} (large : size > 1024)
    (run : mallocLarge mallocPages m pf size = .ok (p, m')) : ChangedByPages m pf size m' := by
  obtain ⟨⟨a, m1⟩, source, run⟩ := bind_eq_ok.mp run
  refine .inr ⟨a, m1, ?_, ?_⟩
  · rw [pagesNeeded, if_pos large]
    exact source
  · dsimp only at run
    split at run
    · obtain ⟨m2, released, rest⟩ := bind_eq_ok.mp run
      cases rest
      have same := releasePool_sameTables released
      exact ⟨same.tables, same.cr3⟩
    · obtain ⟨m2, released, rest⟩ := bind_eq_ok.mp run
      cases rest
      exact releasePool_sameTables released

theorem refill_tables {pf : PoolFlags} {desc : Nat} {obtained : Bool}
    (run : refill mallocPages m pf desc = .ok (obtained, m')) :
    if listEmpty m.mem (freeListOf desc) then
      ∃ a m1, mallocPages m pf 1 = .ok (a, m1) ∧ SameTables m1 m'
    else SameTables m m' := by
  unfold refill at run
  split at run
  · next empty =>
      rw [if_pos empty]
      obtain ⟨⟨a, m1⟩, source, run⟩ := bind_eq_ok.mp run
      refine ⟨a, m1, source, ?_⟩
      dsimp only at run
      split at run
      · cases run
        exact .refl _
      · obtain ⟨m2, init, rest⟩ := bind_eq_ok.mp run
        cases rest
        exact initArena_sameTables init
  · next notEmpty =>
      rw [if_neg notEmpty]
      cases run
      exact .refl m

theorem mallocBlock_tables {pf : PoolFlags} {size p : Nat} (small : ¬size > 1024)
    (run : mallocBlock mallocPages m pf size = .ok (p, m')) : ChangedByPages m pf size m' := by
  simp only [mallocBlock, bind_eq_ok] at run
  obtain ⟨desc, descEq, ⟨obtained, m1⟩, filled, run⟩ := run
  -- What follows the refill only moves a block and releases the lock.
  have rest : SameTables m1 m' := by
    dsimp only at run
    split at run
    · obtain ⟨m2, released, rest⟩ := bind_eq_ok.mp run
      cases rest
      exact (takeBlock_sameTables m1 desc).trans (releasePool_sameTables released)
    · obtain ⟨m2, released, rest⟩ := bind_eq_ok.mp run
      cases rest
      exact releasePool_sameTables released
  have refilled := refill_tables filled
  unfold kBlockDesc at descEq
  split at descEq
  · cases descEq
    simp only [ChangedByPages, pagesNeeded, if_neg small]
    split at refilled
    · next empty =>
        obtain ⟨a, m2, source, same⟩ := refilled
        rw [if_pos empty]
        exact .inr ⟨a, m2, source, same.trans rest⟩
    · next notEmpty => exact .inl ⟨if_neg notEmpty, refilled.trans rest⟩
  · cases descEq

/-- `sys_malloc` changes the page tables in the `malloc_pages` it calls. -/
theorem sysMalloc_tables {size p : Nat} (run : sysMalloc m size = .ok (p, m')) :
    ¬(0 < size ∧ size < (m.pool (callerFlags m)).poolSize) ∧ SameTables m m' ∨
      ∃ m1, acquirePool m (callerFlags m) = .ok m1 ∧ SameTables m m1 ∧
        ChangedByPages m1 (callerFlags m) size m' := by
  rw [sysMalloc, sysMallocWith] at run
  split at run
  · next rejected =>
      cases run
      exact .inl ⟨rejected, .refl m⟩
  · obtain ⟨m1, acquired, run⟩ := bind_eq_ok.mp run
    refine .inr ⟨m1, acquired, acquirePool_sameTables acquired, ?_⟩
    split at run
    · next large => exact mallocLarge_tables large run
    · next small => exact mallocBlock_tables small run

theorem putBlock_sameTables {pf : PoolFlags} {a b : Nat} (run : putBlock m pf a b = .ok m') :
    SameTables m m' := by
  have appended := listAppend_sameTables m (freeListOf (arenaDesc m.mem a)) b
  unfold putBlock at run
  dsimp only at run
  split at run
  · obtain ⟨m1, released, removed⟩ := bind_eq_ok.mp run
    have same := (releaseBlocks_sameTables released).trans (removeVirtualPages_sameTables removed)
    exact ⟨same.tables.trans appended.tables, same.cr3.trans appended.cr3⟩
  · cases run
    exact ⟨appended.tables, appended.cr3⟩

/-- `sys_free` leaves the page tables as they are: the pages it gives back stay
mapped. -/
theorem sysFree_sameTables {ptr : Nat} (run : sysFree m ptr = .ok m') : SameTables m m' := by
  rw [sysFree, bind_eq_ok] at run
  obtain ⟨-, -, run⟩ := run
  obtain ⟨-, -, run⟩ := bind_eq_ok.mp run
  obtain ⟨m1, acquired, run⟩ := bind_eq_ok.mp run
  obtain ⟨-, -, run⟩ := bind_eq_ok.mp run
  refine (acquirePool_sameTables acquired).trans ?_
  split at run
  · obtain ⟨m2, removed, released⟩ := bind_eq_ok.mp run
    exact (removeVirtualPages_sameTables removed).trans (releasePool_sameTables released)
  · obtain ⟨m2, put, released⟩ := bind_eq_ok.mp run
    exact (putBlock_sameTables put).trans (releasePool_sameTables released)

end

/-! ## What the stores of a call replace -/

section

variable {m m' : Machine} {vaddr : Nat}

theorem EntryAbsent.congr (absent : EntryAbsent m vaddr) (same : SamePresent m.tables m'.tables)
    (cr3 : m'.cr3 = m.cr3) : EntryAbsent m' vaddr := by
  intro slot mapped
  rw [cr3, same.walk_eq] at mapped
  rw [same.present_iff]
  exact absent slot mapped

theorem RunAbsent.congr {pgCnt : Nat} (absent : RunAbsent m vaddr pgCnt)
    (same : SamePresent m.tables m'.tables) (cr3 : m'.cr3 = m.cr3) : RunAbsent m' vaddr pgCnt := by
  induction pgCnt generalizing vaddr with
  | zero => trivial
  | succ pgCnt ih => exact ⟨absent.1.congr same cr3, ih absent.2⟩

/-- What was read from an entry shows whether it is present. -/
theorem EntryAbsent.of_read {word : Nat} (read : readVirt m vaddr = .ok word)
    (absent : ¬(word &&& 1 ≠ 0)) : EntryAbsent m vaddr := by
  intro slot mapped present
  rw [readVirt, mapped] at read
  cases read
  exact absent (present_iff.mp present)

/-- A store over an absent entry keeps the present ones. -/
theorem EntryAbsent.writeVirt {word : Nat} (absent : EntryAbsent m vaddr)
    (run : writeVirt m vaddr word = .ok m') : KeepsPresent m.tables m'.tables := by
  obtain ⟨slot, mapped, rfl⟩ := writeVirt_ok run
  exact .write (absent slot mapped) word

/-- A store of an absent entry over an absent one changes no translation. -/
theorem EntryAbsent.writeVirt_absent {word : Nat} (absent : EntryAbsent m vaddr)
    (wordAbsent : ¬Present word) (run : Pumelo.writeVirt m vaddr word = .ok m') :
    SamePresent m.tables m'.tables ∧ m'.cr3 = m.cr3 := by
  obtain ⟨slot, mapped, rfl⟩ := writeVirt_ok run
  exact ⟨.write (absent slot mapped) wordAbsent, rfl⟩

theorem clearVirt_samePresent {count : Nat}
    (absent : ∀ index, index < count → EntryAbsent m (vaddr + 4 * index))
    (run : clearVirt m vaddr count = .ok m') :
    SamePresent m.tables m'.tables ∧ m'.cr3 = m.cr3 := by
  induction count generalizing m' with
  | zero =>
      cases run
      exact ⟨.refl _, rfl⟩
  | succ count ih =>
      rw [clearVirt, bind_eq_ok] at run
      obtain ⟨m1, cleared, last⟩ := run
      obtain ⟨same, cr3⟩ := ih (fun index indexLt => absent index (by omega)) cleared
      obtain ⟨sameLast, cr3Last⟩ :=
        ((absent count (Nat.lt_succ_self count)).congr same cr3).writeVirt_absent (by decide) last
      exact ⟨same.trans sameLast, cr3Last.trans cr3⟩

/-- A page's entry lies in the page of the window that shows its table. -/
theorem pteAddr_in_table (fits : vaddr < 2 ^ 32) :
    (pteAddr vaddr &&& 0xfffff000) + 4 * tableIndex vaddr = pteAddr vaddr := by
  rw [pteAddr_page fits, pteAddr_eq fits]

/-- Whatever the tables were while `insert_page_table` ran, their present entries
are there when it is done. -/
theorem insertPageTable_keepsPresent {paddr : Nat} (fits : vaddr < 2 ^ 32)
    (fresh : InsertFresh m vaddr) (run : insertPageTable m vaddr paddr = .ok m') {tables : Words}
    (moment : InsertMoment m vaddr paddr tables) : KeepsPresent tables m'.tables := by
  have returned := run
  rw [insertPageTable, bind_eq_ok] at run
  obtain ⟨pde, readPde, run⟩ := run
  have freshPde := fresh pde readPde
  split at run
  · next present =>
      rw [if_pos present] at freshPde
      have stored : writeVirt m (pteAddr vaddr) (paddr ||| pgFlags) = .ok m' := by
        rw [bind_eq_ok] at run
        obtain ⟨pte, -, run⟩ := run
        split at run <;> exact run
      cases moment with
      | first => exact freshPde.writeVirt stored
      | clearing readAgain absent =>
          obtain rfl := Except.ok.inj (readPde.symm.trans readAgain)
          exact absurd present absent
      | last again =>
          obtain rfl := Except.ok.inj (returned.symm.trans again)
          exact .refl _
  · next absent =>
      rw [if_neg absent] at freshPde
      simp only [bind_eq_ok] at run
      obtain ⟨⟨frame, m1⟩, alloc, m2, install, m3, clear, last⟩ := run
      have tableAbsent := freshPde frame m1 m2 alloc install
      obtain ⟨same, cr3⟩ := clearVirt_samePresent tableAbsent clear
      have lastKeeps : KeepsPresent m3.tables m'.tables := by
        have entry := tableAbsent (tableIndex vaddr) (tableIndex_lt vaddr)
        rw [pteAddr_in_table fits] at entry
        exact (entry.congr same cr3).writeVirt last
      cases moment with
      | first =>
          have taken := allocPhysicalPages_sameTables alloc
          have firstKeeps : KeepsPresent m.tables m2.tables := by
            rw [← taken.tables]
            exact ((EntryAbsent.of_read readPde absent).congr taken.samePresent
              taken.cr3).writeVirt install
          exact (firstKeeps.trans same.keeps).trans lastKeeps
      | clearing readAgain _ allocAgain installAgain countLe clearAgain =>
          obtain ⟨rfl, rfl⟩ := Prod.mk.inj (Except.ok.inj (alloc.symm.trans allocAgain))
          obtain rfl := Except.ok.inj (install.symm.trans installAgain)
          obtain ⟨sameThere, -⟩ :=
            clearVirt_samePresent (fun index indexLt => tableAbsent index (by omega)) clearAgain
          exact (sameThere.adds_none.trans same.keeps).trans lastKeeps
      | last again =>
          obtain rfl := Except.ok.inj (returned.symm.trans again)
          exact .refl _

/-- The loop of `malloc_pages`: each turn keeps the present entries of the moments
before it. -/
theorem mapPages_keepsPresent {memPool : PoolFlags} {cnt : Nat} {mapped : Bool}
    (fits : vaddr < 2 ^ 32) (fresh : MapFresh m memPool vaddr cnt)
    (run : mapPages m memPool vaddr cnt = .ok (mapped, m')) {tables : Words}
    (moment : MapMoment memPool m vaddr cnt tables) : KeepsPresent tables m'.tables := by
  induction cnt generalizing m vaddr tables with
  | zero =>
      cases run
      cases moment
      exact .refl _
  | succ cnt ih =>
      rw [mapPages, bind_eq_ok] at run
      obtain ⟨⟨pagePaddr, m1⟩, alloc, run⟩ := run
      have taken := allocPhysicalPages_sameTables alloc
      dsimp only at run
      split at run
      · next null =>
          cases run
          cases moment with
          | first => exact taken.samePresent.keeps
          | insert allocAgain nonNull _ =>
              obtain ⟨rfl, -⟩ := Prod.mk.inj (Except.ok.inj (alloc.symm.trans allocAgain))
              exact absurd null nonNull
          | later allocAgain nonNull _ _ =>
              obtain ⟨rfl, -⟩ := Prod.mk.inj (Except.ok.inj (alloc.symm.trans allocAgain))
              exact absurd null nonNull
      · next nonNull =>
          obtain ⟨m2, insert, rest⟩ := bind_eq_ok.mp run
          obtain ⟨freshHere, freshLater⟩ := fresh pagePaddr m1 alloc nonNull
          have nextFits : (vaddr + pageSize) % 2 ^ 32 < 2 ^ 32 := Nat.mod_lt _ (by decide)
          have later := @ih m2 _ nextFits (freshLater m2 insert) rest
          have turn {tables : Words} (moment : InsertMoment m1 vaddr pagePaddr tables) :
              KeepsPresent tables m'.tables :=
            (insertPageTable_keepsPresent fits freshHere insert moment).trans (later (.first ..))
          cases moment with
          | first =>
              rw [← taken.tables]
              exact turn .first
          | insert allocAgain _ inside =>
              obtain ⟨rfl, rfl⟩ := Prod.mk.inj (Except.ok.inj (alloc.symm.trans allocAgain))
              exact turn inside
          | later allocAgain _ insertAgain rest =>
              obtain ⟨rfl, rfl⟩ := Prod.mk.inj (Except.ok.inj (alloc.symm.trans allocAgain))
              obtain rfl := Except.ok.inj (insert.symm.trans insertAgain)
              exact later rest

theorem mapPages_cr3 {memPool : PoolFlags} {cnt : Nat} {mapped : Bool}
    (run : mapPages m memPool vaddr cnt = .ok (mapped, m')) : m'.cr3 = m.cr3 := by
  rw [(mapPages_mapsOnly run).same]

/-- `get_virtual_pages` returns a 32-bit address. -/
theorem getVirtualPages_lt {pf : PoolFlags} {pgCnt : Nat}
    (run : getVirtualPages m pf pgCnt = .ok (vaddr, m')) : vaddr < 2 ^ 32 := by
  unfold getVirtualPages at run
  split at run <;>
  · obtain ⟨scanned, -, run⟩ := bind_eq_ok.mp run
    split at run
    · simp only [setRun_one, bind_eq_ok] at run
      obtain ⟨mem, -, run⟩ := run
      first
      | (cases run; exact Nat.mod_lt _ (by decide))
      | (obtain ⟨_, -, run⟩ := run; cases run; exact Nat.mod_lt _ (by decide))
    · cases run
      decide

/-- A call of `malloc_pages` that replaces no present entry. -/
theorem mallocPages_keepsPresent {pf : PoolFlags} {pgCnt : Nat} (fresh : MallocFresh m pf pgCnt)
    (run : mallocPages m pf pgCnt = .ok (vaddr, m')) :
    (∀ tables, MallocMoment m pf pgCnt tables → KeepsPresent tables m'.tables) ∧
      m'.cr3 = m.cr3 := by
  rw [mallocPages, bind_eq_ok] at run
  obtain ⟨⟨start, m1⟩, virtual, run⟩ := run
  have marked := getVirtualPages_sameTables virtual
  dsimp only at run
  split at run
  · next null =>
      cases run
      refine ⟨fun tables moment => ?_, marked.cr3⟩
      cases moment with
      | first => exact marked.samePresent.keeps
      | map again nonNull _ =>
          obtain ⟨rfl, -⟩ := Prod.mk.inj (Except.ok.inj (virtual.symm.trans again))
          exact absurd null nonNull
  · next nonNull =>
      obtain ⟨⟨mapped, m2⟩, map, run⟩ := bind_eq_ok.mp run
      have result : m' = m2 := by
        cases mapped <;> (cases run; rfl)
      subst result
      have keeps {tables : Words} (moment : MapMoment pf m1 start pgCnt tables) :
          KeepsPresent tables m'.tables :=
        mapPages_keepsPresent (getVirtualPages_lt virtual) (fresh start m1 virtual nonNull) map
          moment
      refine ⟨fun tables moment => ?_, (mapPages_cr3 map).trans marked.cr3⟩
      cases moment with
      | first =>
          rw [← marked.tables]
          exact keeps (.first ..)
      | map again _ inside =>
          obtain ⟨rfl, rfl⟩ := Prod.mk.inj (Except.ok.inj (virtual.symm.trans again))
          exact keeps inside

/-- What `remove_page_table` stores is not present. -/
theorem cleared_absent (word : Nat) : ¬Present (word &&& 0xfffffffe) := by
  rw [present_iff, Nat.and_assoc]
  simp

/-- Unmapping a page that has no present entry changes no translation. -/
theorem removePageTable_samePresent (absent : EntryAbsent m (pteAddr vaddr))
    (run : removePageTable m vaddr = .ok m') :
    SamePresent m.tables m'.tables ∧ m'.cr3 = m.cr3 := by
  obtain ⟨word, -, stored⟩ := bind_eq_ok.mp run
  exact absent.writeVirt_absent (cleared_absent word) stored

theorem removePageTable_of_walk {slot : Nat}
    (mapped : walk m.tables m.cr3 (pteAddr vaddr) = some slot) :
    removePageTable m vaddr =
      .ok { m with tables := m.tables.write slot (m.tables slot &&& 0xfffffffe) } := by
  rw [removePageTable, bind_ok (readVirt_of_walk mapped), writeVirt_of_walk mapped]

/-- `remove_virtual_pages` stores into a bitmap. -/
theorem removeVirtualPages_mem (m : Machine) (pf : PoolFlags) (vaddr pgCnt : Nat) :
    ∃ mem, removeVirtualPages m pf vaddr pgCnt = .ok { m with mem := mem } := by
  simp only [removeVirtualPages, setRun_zero]
  exact ⟨_, rfl⟩

/-- The loops of `free_pages`, over pages that have no present entries. -/
theorem freeRun_samePresent {memPool : PoolFlags} {pgCnt : Nat} (absent : RunAbsent m vaddr pgCnt)
    (run : freeRun m memPool vaddr pgCnt = .ok m') :
    (∀ tables, FreeMoment m vaddr pgCnt tables → SamePresent tables m'.tables) ∧
      m'.cr3 = m.cr3 := by
  induction pgCnt generalizing m vaddr with
  | zero =>
      cases run
      refine ⟨fun tables moment => ?_, rfl⟩
      cases moment
      exact .refl _
  | succ pgCnt ih =>
      obtain ⟨pgPhyAddr, m1, m2, translated, freed, removed, rest⟩ := freeRun_succ_ok run
      have bit := freePhysicalPages_sameTables freed
      obtain ⟨unmapped, cr3⟩ :=
        removePageTable_samePresent (absent.1.congr bit.samePresent bit.cr3) removed
      have turn := bit.samePresent.trans unmapped
      obtain ⟨later, cr3Later⟩ := ih (absent.2.congr turn (cr3.trans bit.cr3)) rest
      refine ⟨fun tables moment => ?_, (cr3Later.trans cr3).trans bit.cr3⟩
      cases moment with
      | first => exact turn.trans (later m2.tables (.first ..))
      | later translatedAgain freedAgain removedAgain inside =>
          obtain rfl := Except.ok.inj (translated.symm.trans translatedAgain)
          obtain rfl := Except.ok.inj (freed.symm.trans freedAgain)
          obtain rfl := Except.ok.inj (removed.symm.trans removedAgain)
          exact later tables inside

/-- A call of `free_pages` for pages that have no present entries. -/
theorem freePages_keepsPresent {pf : PoolFlags} {pgCnt : Nat} (absent : RunAbsent m vaddr pgCnt)
    (run : freePages m pf vaddr pgCnt = .ok m') :
    (∀ tables, FreeMoment m vaddr pgCnt tables → KeepsPresent tables m'.tables) ∧
      m'.cr3 = m.cr3 := by
  simp only [freePages, bind_eq_ok] at run
  obtain ⟨-, -, pgPhyAddr, -, -, -, m1, freed, removed⟩ := run
  have bits := removeVirtualPages_sameTables removed
  obtain ⟨same, cr3⟩ := freeRun_samePresent absent freed
  refine ⟨fun tables moment => ?_, bits.cr3.trans cr3⟩
  rw [bits.tables]
  exact (same tables moment).keeps

/-- A call of `sys_malloc` whose `malloc_pages` replaces no present entry. -/
theorem sysMalloc_keepsPresent {size p : Nat} (fresh : Call.Fresh m (.sysMalloc size))
    (run : sysMalloc m size = .ok (p, m')) :
    (∀ tables, CallMoment m (.sysMalloc size) tables → KeepsPresent tables m'.tables) ∧
      m'.cr3 = m.cr3 := by
  rcases sysMalloc_tables run with ⟨rejected, same⟩ | ⟨m1, acquired, locked, changed⟩
  · refine ⟨fun tables moment => ?_, same.cr3⟩
    cases moment with
    | first => exact same.samePresent.keeps
    | sysMalloc positive below _ _ _ => exact absurd ⟨positive, below⟩ rejected
  · rcases changed with ⟨noPages, same⟩ | ⟨a, m2, source, same⟩
    · have kept := locked.trans same
      refine ⟨fun tables moment => ?_, kept.cr3⟩
      cases moment with
      | first => exact kept.samePresent.keeps
      | sysMalloc _ _ again needed _ =>
          obtain rfl := Except.ok.inj (acquired.symm.trans again)
          exact absurd noPages needed
    · obtain ⟨keeps, cr3⟩ := mallocPages_keepsPresent (fresh m1 acquired) source
      refine ⟨fun tables moment => ?_, (same.cr3.trans cr3).trans locked.cr3⟩
      rw [same.tables]
      cases moment with
      | first =>
          rw [← locked.tables]
          exact keeps _ .first
      | sysMalloc _ _ again _ inside =>
          obtain rfl := Except.ok.inj (acquired.symm.trans again)
          exact keeps tables inside

theorem map_snd_ok {α β ε : Type} {run : Except ε (α × β)} {result : β}
    (mapped : Prod.snd <$> run = .ok result) : ∃ value, run = .ok (value, result) := by
  cases run with
  | error failure => cases mapped
  | ok pair =>
      cases mapped
      exact ⟨pair.1, rfl⟩

/-- After a call that replaces no present entry, those of all its moments are there. -/
theorem Call.Fresh.keepsPresent {call : Call} (fresh : call.Fresh m) (run : call.run m = .ok m') :
    (∀ tables, CallMoment m call tables → KeepsPresent tables m'.tables) ∧ m'.cr3 = m.cr3 := by
  cases call with
  | mallocPages pf pgCnt =>
      obtain ⟨vaddr, returned⟩ := map_snd_ok run
      obtain ⟨keeps, cr3⟩ := mallocPages_keepsPresent fresh returned
      refine ⟨fun tables moment => ?_, cr3⟩
      cases moment with
      | first => exact keeps _ .first
      | mallocPages inside => exact keeps tables inside
  | freePages pf vaddr pgCnt =>
      obtain ⟨keeps, cr3⟩ := freePages_keepsPresent fresh run
      refine ⟨fun tables moment => ?_, cr3⟩
      cases moment with
      | first => exact keeps _ (.first ..)
      | freePages inside => exact keeps tables inside
  | sysMalloc size =>
      obtain ⟨p, returned⟩ := map_snd_ok run
      exact sysMalloc_keepsPresent fresh returned
  | sysFree ptr =>
      have same := sysFree_sameTables run
      refine ⟨fun tables moment => ?_, same.cr3⟩
      cases moment
      exact same.samePresent.keeps

end

/-! ## Runs -/

/-- The machine and its TLB between two calls. -/
structure Mmu where
  machine : Machine
  tlb : Tlb

/-- What can happen: one of the allowed calls, a load into the TLB between calls, a
load of `cr3` as at a switch to another thread, and stores of the running code to
memory other than the page tables. -/
inductive MmuStep (allowed : Machine → Call → Prop) : Mmu → Mmu → Prop where
  | call (call : Call) {m m' : Machine} {tlb tlb' : Tlb} : allowed m call →
      call.run m = .ok m' →
      Tlb.Evolves (CallMoment m call) m'.tables m'.cr3 (call.Drops m) tlb tlb' →
      MmuStep allowed ⟨m, tlb⟩ ⟨m', tlb'⟩
  | load {m : Machine} {tlb : Tlb} {page frame : Nat} : tlb page = none →
      MapsPage m.tables m.cr3 page frame → MmuStep allowed ⟨m, tlb⟩ ⟨m, tlb.load page frame⟩
  | reload {m : Machine} {tlb : Tlb} (cr3 running : Nat) :
      MmuStep allowed ⟨m, tlb⟩ ⟨{ m with cr3 := cr3, running := running }, Tlb.empty⟩
  | store {m : Machine} {tlb : Tlb} (mem : Bytes) :
      MmuStep allowed ⟨m, tlb⟩ ⟨{ m with mem := mem }, tlb⟩

/-- Runs from any state in which nothing is cached yet. -/
def mmuSystem (allowed : Machine → Call → Prop) : System Mmu where
  init state := state.tlb = Tlb.empty
  step := MmuStep allowed

/-- Nothing that is cached differs from what the page tables say. -/
def Mmu.Coherent (state : Mmu) : Prop :=
  state.tlb.Coherent state.machine.tables state.machine.cr3

/-- In every run of allowed calls, the TLB agrees with the page tables after each. -/
def TlbCoherence (allowed : Machine → Call → Prop) : Prop :=
  ∀ state, (mmuSystem allowed).Reachable state → state.Coherent

/-- One step, when its call replaces no present entry. -/
theorem MmuStep.coherent {state next : Mmu}
    (taken : MmuStep (fun m call => call.Fresh m) state next) (coherent : state.Coherent) :
    next.Coherent := by
  cases taken with
  | call call fresh run evolves =>
      obtain ⟨keeps, cr3⟩ := Call.Fresh.keepsPresent fresh run
      refine evolves.coherent keeps (.first call) ?_
      rw [cr3]
      exact coherent
  | load absent maps => exact Tlb.Coherent.load coherent maps
  | reload cr3 running => exact Tlb.empty_coherent _ _
  | store mem => exact coherent

/-- The TLB agrees with the page tables in every run whose calls replace no present
entry. -/
theorem tlbCoherence (state : Mmu)
    (reachable : (mmuSystem fun m call => call.Fresh m).Reachable state) : state.Coherent := by
  have initial : ∀ state : Mmu, state.tlb = Tlb.empty → state.Coherent := by
    rintro ⟨machine, tlb⟩ rfl
    exact Tlb.empty_coherent _ _
  have preserved (state next : Mmu) (coherent : state.Coherent)
      (taken : (mmuSystem fun m call => call.Fresh m).step state next) : next.Coherent :=
    MmuStep.coherent taken coherent
  exact reachable.invariant initial preserved

-- With the kernel's page tables in place, all that a page of the kernel heap needs is
-- an entry that is not present.

section KernelHeap

variable {m : Machine} {kernelPages userPages page : Nat}

theorem KernelTables.entryAbsent (kernel : KernelTables m.tables m.cr3) (inside : page < 260864) :
    EntryAbsent m (pteAddr (0xc0100000 + 4096 * page)) ↔ ¬Present (m.tables (heapSlot page)) := by
  have mapped : walk m.tables m.cr3 (pteAddr (0xc0100000 + 4096 * page)) =
      some (heapSlot page) := by
    rw [walk_pteAddr kernel.self (by omega), kernel.pteSlot_heap inside]
  constructor
  · exact fun absent => absent _ mapped
  · intro absent slot other
    rw [mapped] at other
    cases other
    exact absent

theorem KernelTables.insertFresh (kernel : KernelTables m.tables m.cr3) (inside : page < 260864) :
    InsertFresh m (0xc0100000 + 4096 * page) ↔ ¬Present (m.tables (heapSlot page)) := by
  have present := (kernel.entries (dirIndex (0xc0100000 + 4096 * page))
    (by simp only [dirIndex]; omega) (by simp only [dirIndex]; omega)).1
  have read := readVirt_of_walk (m := m) (walk_pdeAddr kernel.self
    (show 0xc0100000 + 4096 * page < 2 ^ 32 by omega))
  rw [pdeSlot] at read
  rw [← kernel.entryAbsent inside]
  constructor
  · intro fresh
    have absent := fresh _ read
    rwa [if_pos (present_iff.mp present)] at absent
  · intro absent pde other
    rw [read] at other
    cases other
    rwa [if_pos (present_iff.mp present)]

/-- The first turn of the loop, and the turns after it. -/
theorem mapFresh_succ {memPool : PoolFlags} {vaddr cnt paddr : Nat} {m1 m2 : Machine}
    (alloc : allocPhysicalPages m memPool = .ok (paddr, m1)) (nonNull : paddr ≠ 0)
    (insert : insertPageTable m1 vaddr paddr = .ok m2) :
    MapFresh m memPool vaddr (cnt + 1) ↔
      InsertFresh m1 vaddr ∧ MapFresh m2 memPool ((vaddr + pageSize) % 2 ^ 32) cnt := by
  constructor
  · intro all
    obtain ⟨here, rest⟩ := all _ _ alloc nonNull
    exact ⟨here, rest _ insert⟩
  · rintro ⟨here, rest⟩ _ _ other -
    obtain ⟨rfl, rfl⟩ := Prod.mk.inj (Except.ok.inj (alloc.symm.trans other))
    refine ⟨here, fun m3 other => ?_⟩
    obtain rfl := Except.ok.inj (insert.symm.trans other)
    exact rest

/-- The loop of `malloc_pages` replaces no present entry exactly when the pages that get
frames have none before it. -/
theorem Laid.mapFresh_heap {cnt : Nat} (laid : Laid m kernelPages userPages)
    (kernel : KernelTables m.tables m.cr3) (inside : page + cnt ≤ 260864) :
    MapFresh m .kernel (0xc0100000 + 4096 * page) cnt ↔
      ∀ offset < cnt, offset < (m.freeFrames .kernel).card →
        ¬Present (m.tables (heapSlot (page + offset))) := by
  induction cnt generalizing m page with
  | zero => exact iff_of_true trivial (by omega)
  | succ cnt ih =>
      by_cases returns : ∃ paddr m1, allocPhysicalPages m .kernel = .ok (paddr, m1)
      · obtain ⟨paddr, m1, alloc⟩ := returns
        have nonNull := laid.alloc_ne_zero alloc
        obtain ⟨index, frameInside, clear, -, addrEq, rfl⟩ := allocPhysicalPages_ok alloc
        obtain ⟨addr, aligned, -⟩ := laid.frameAddr_spec frameInside
        obtain rfl := addrEq.trans addr
        have member := Machine.mem_freeFrames.mpr ⟨frameInside, clear⟩
        have positive := Finset.card_pos.mpr ⟨index, member⟩
        have fresh := KernelTables.insertFresh (m := m.setFrame .kernel index true) kernel
          (show page < 260864 by omega)
        have insert := @insertPageTable_heap (m.setFrame .kernel index true) kernel page
          (m.frameAddr .kernel index) (by omega) aligned
        have next : (0xc0100000 + 4096 * page + pageSize) % 2 ^ 32 =
            0xc0100000 + 4096 * (page + 1) := by
          rw [pageSize]
          omega
        have later := ih (laid.withPage index page) (kernel.withPage (by omega) index)
          (show page + 1 + cnt ≤ 260864 by omega)
        rw [laid.freeFrames_withPage frameInside, Finset.card_erase_of_mem member] at later
        -- the store of this turn is to another entry than those of the later ones
        have entries : ∀ offset, (m.withPage index page).tables (heapSlot (page + 1 + offset)) =
            m.tables (heapSlot (page + (offset + 1))) := by
          intro offset
          rw [show page + 1 + offset = page + (offset + 1) by omega]
          refine Words.write_of_ne _ _ fun equal => ?_
          have same := KernelTables.heapSlot_inj equal
          omega
        simp only [entries] at later
        rw [mapFresh_succ alloc nonNull insert, next, fresh]
        refine (and_congr_right fun _ => later).trans ?_
        constructor
        · rintro ⟨here, rest⟩ offset offsetLt free
          cases offset with
          | zero => exact here
          | succ offset => exact rest offset (by omega) (by omega)
        · intro all
          exact ⟨all 0 (by omega) positive, fun offset offsetLt free =>
            all (offset + 1) (by omega) (by omega)⟩
      · have none : (m.freeFrames .kernel).card = 0 := by
          rw [Finset.card_eq_zero, ← Finset.not_nonempty_iff_eq_empty, ← allocPhysicalPages_returns]
          exact returns
        rw [none]
        exact iff_of_true (fun paddr m1 alloc => (returns ⟨paddr, m1, alloc⟩).elim) (by omega)

/-- For the kernel, `malloc_pages` replaces no present entry exactly when no page that it
takes has one before the call: those of the run that the scan finds, while there are frames. -/
theorem Laid.mallocFresh_heap {pgCnt : Nat} (laid : Laid m kernelPages userPages)
    (kernel : KernelTables m.tables m.cr3) (positive : 1 ≤ pgCnt) (pgCntLe : pgCnt ≤ 65536) :
    MallocFresh m .kernel pgCnt ↔
      ∀ start, bitmapScan m.mem m.kernelVaddr.vaddrBitmap pgCnt = .ok (some start) →
        ∀ offset < pgCnt, offset < (m.freeFrames .kernel).card →
          ¬Present (m.tables (heapSlot (start + offset))) := by
  have kernelLe := laid.kernelPages_le
  have len : m.kernelVaddr.vaddrBitmap.bitmapLen = kernelPages / 8 := by rw [laid.vaddr]
  have loop := fun start (inside : start < kernelPages) =>
    (laid.of_mem (m.mem.setBits (fun idx => 8 * m.kernelVaddr.vaddrBitmap.bitmapBits +
      (start + idx) % 2 ^ 32) true pgCnt)).mapFresh_heap kernel
      (show start + pgCnt ≤ 260864 by omega)
  constructor
  · intro fresh start scan
    obtain ⟨inside, virtual⟩ := laid.getVirtualPages_heap positive pgCntLe scan
    have entries := (loop start inside).mp (fresh _ _ virtual (by omega))
    rwa [laid.freeFrames_marked] at entries
  · intro entries vaddr m1 virtual _
    obtain ⟨start, scan, -⟩ :=
      getVirtualPages_kernel_ok positive (by omega) (by rw [len]; omega) virtual
    obtain ⟨inside, equal⟩ := laid.getVirtualPages_heap positive pgCntLe scan
    obtain ⟨rfl, rfl⟩ := Prod.mk.inj (Except.ok.inj (equal.symm.trans virtual))
    refine (loop start inside).mpr ?_
    rw [laid.freeFrames_marked]
    exact entries start scan

/-- A page that `malloc_pages` entered is translated into its frame. -/
theorem KernelTables.walk_withPage (kernel : KernelTables m.tables m.cr3)
    (laid : Laid m kernelPages userPages) (inside : page < 260864) {index : Nat}
    (frameInside : index < m.frameCount .kernel) :
    walk (m.withPage index page).tables m.cr3 (0xc0100000 + 4096 * page) =
      some (m.frameAddr .kernel index) := by
  obtain ⟨-, aligned, -, -, -, fits⟩ := laid.frameAddr_spec frameInside
  have entry : (m.withPage index page).tables (heapSlot page) = m.frameAddr .kernel index + 7 :=
    Words.write_self _ _ _
  exact (kernel.withPage inside index).walk_page inside (show 0 < 4096 by decide) aligned fits entry

/-- Giving the page back takes its translation away. -/
theorem Laid.freePages_unmaps (laid : Laid m kernelPages userPages)
    (kernel : KernelTables m.tables m.cr3) (inside : page < 260864) {index : Nat}
    (frameInside : index < m.frameCount .kernel) :
    ∃ m', freePages (m.withPage index page) .kernel (0xc0100000 + 4096 * page) 1 = .ok m' ∧
      m'.cr3 = m.cr3 ∧ walk m'.tables m.cr3 (0xc0100000 + 4096 * page) = none := by
  obtain ⟨-, aligned, lower, -, above, fits⟩ := laid.frameAddr_spec frameInside
  have below := laid.frameAddr_kernel_lt frameInside
  have mapped := kernel.withPage inside index
  have slotEq := (walk_pteAddr mapped.self (by omega)).trans (mapped.pteSlot_heap inside)
  have translated : addrV2p (m.withPage index page) (0xc0100000 + 4096 * page) =
      .ok (m.frameAddr .kernel index) :=
    addrV2p_of_walk mapped.self (by omega) (kernel.walk_withPage laid inside frameInside)
  have freed : freePhysicalPages (m.withPage index page) (m.frameAddr .kernel index) =
      .ok ((m.withPage index page).setFrame .kernel index false) :=
    (laid.withPage index page).freePhysicalPages_eq frameInside
  let taken : Machine := (m.withPage index page).setFrame .kernel index false
  let unmapped : Machine :=
    { taken with tables := taken.tables.write (heapSlot page) (taken.tables (heapSlot page) &&&
      0xfffffffe) }
  have removed : removePageTable taken (0xc0100000 + 4096 * page) = .ok unmapped :=
    removePageTable_of_walk slotEq
  have run : freeRun (m.withPage index page) .kernel (0xc0100000 + 4096 * page) 1 =
      .ok unmapped := by
    rw [freeRun, bind_ok translated]
    dsimp only
    rw [bind_ok (assert_of ⟨aligned, lower, below⟩ _), bind_ok freed, bind_ok removed]
    rfl
  obtain ⟨mem, bits⟩ := removeVirtualPages_mem unmapped .kernel (0xc0100000 + 4096 * page) 1
  refine ⟨{ unmapped with mem := mem }, ?_, rfl, ?_⟩
  · have pool : (if m.frameAddr .kernel index ≥ ((m.withPage index page).pool .user).paddrStart
        then PoolFlags.user else .kernel) = .kernel := if_neg (Nat.not_le.mpr below)
    rw [freePages, bind_ok (assert_of ⟨Nat.le_refl 1, by rw [pageSize]; omega⟩ _),
      bind_ok translated, bind_ok (assert_of ⟨aligned, by omega⟩ _), pool, bind_ok run, bits]
  · obtain ⟨tableLower, tableUpper⟩ := KernelTables.heapSlot_bounds inside
    have stillKernel := mapped.write (taken.tables (heapSlot page) &&& 0xfffffffe) tableLower
      tableUpper
    have entry : unmapped.tables (heapSlot page) = taken.tables (heapSlot page) &&& 0xfffffffe :=
      Words.write_self _ _ _
    have absent := cleared_absent (taken.tables (heapSlot page))
    rw [← entry] at absent
    exact stillKernel.walk_absent inside (show 0 < 4096 by decide) absent

/-- The number of a page of the kernel heap. -/
theorem heapPage_number (page : Nat) : 0xc0100000 + 4096 * page = 4096 * (0xc0100 + page) := by
  omega

/-- A page is obtained and used, so that the TLB has its translation. -/
theorem Laid.reachable_cached (laid : Laid m kernelPages userPages)
    (kernel : KernelTables m.tables m.cr3) (allowed : Machine → Call → Prop)
    (allows : allowed m (.mallocPages .kernel 1)) {vaddr : Nat} {m1 : Machine}
    (run : mallocPages m .kernel 1 = .ok (vaddr, m1)) :
    ∃ start index mem, start < 260864 ∧ index < m.frameCount .kernel ∧
      vaddr = 0xc0100000 + 4096 * start ∧
      m1 = ({ m with mem := mem } : Machine).withPage index start ∧
      (mmuSystem allowed).Reachable
        ⟨m1, Tlb.empty.load (0xc0100 + start) (m.frameAddr .kernel index)⟩ := by
  obtain ⟨start, index, mem, inside, frameInside, rfl, rfl, -⟩ :=
    laid.mallocPages_withPage kernel run
  refine ⟨start, index, mem, inside, frameInside, rfl, rfl, ?_⟩
  let marked : Machine := { m with mem := mem }
  have mapped : walk (marked.withPage index start).tables m.cr3 (4096 * (0xc0100 + start)) =
      some (m.frameAddr .kernel index) := by
    rw [← heapPage_number]
    exact @KernelTables.walk_withPage marked _ _ start kernel (laid.of_mem mem) inside index
      frameInside
  have initial : (mmuSystem allowed).Reachable ⟨m, Tlb.empty⟩ := .init rfl
  have allocated : (mmuSystem allowed).Reachable ⟨marked.withPage index start, Tlb.empty⟩ := by
    refine initial.step (.call (.mallocPages .kernel 1) allows ?_ ?_)
    · rw [Call.run, run]
      rfl
    · exact .unchanged nofun
  exact allocated.step (.load rfl ⟨by omega, mapped⟩)

/-- When the page is given back, its translation stays in the TLB: the operand of
`invlpg` lies elsewhere. -/
theorem Laid.stale_after_free (laid : Laid m kernelPages userPages)
    (kernel : KernelTables m.tables m.cr3) (stack : m.running < 0xc0100000) {vaddr : Nat}
    {m1 : Machine} (run : mallocPages m .kernel 1 = .ok (vaddr, m1)) :
    ∃ state, (mmuSystem fun _ _ => True).Reachable state ∧ ¬state.Coherent := by
  obtain ⟨start, index, mem, inside, frameInside, rfl, rfl, cached⟩ :=
    laid.reachable_cached kernel (fun _ _ => True) trivial run
  obtain ⟨m2, freed, cr3, unmapped⟩ := @Laid.freePages_unmaps { m with mem := mem } _ _ start
    (laid.of_mem mem) kernel inside index frameInside
  refine ⟨⟨m2, Tlb.empty.load (0xc0100 + start) (m.frameAddr .kernel index)⟩, ?_, ?_⟩
  · refine cached.step (.call (.freePages .kernel (0xc0100000 + 4096 * start) 1) trivial freed ?_)
    refine .unchanged fun query frame loaded dropped => ?_
    have operand : query = m.running / 4096 := dropped
    have loadedPage : query = 0xc0100 + start := by
      by_contra other
      rw [Tlb.load, if_neg other] at loaded
      cases loaded
    omega
  · intro coherent
    have stale := coherent (0xc0100 + start) (m.frameAddr .kernel index) (if_pos rfl)
    have gone : walk m2.tables m2.cr3 (4096 * (0xc0100 + start)) = none := by
      rw [cr3, ← heapPage_number]
      exact unmapped
    rw [gone] at stale
    cases stale

end KernelHeap

/-- After `mem_init` with 32 MB, a page of the kernel heap can be had. -/
theorem mallocPages_booted :
    ∃ m vaddr m1, Laid m 3840 3840 ∧ KernelTables m.tables m.cr3 ∧
      m.tables = setupPage (fun _ => 0) ∧ m.running < 0xc0100000 ∧
      mallocPages m .kernel 1 = .ok (vaddr, m1) := by
  obtain ⟨m, -, initial, tables, -, -, -⟩ := memInit_booted
  have laid := initial.heap.laid
  have available := (initial.pagesAvailable (by decide)).resolve_left (by decide)
  obtain ⟨vaddr, m1, run⟩ := (laid.mallocPages_heap tables (by decide) (by decide)).mpr available
  refine ⟨m, vaddr, m1, laid, tables, initial.tables, ?_, run⟩
  rw [initial.running]
  decide

/-- The first page of the kernel heap is obtained and used. -/
theorem tlbCoherence_booted :
    ∃ state : Mmu, (∃ page frame, state.tlb page = some frame) ∧ state.Coherent := by
  obtain ⟨m, vaddr, m1, laid, kernel, tables, -, run⟩ := mallocPages_booted
  have fresh : Call.Fresh m (.mallocPages .kernel 1) := by
    refine (laid.mallocFresh_heap kernel (Nat.le_refl 1) (by decide)).mpr
      fun start _ offset _ _ => ?_
    rw [tables, setupPage_outside _ (.inr (by rw [heapSlot]; omega))]
    decide
  obtain ⟨start, index, -, -, -, -, -, cached⟩ := laid.reachable_cached kernel _ fresh run
  exact ⟨_, ⟨_, _, if_pos rfl⟩, tlbCoherence _ cached⟩

/-- The first page of the kernel heap is obtained, used and given back. -/
theorem not_tlbCoherence : ¬TlbCoherence fun _ _ => True := by
  obtain ⟨m, vaddr, m1, laid, kernel, -, stack, run⟩ := mallocPages_booted
  obtain ⟨state, reachable, stale⟩ := laid.stale_after_free kernel stack run
  exact fun coherence => stale (coherence state reachable)

end Pumelo
