import Pumelo.Foundation.PageWalk

/-!
# Frames and what they are in use for

Several directories have some pages in common and tables of their own for the rest.  A
frame that is in use has one role: it holds a shared page, a table of one directory, or a
page of one directory.  Directories lie in shared pages.  Each store into an entry then
changes what one role names, and a store into a frame that is neither a directory nor a
table changes nothing.
-/

namespace Foundation

namespace PageWalk

/-- The entry is present and names the frame. -/
def Names (entry frame : Nat) : Prop := Present entry ∧ frameOf entry = frame

/-- What a frame is in use for. -/
inductive Role where
  | shared (page : Nat)
  | table (dir index : Nat)
  | page (dir number : Nat)
  deriving DecidableEq

/-- Where the shared pages have their entries, and how many entries of a directory are for tables of
its own. -/
structure Sharing where
  pages : Nat
  slot : Nat → Nat
  own : Nat
  slot_inj : ∀ page < pages, ∀ other < pages, slot page = slot other → page = other
  own_le : own ≤ 1024

/-- A frame that holds no entries of shared pages. -/
structure Sharing.Apart (sharing : Sharing) (frame : Nat) : Prop where
  aligned : frame % 2 ^ 12 = 0
  slots : ∀ page < sharing.pages, sharing.slot page < frame ∨ frame + 4096 ≤ sharing.slot page

/-- The directories have this frame in this role. -/
def HasRole (sharing : Sharing) (dirs : Nat → Prop) (ram : Words) : Role → Nat → Prop
  | .shared page, frame => page < sharing.pages ∧ Names (ram (sharing.slot page)) frame
  | .table dir index, frame => dirs dir ∧ index < sharing.own ∧ Names (ram (dir + 4 * index)) frame
  | .page dir number, frame => dirs dir ∧ number / 1024 < sharing.own ∧ ∃ table,
      Names (ram (dir + 4 * (number / 1024))) table ∧
        Names (ram (table + 4 * (number % 1024))) frame

/-- The frame is a directory, or a table of one. -/
def Structural (sharing : Sharing) (dirs : Nat → Prop) (ram : Words) (frame : Nat) : Prop :=
  dirs frame ∨ ∃ dir index, HasRole sharing dirs ram (.table dir index) frame

/-- The frame is the directory, a table of its own or a page of its own. -/
def PrivateTo (sharing : Sharing) (ram : Words) (dir frame : Nat) : Prop :=
  frame = dir ∨ (∃ index, HasRole sharing (fun other => other = dir) ram (.table dir index) frame) ∨
    ∃ number, HasRole sharing (fun other => other = dir) ram (.page dir number) frame

/-- Nothing was stored in these frames of a directory. -/
def SamePrivate (sharing : Sharing) (ram ram' : Words) (dir : Nat) : Prop :=
  ∀ frame, PrivateTo sharing ram dir frame → ∀ query, frame ≤ query → query < frame + 4096 →
    ram' query = ram query

/-- Every frame has one role at most, and those that have one are in use. -/
structure Owned (sharing : Sharing) (dirs : Nat → Prop) (ram : Words) (inUse : Nat → Prop) :
    Prop where
  unique : ∀ role other frame, HasRole sharing dirs ram role frame →
    HasRole sharing dirs ram other frame →
    role = other
  used : ∀ role frame, HasRole sharing dirs ram role frame → inUse frame
  directory : ∀ dir, dirs dir → ∃ page, HasRole sharing dirs ram (.shared page) dir
  apart : ∀ frame, inUse frame → sharing.Apart frame

section

variable {sharing : Sharing} {dirs : Nat → Prop} {ram ram' : Words} {inUse inUse' : Nat → Prop}

theorem Names.unique {entry frame other : Nat} (names : Names entry frame)
    (names' : Names entry other) :
    frame = other :=
  names.2.symm.trans names'.2

theorem names_add {frame flags : Nat} (aligned : frame % 2 ^ 12 = 0) (fits : frame < 2 ^ 32)
    (flagsLt : flags < 2 ^ 12) (present : Present flags) : Names (frame + flags) frame := by
  refine ⟨?_, frameOf_add aligned fits flagsLt⟩
  unfold Present at present ⊢
  omega

/-- A store elsewhere than in entries of shared pages, directories and tables leaves every role. -/
theorem holds_congr
    (slots : ∀ page < sharing.pages, ram' (sharing.slot page) = ram (sharing.slot page))
    (entries : ∀ frame, Structural sharing dirs ram frame → ∀ index < 1024,
      ram' (frame + 4 * index) = ram (frame + 4 * index)) (role : Role) (frame : Nat) :
    HasRole sharing dirs ram' role frame ↔ HasRole sharing dirs ram role frame := by
  have own := sharing.own_le
  cases role with
  | shared page =>
      refine and_congr_right fun inside => ?_
      rw [slots page inside]
  | table dir index =>
      refine and_congr_right fun isDir => and_congr_right fun inside => ?_
      rw [entries dir (.inl isDir) index (by omega)]
  | page dir number =>
      refine and_congr_right fun isDir => and_congr_right fun inside => exists_congr fun table => ?_
      rw [entries dir (.inl isDir) _ (by omega)]
      refine and_congr_right fun named => ?_
      rw [entries table (.inr ⟨dir, number / 1024, isDir, inside, named⟩) _
        (Nat.mod_lt _ (by decide))]

namespace Owned

theorem dir_apart (owned : Owned sharing dirs ram inUse) {dir : Nat} (isDir : dirs dir) :
    sharing.Apart dir := by
  obtain ⟨page, held⟩ := owned.directory dir isDir
  exact owned.apart dir (owned.used _ _ held)

theorem structural_apart (owned : Owned sharing dirs ram inUse) {frame : Nat}
    (structural : Structural sharing dirs ram frame) : sharing.Apart frame := by
  rcases structural with isDir | ⟨dir, index, held⟩
  · exact owned.dir_apart isDir
  · exact owned.apart frame (owned.used _ _ held)

theorem table_ne_dir (owned : Owned sharing dirs ram inUse) {dir index table other : Nat}
    (held : HasRole sharing dirs ram (.table dir index) table) (isDir : dirs other) :
    table ≠ other := by
  rintro rfl
  obtain ⟨page, shared⟩ := owned.directory table isDir
  cases owned.unique _ _ _ held shared

/-- A frame without a role is neither a directory nor a table. -/
theorem not_structural_of_fresh (owned : Owned sharing dirs ram inUse) {frame : Nat}
    (fresh : ∀ role, ¬HasRole sharing dirs ram role frame) :
    ¬Structural sharing dirs ram frame := by
  rintro (isDir | ⟨dir, index, held⟩)
  · obtain ⟨page, held⟩ := owned.directory frame isDir
    exact fresh _ held
  · exact fresh _ held

theorem not_structural_page (owned : Owned sharing dirs ram inUse) {dir number frame : Nat}
    (held : HasRole sharing dirs ram (.page dir number) frame) :
    ¬Structural sharing dirs ram frame := by
  rintro (isDir | ⟨other, index, table⟩)
  · obtain ⟨page, shared⟩ := owned.directory frame isDir
    cases owned.unique _ _ _ held shared
  · cases owned.unique _ _ _ held table

theorem not_structural_shared (owned : Owned sharing dirs ram inUse) {page frame : Nat}
    (held : HasRole sharing dirs ram (.shared page) frame) (notDir : ¬dirs frame) :
    ¬Structural sharing dirs ram frame := by
  rintro (isDir | ⟨dir, index, table⟩)
  · exact notDir isDir
  · cases owned.unique _ _ _ held table

/-- So does a store into a frame that is neither a directory nor a table. -/
theorem holds_data (owned : Owned sharing dirs ram inUse) {data : Nat} (apart : sharing.Apart data)
    (notStructural : ¬Structural sharing dirs ram data)
    (same : ∀ query, (query < data ∨ data + 4096 ≤ query) → ram' query = ram query) (role : Role)
    (frame : Nat) : HasRole sharing dirs ram' role frame ↔ HasRole sharing dirs ram role frame := by
  refine holds_congr (fun page inside => ?_) (fun structure' structural index indexLt => ?_)
    role frame
  · have outside := apart.slots page inside
    exact same _ (by omega)
  · have aligned := (owned.structural_apart structural).aligned
    have aligned' := apart.aligned
    have different : structure' ≠ data := by
      rintro rfl
      exact notStructural structural
    exact same _ (by omega)

/-- The entry of a shared page. -/
theorem holds_write_slot (owned : Owned sharing dirs ram inUse) {page : Nat}
    (inside : page < sharing.pages)
    (entry : Nat) (role : Role) (frame : Nat) :
    HasRole sharing dirs (ram.write (sharing.slot page) entry) role frame ↔
      if role = .shared page then Names entry frame else HasRole sharing dirs ram role frame := by
  have entries : ∀ structure', Structural sharing dirs ram structure' → ∀ index < 1024,
      (ram.write (sharing.slot page) entry) (structure' + 4 * index) =
        ram (structure' + 4 * index) := by
    intro structure' structural index indexLt
    have outside := (owned.structural_apart structural).slots page inside
    exact Words.write_of_ne _ _ (by omega)
  by_cases same : role = .shared page
  · rw [if_pos same, same]
    simp only [HasRole, Words.write_self, inside, true_and]
  · rw [if_neg same]
    have own := sharing.own_le
    cases role with
    | shared other =>
        refine and_congr_right fun otherInside => ?_
        rw [Words.write_of_ne]
        intro equal
        exact same (congrArg Role.shared (sharing.slot_inj other otherInside page inside equal))
    | table dir index =>
        refine and_congr_right fun isDir => and_congr_right fun indexLt => ?_
        rw [entries dir (.inl isDir) index (by omega)]
    | page dir number =>
        refine and_congr_right fun isDir => and_congr_right fun indexLt =>
          exists_congr fun table => ?_
        rw [entries dir (.inl isDir) _ (by omega)]
        refine and_congr_right fun named => ?_
        rw [entries table (.inr ⟨dir, number / 1024, isDir, indexLt, named⟩) _
          (Nat.mod_lt _ (by decide))]

/-- The entry of a directory's own page. -/
theorem holds_write_page (owned : Owned sharing dirs ram inUse) {dir index table place : Nat}
    (held : HasRole sharing dirs ram (.table dir index) table) (placeLt : place < 1024)
    (entry : Nat)
    (role : Role) (frame : Nat) :
    HasRole sharing dirs (ram.write (table + 4 * place) entry) role frame ↔
      if role = .page dir (1024 * index + place) then Names entry frame
      else HasRole sharing dirs ram role frame := by
  have own := sharing.own_le
  have tableApart := owned.apart table (owned.used _ _ held)
  have aligned := tableApart.aligned
  have dirWord : ∀ other, dirs other → ∀ index' < 1024,
      (ram.write (table + 4 * place) entry) (other + 4 * index') = ram (other + 4 * index') := by
    intro other isDir index' indexLt
    have different := owned.table_ne_dir held isDir
    have aligned' := (owned.dir_apart isDir).aligned
    exact Words.write_of_ne _ _ (by omega)
  cases role with
  | shared page =>
      rw [if_neg (by simp)]
      refine and_congr_right fun inside => ?_
      have outside := tableApart.slots page inside
      rw [Words.write_of_ne _ _ (by omega)]
  | table other index' =>
      rw [if_neg (by simp)]
      refine and_congr_right fun isDir => and_congr_right fun inside => ?_
      rw [dirWord other isDir index' (by omega)]
  | page other number =>
      have numberLt := Nat.mod_lt number (by decide : 0 < 1024)
      by_cases same : Role.page other number = .page dir (1024 * index + place)
      · obtain ⟨rfl, rfl⟩ : other = dir ∧ number = 1024 * index + place := by simpa using same
        have quotient : (1024 * index + place) / 1024 = index := by omega
        have remainder : (1024 * index + place) % 1024 = place := by omega
        rw [if_pos rfl, HasRole, quotient, remainder,
          dirWord other held.1 index (by have := held.2.1; omega)]
        constructor
        · rintro ⟨-, -, table', named, names⟩
          rw [named.unique held.2.2, Words.write_self] at names
          exact names
        · intro names
          refine ⟨held.1, held.2.1, table, held.2.2, ?_⟩
          rwa [Words.write_self]
      · rw [if_neg same]
        refine and_congr_right fun isDir => and_congr_right fun inside =>
          exists_congr fun table' => ?_
        rw [dirWord other isDir _ (by omega)]
        refine and_congr_right fun named => ?_
        have held' : HasRole sharing dirs ram (.table other (number / 1024)) table' :=
          ⟨isDir, inside, named⟩
        have aligned' := (owned.apart table' (owned.used _ _ held')).aligned
        rw [Words.write_of_ne]
        intro equal
        obtain ⟨rfl, rfl⟩ : table' = table ∧ number % 1024 = place := by omega
        have roles := owned.unique _ _ _ held' held
        obtain ⟨rfl, rfl⟩ : other = dir ∧ number / 1024 = index := by simpa using roles
        exact same (congrArg _ (Nat.div_add_mod number 1024).symm)

/-- The entry of a directory for a new table, which is clear. -/
theorem holds_write_table (owned : Owned sharing dirs ram inUse) {dir index table entry : Nat}
    (isDir : dirs dir) (inside : index < sharing.own) (absent : ¬Present (ram (dir + 4 * index)))
    (fresh : ∀ role, ¬HasRole sharing dirs ram role table) (apart : sharing.Apart table)
    (clear : ∀ place < 1024, ¬Present (ram (table + 4 * place))) (names : Names entry table)
    (role : Role)
    (frame : Nat) :
    HasRole sharing dirs (ram.write (dir + 4 * index) entry) role frame ↔
      if role = .table dir index then frame = table else HasRole sharing dirs ram role frame := by
  have own := sharing.own_le
  have dirApart := owned.dir_apart isDir
  have aligned := dirApart.aligned
  have aligned' := apart.aligned
  have different : dir ≠ table := by
    rintro rfl
    obtain ⟨page, held⟩ := owned.directory dir isDir
    exact fresh _ held
  have dirWord : ∀ other, dirs other → ∀ index' < 1024, ¬(other = dir ∧ index' = index) →
      (ram.write (dir + 4 * index) entry) (other + 4 * index') = ram (other + 4 * index') := by
    intro other otherDir index' indexLt ne
    have aligned'' := (owned.dir_apart otherDir).aligned
    exact Words.write_of_ne _ _ (by omega)
  cases role with
  | shared page =>
      rw [if_neg (by simp)]
      refine and_congr_right fun pageInside => ?_
      have outside := dirApart.slots page pageInside
      rw [Words.write_of_ne _ _ (by omega)]
  | table other index' =>
      by_cases same : Role.table other index' = .table dir index
      · obtain ⟨rfl, rfl⟩ : other = dir ∧ index' = index := by simpa using same
        rw [if_pos rfl, HasRole, Words.write_self]
        exact ⟨fun held => held.2.2.unique names, fun equal => ⟨isDir, inside, equal ▸ names⟩⟩
      · rw [if_neg same]
        refine and_congr_right fun otherDir => and_congr_right fun indexLt => ?_
        rw [dirWord other otherDir index' (by omega)]
        rintro ⟨rfl, rfl⟩
        exact same rfl
  | page other number =>
      rw [if_neg (by simp)]
      refine and_congr_right fun otherDir => and_congr_right fun indexLt => ?_
      by_cases same : other = dir ∧ number / 1024 = index
      · obtain ⟨rfl, rfl⟩ := same
        refine iff_of_false ?_ ?_
        · rintro ⟨table', named, present, -⟩
          rw [Words.write_self] at named
          rw [← names.unique named, Words.write_of_ne _ _ (by omega)] at present
          exact clear _ (Nat.mod_lt _ (by decide)) present
        · rintro ⟨table', named, -⟩
          exact absent named.1
      · refine exists_congr fun table' => ?_
        rw [dirWord other otherDir _ (by omega) same]
        refine and_congr_right fun named => ?_
        have held : HasRole sharing dirs ram (.table other (number / 1024)) table' :=
          ⟨otherDir, indexLt, named⟩
        have tableAligned := (owned.apart table' (owned.used _ _ held)).aligned
        have notDir := owned.table_ne_dir held isDir
        rw [Words.write_of_ne _ _ (by omega)]

/-- A new directory, which has no tables of its own. -/
theorem holds_add_dir {dir : Nat} (clear : ∀ index < sharing.own, ¬Present (ram (dir + 4 * index)))
    (role : Role) (frame : Nat) :
    HasRole sharing (fun other => other = dir ∨ dirs other) ram role frame ↔
      HasRole sharing dirs ram role frame := by
  cases role with
  | shared page => rfl
  | table other index =>
      constructor
      · rintro ⟨rfl | isDir, inside, names⟩
        · exact absurd names.1 (clear index inside)
        · exact ⟨isDir, inside, names⟩
      · exact fun held => ⟨.inr held.1, held.2⟩
  | page other number =>
      constructor
      · rintro ⟨rfl | isDir, inside, table, named, names⟩
        · exact absurd named.1 (clear _ inside)
        · exact ⟨isDir, inside, table, named, names⟩
      · exact fun held => ⟨.inr held.1, held.2⟩

/-! ## One role changes -/

theorem of_holds (owned : Owned sharing dirs ram inUse)
    (same : ∀ role frame, HasRole sharing dirs ram' role frame ↔
      HasRole sharing dirs ram role frame) :
    Owned sharing dirs ram' inUse where
  unique role other frame held held' :=
    owned.unique role other frame ((same _ _).mp held) ((same _ _).mp held')
  used role frame held := owned.used role frame ((same _ _).mp held)
  directory dir isDir := by
    obtain ⟨page, held⟩ := owned.directory dir isDir
    exact ⟨page, (same _ _).mpr held⟩
  apart := owned.apart

/-- What the frames in use are depends on the frames with a role only. -/
theorem of_used (owned : Owned sharing dirs ram inUse)
    (kept : ∀ role frame, HasRole sharing dirs ram role frame → inUse' frame)
    (apart : ∀ frame, inUse' frame → sharing.Apart frame) : Owned sharing dirs ram inUse' :=
  ⟨owned.unique, kept, owned.directory, apart⟩

/-- A role gets another frame, which has no role yet, or none. -/
theorem replace (owned : Owned sharing dirs ram inUse) {changed : Role} {new : Nat → Prop}
    (holds : ∀ role frame, HasRole sharing dirs ram' role frame ↔
      if role = changed then new frame else HasRole sharing dirs ram role frame)
    (fresh : ∀ frame, new frame → ∀ role, role ≠ changed → ¬HasRole sharing dirs ram role frame)
    (notDir : ∀ dir, dirs dir → ¬HasRole sharing dirs ram changed dir)
    (kept : ∀ role frame, HasRole sharing dirs ram' role frame → inUse' frame)
    (apart : ∀ frame, inUse' frame → sharing.Apart frame) : Owned sharing dirs ram' inUse' where
  unique role other frame held held' := by
    rw [holds] at held held'
    split at held <;> split at held'
    · next same same' => rw [same, same']
    · next different => exact absurd held' (fresh frame held other different)
    · next different _ => exact absurd held (fresh frame held' role different)
    · exact owned.unique role other frame held held'
  used := kept
  directory dir isDir := by
    obtain ⟨page, held⟩ := owned.directory dir isDir
    refine ⟨page, (holds _ _).mpr ?_⟩
    rw [if_neg]
    · exact held
    · intro same
      exact notDir dir isDir (same ▸ held)
  apart := apart

/-- A frame that is in use without a role gets this one. -/
theorem assign (owned : Owned sharing dirs ram inUse) {changed : Role} {frame : Nat}
    (holds : ∀ role other, HasRole sharing dirs ram' role other ↔
      if role = changed then other = frame else HasRole sharing dirs ram role other)
    (fresh : ∀ role, ¬HasRole sharing dirs ram role frame) (isUsed : inUse frame)
    (notDir : ∀ dir, dirs dir → ¬HasRole sharing dirs ram changed dir) :
    Owned sharing dirs ram' inUse := by
  refine owned.replace holds (fun other equal role _ => equal ▸ fresh role) notDir
    (fun role other held => ?_)
    owned.apart
  rw [holds] at held
  split at held
  · exact held ▸ isUsed
  · exact owned.used role other held

/-- A shared page without entries for own tables becomes a directory. -/
theorem addDir (owned : Owned sharing dirs ram inUse) {dir page : Nat}
    (held : HasRole sharing dirs ram (.shared page) dir)
    (clear : ∀ index < sharing.own, ¬Present (ram (dir + 4 * index))) :
    Owned sharing (fun other => other = dir ∨ dirs other) ram inUse where
  unique role other frame held held' :=
    owned.unique role other frame ((holds_add_dir clear _ _).mp held)
      ((holds_add_dir clear _ _).mp held')
  used role frame held := owned.used role frame ((holds_add_dir clear _ _).mp held)
  directory other isDir := by
    rcases isDir with rfl | isDir
    · exact ⟨page, held⟩
    · obtain ⟨page, held⟩ := owned.directory other isDir
      exact ⟨page, (holds_add_dir clear _ _).mpr held⟩
  apart := owned.apart

end Owned

/-- What a directory translates by a table of its own lies in a page of its own. -/
theorem holds_of_walk {dir vaddr paddr : Nat} (isDir : dirs dir) (aligned : dir % 2 ^ 12 = 0)
    (fits : dir < 2 ^ 32) (inside : dirIndex vaddr < sharing.own)
    (run : walk ram dir vaddr = some paddr) :
    HasRole sharing dirs ram (.page dir (vaddr / 2 ^ 12)) (frameOf paddr) := by
  have frame : frameOf dir = dir := by
    unfold frameOf
    omega
  have index : vaddr / 2 ^ 12 / 1024 = dirIndex vaddr := by
    unfold dirIndex
    omega
  simp only [walk, pteSlot, pdeSlot, frame] at run
  split at run
  · next present =>
      simp only [Option.bind_some] at run
      split at run
      · next present' =>
          refine ⟨isDir, index ▸ inside, _, ?_, present', ?_⟩
          · rw [index]
            exact ⟨present, rfl⟩
          · cases run
            have aligned' :=
              frameOf_mod (ram (frameOf (ram (dir + 4 * dirIndex vaddr)) + 4 * tableIndex vaddr))
            have fits' := frameOf_lt
              (ram (frameOf (ram (dir + 4 * dirIndex vaddr)) + 4 * tableIndex vaddr))
            exact (frameOf_add aligned' fits' (Nat.mod_lt _ (by decide))).symm
      · cases run
  · cases run

section

variable {ram'' : Words} {dir frame : Nat}

theorem private_of_table (isDir : dirs dir) {index : Nat} :
    HasRole sharing (fun other => other = dir) ram (.table dir index) frame ↔
      HasRole sharing dirs ram (.table dir index) frame :=
  and_congr_left' (iff_of_true rfl isDir)

theorem private_of_page (isDir : dirs dir) {number : Nat} :
    HasRole sharing (fun other => other = dir) ram (.page dir number) frame ↔
      HasRole sharing dirs ram (.page dir number) frame :=
  and_congr_left' (iff_of_true rfl isDir)

/-- The role of a private frame. -/
theorem private_role (isDir : dirs dir) (mine : PrivateTo sharing ram dir frame) : frame = dir ∨
      (∃ index, HasRole sharing dirs ram (.table dir index) frame) ∨
      ∃ number, HasRole sharing dirs ram (.page dir number) frame := by
  rcases mine with same | ⟨index, held⟩ | ⟨number, held⟩
  · exact .inl same
  · exact .inr (.inl ⟨index, (private_of_table isDir).mp held⟩)
  · exact .inr (.inr ⟨number, (private_of_page isDir).mp held⟩)

namespace Owned

theorem private_used (owned : Owned sharing dirs ram inUse) (isDir : dirs dir)
    (mine : PrivateTo sharing ram dir frame) : inUse frame := by
  rcases private_role isDir mine with rfl | ⟨index, held⟩ | ⟨number, held⟩
  · obtain ⟨page, held⟩ := owned.directory frame isDir
    exact owned.used _ _ held
  · exact owned.used _ _ held
  · exact owned.used _ _ held

/-- No frame is private to two directories. -/
theorem private_unique (owned : Owned sharing dirs ram inUse) {other : Nat} (isDir : dirs dir)
    (isDir' : dirs other) (mine : PrivateTo sharing ram dir frame)
    (theirs : PrivateTo sharing ram other frame) :
    dir = other := by
  rcases private_role isDir mine with rfl | ⟨index, held⟩ | ⟨number, held⟩ <;>
    rcases private_role isDir' theirs with rfl | ⟨index', held'⟩ | ⟨number', held'⟩
  · rfl
  · exact absurd rfl (owned.table_ne_dir held' isDir)
  · exact absurd (.inl isDir) (owned.not_structural_page held')
  · exact absurd rfl (owned.table_ne_dir held isDir')
  · cases owned.unique _ _ _ held held'
    rfl
  · cases owned.unique _ _ _ held held'
  · exact absurd (.inl isDir') (owned.not_structural_page held)
  · cases owned.unique _ _ _ held held'
  · cases owned.unique _ _ _ held held'
    rfl

/-- A store elsewhere does not disturb a directory. -/
theorem undisturbed (owned : Owned sharing dirs ram inUse) (isDir : dirs dir)
    (aligned : frame % 2 ^ 12 = 0)
    (apart : ¬PrivateTo sharing ram dir frame)
    (same : ∀ query, (query < frame ∨ frame + 4096 ≤ query) → ram' query = ram query) :
    SamePrivate sharing ram ram' dir := by
  intro own mine query lower upper
  have aligned' := (owned.apart own (owned.private_used isDir mine)).aligned
  have different : own ≠ frame := by
    rintro rfl
    exact apart mine
  exact same query (by omega)

end Owned

namespace SamePrivate

theorem refl (sharing : Sharing) (ram : Words) (dir : Nat) : SamePrivate sharing ram ram dir :=
  fun _ _ _ _ _ => rfl

/-- A directory that is not disturbed has the frames that it had. -/
theorem holds (same : SamePrivate sharing ram ram' dir) {role : Role} :
    (∃ index, role = .table dir index) ∨ (∃ number, role = .page dir number) →
      (HasRole sharing (fun other => other = dir) ram' role frame ↔
        HasRole sharing (fun other => other = dir) ram role frame) := by
  have own := sharing.own_le
  have entry : ∀ index < sharing.own, ram' (dir + 4 * index) = ram (dir + 4 * index) :=
    fun index inside => same dir (.inl rfl) _ (by omega) (by omega)
  rintro (⟨index, rfl⟩ | ⟨number, rfl⟩)
  · refine and_congr_right fun _ => and_congr_right fun inside => ?_
    rw [entry index inside]
  · refine and_congr_right fun isDir => and_congr_right fun inside => exists_congr fun table => ?_
    rw [entry _ inside]
    refine and_congr_right fun named => ?_
    have lt := Nat.mod_lt number (by decide : 0 < 1024)
    rw [same table (.inr (.inl ⟨number / 1024, rfl, inside, named⟩)) _ (by omega) (by omega)]

end SamePrivate

end

theorem walk_of_holds {dir vaddr frame : Nat} (aligned : dir % 2 ^ 12 = 0) (fits : dir < 2 ^ 32)
    (held : HasRole sharing dirs ram (.page dir (vaddr / 2 ^ 12)) frame) :
    walk ram dir vaddr = some (frame + pageOffset vaddr) := by
  have dirFrame : frameOf dir = dir := by
    unfold frameOf
    omega
  have index : vaddr / 2 ^ 12 / 1024 = dirIndex vaddr := by
    unfold dirIndex
    omega
  obtain ⟨-, -, table, ⟨present, named⟩, present', named'⟩ := held
  rw [index] at present named
  have number : vaddr / 2 ^ 12 % 1024 = tableIndex vaddr := rfl
  rw [number] at present' named'
  have slot : pteSlot ram dir vaddr = some (table + 4 * tableIndex vaddr) := by
    rw [pteSlot, pdeSlot, dirFrame, if_pos present, named]
  rw [walk, slot, Option.bind_some, if_pos present', named']

/-- Directories translate different own pages into different frames. -/
theorem Owned.isolated (owned : Owned sharing dirs ram inUse)
    {dir other vaddr vaddr' paddr paddr' : Nat}
    (isDir : dirs dir) (isDir' : dirs other) (fits : dir < 2 ^ 32) (fits' : other < 2 ^ 32)
    (inside : dirIndex vaddr < sharing.own) (inside' : dirIndex vaddr' < sharing.own)
    (run : walk ram dir vaddr = some paddr) (run' : walk ram other vaddr' = some paddr')
    (same : frameOf paddr = frameOf paddr') : dir = other ∧ vaddr / 2 ^ 12 = vaddr' / 2 ^ 12 := by
  have held : HasRole sharing dirs ram (.page dir (vaddr / 2 ^ 12)) (frameOf paddr) :=
    holds_of_walk isDir (owned.dir_apart isDir).aligned fits inside run
  have held' : HasRole sharing dirs ram (.page other (vaddr' / 2 ^ 12)) (frameOf paddr') :=
    holds_of_walk isDir' (owned.dir_apart isDir').aligned fits' inside' run'
  rw [← same] at held'
  have roles := owned.unique _ _ _ held held'
  injection roles with sameDir samePage
  exact ⟨sameDir, samePage⟩

end

end PageWalk

end Foundation
