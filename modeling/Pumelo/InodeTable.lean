import Pumelo.Format
import Pumelo.List

/-!
# The inode table

`inode_locate`, `inode_sync` and `inode_open` of `inode.c`.  Records of 76 bytes follow
each other over the sectors of the table.  The writer keeps the number of an inode in a
byte, and from a buffer of two sectors it writes what starts two bytes in, with a count
that is missing from the call; the reader does neither, but its search among the open
inodes comes no further than the first.

So an inode comes back if its number is below 256, its record lies in one sector and no
other inode is open.
-/

namespace Pumelo

open Foundation

/-- `struct inode_position` -/
structure InodePosition where
  twoSec : Bool
  secLba : UInt32
  offSize : UInt32
  deriving DecidableEq, Repr

/-- `inode_locate` -/
def inodeLocate (sb : SuperBlock) (inodeNo : UInt32) : Except Fault InodePosition := do
  assert (inodeNo < 4096) "inode_no < 4096"
  let inodeSize := sizeofInode
  let offSize := inodeNo * inodeSize
  let offSec := offSize / 512
  let offSizeInSec := offSize % 512
  let leftInSec := 512 - offSizeInSec
  return {
    twoSec := leftInSec < inodeSize
    secLba := sb.inodeTableLba + offSec
    offSize := offSizeInSec }

/-- An inode in memory without its open count, its flag and its list entry. -/
def pureInode (inode : Bytes) : Bytes :=
  (((inode.write32 8 0).write32 12 0).write32 72 0).write32 68 0

/-- `inode_sync`; `secCnt` is what `ide_write` finds for the argument that the call for two
sectors leaves out. -/
def inodeSync (disk : Bytes) (part : Partition) (sb : SuperBlock) (inode ioBuf : Bytes)
    (secCnt : Nat) : Except Fault Bytes := do
  -- the number goes through a byte
  let inodeNo := UInt32.ofNat (inode.read32 0 % 2 ^ 8)
  let pos ← inodeLocate sb inodeNo
  assert (pos.secLba ≤ part.startLba + part.secCnt) "sec_lba <= start_lba + sec_cnt"
  if pos.twoSec then
    let inodeBuf ← ideRead disk pos.secLba.toNat ioBuf 2
    let inodeBuf := inodeBuf.copy pos.offSize.toNat (pureInode inode) 0 76
    ideWrite disk pos.secLba.toNat (fun query => inodeBuf (2 + query)) secCnt
  else
    let inodeBuf ← ideRead disk pos.secLba.toNat ioBuf 1
    let inodeBuf := inodeBuf.copy pos.offSize.toNat (pureInode inode) 0 76
    ideWrite disk pos.secLba.toNat inodeBuf 1

/-- The loop of `inode_open` over the open inodes. -/
def findOpen (mem : Bytes) (openInodes elem : Nat) (inodeNo : UInt32) :
    (fuel : Nat) → Except Fault (Option Nat)
  | 0 => .error .diverge
  | fuel + 1 =>
      if elem = tailer openInodes then .ok none
      else if mem.read32 (elem - 68) = inodeNo.toNat then .ok (some (elem - 68))
      -- `elem` is never advanced
      else findOpen mem openInodes elem inodeNo fuel

/-- What `inode_open` reads for an inode that is not in memory, with its buffer. -/
def inodeLoad (disk : Bytes) (sb : SuperBlock) (inodeNo : UInt32) (inodeBuf : Bytes) :
    Except Fault Bytes := do
  let pos ← inodeLocate sb inodeNo
  let inodeBuf ← ideRead disk pos.secLba.toNat inodeBuf (if pos.twoSec then 2 else 1)
  return fun query => inodeBuf (pos.offSize.toNat + query)

/-- `inode_open`, where `sys_malloc` returns `inodeNew` for the inode. -/
def inodeOpen (m : Machine) (disk : Bytes) (sb : SuperBlock) (openInodes : Nat) (inodeNo : UInt32)
    (inodeNew : Nat) (inodeBuf : Bytes) (fuel : Nat) : Except Fault (Nat × Machine) := do
  match ← findOpen m.mem openInodes (nextOf m.mem openInodes) inodeNo fuel with
  | some inodeFound =>
      let openCnts := (m.mem.read32 (inodeFound + 8) + 1) % 2 ^ 32
      return (inodeFound, { m with mem := m.mem.write32 (inodeFound + 8) openCnts })
  | none =>
      let record ← inodeLoad disk sb inodeNo inodeBuf
      let m := listPush { m with mem := m.mem.copy inodeNew record 0 76 } openInodes (inodeNew + 68)
      return (inodeNew, { m with mem := m.mem.write32 (inodeNew + 8) 1 })

/-- Where the record of an inode starts on the disk. -/
def recordAt (sb : SuperBlock) (inodeNo : Nat) : Nat :=
  512 * sb.inodeTableLba.toNat + 76 * inodeNo

/-- The record lies in one sector. -/
def OneSector (inodeNo : Nat) : Prop := 76 * inodeNo % 512 + 76 ≤ 512

instance (inodeNo : Nat) : Decidable (OneSector inodeNo) := inferInstanceAs (Decidable (_ ≤ _))

/-- The table lies on the disk, and inside the partition as far as the code compares. -/
structure TableLaid (part : Partition) (sb : SuperBlock) : Prop where
  onDisk : sb.inodeTableLba.toNat + 608 ≤ maxLba + 1
  inPart : sb.inodeTableLba.toNat + 607 ≤ (part.startLba + part.secCnt).toNat

section

variable {part : Partition} {sb : SuperBlock} {disk disk' inode ioBuf : Bytes} {secCnt : Nat}
  {inodeNo : UInt32} {m : Machine} {openInodes inodeNew : Nat}

/-- A position is that of the record. -/
theorem inodeLocate_of_lt (laid : TableLaid part sb) (small : inodeNo.toNat < 4096) :
    ∃ pos, inodeLocate sb inodeNo = .ok pos ∧
      (pos.twoSec = true ↔ ¬OneSector inodeNo.toNat) ∧
      pos.offSize.toNat = 76 * inodeNo.toNat % 512 ∧
      pos.secLba.toNat ≤ sb.inodeTableLba.toNat + 607 ∧
      512 * pos.secLba.toNat + pos.offSize.toNat = recordAt sb inodeNo.toNat := by
  have onDisk := laid.onDisk
  simp only [maxLba] at onDisk
  have literals : (512 : UInt32).toNat = 512 ∧ sizeofInode.toNat = 76 ∧
      (4096 : UInt32).toNat = 4096 := ⟨rfl, rfl, rfl⟩
  have offSize : (inodeNo * sizeofInode).toNat = 76 * inodeNo.toNat := by
    rw [UInt32.toNat_mul, literals.2.1, Nat.mod_eq_of_lt (by omega), Nat.mul_comm]
  have inSec : (inodeNo * sizeofInode % 512).toNat = 76 * inodeNo.toNat % 512 := by
    rw [UInt32.toNat_mod, offSize, literals.1]
  have offSec : (inodeNo * sizeofInode / 512).toNat = 76 * inodeNo.toNat / 512 := by
    rw [UInt32.toNat_div, offSize, literals.1]
  have secLba : (sb.inodeTableLba + inodeNo * sizeofInode / 512).toNat =
      sb.inodeTableLba.toNat + 76 * inodeNo.toNat / 512 := by
    rw [UInt32.toNat_add, offSec, Nat.mod_eq_of_lt (by omega)]
  have inSecLt : 76 * inodeNo.toNat % 512 < 512 := Nat.mod_lt _ (by decide)
  have left : (512 - inodeNo * sizeofInode % 512).toNat = 512 - 76 * inodeNo.toNat % 512 := by
    rw [UInt32.toNat_sub_of_le _ _ (UInt32.le_iff_toNat_le.mpr (by rw [inSec, literals.1]; omega)),
      inSec, literals.1]
  have below : inodeNo < 4096 := UInt32.lt_iff_toNat_lt.mpr (by rw [literals.2.2]; exact small)
  refine ⟨_, bind_ok (assert_of below _), ?_, ?_, ?_, ?_⟩
  · rw [OneSector, decide_eq_true_iff, UInt32.lt_iff_toNat_lt, left, literals.2.1]
    omega
  · exact inSec
  · rw [secLba]
    omega
  · rw [secLba, inSec, recordAt]
    omega

/-- The number that the writer uses. -/
theorem toNat_byte (word : Nat) : (UInt32.ofNat (word % 2 ^ 8)).toNat = word % 256 := by
  rw [UInt32.toNat_ofNat', Nat.mod_eq_of_lt (by omega)]
  rfl

/-- A record in one sector is replaced. -/
theorem inodeSync_of_oneSector (laid : TableLaid part sb)
    (one : OneSector (inode.read32 0 % 256)) :
    inodeSync disk part sb inode ioBuf secCnt =
      .ok (disk.copy (recordAt sb (inode.read32 0 % 256)) (pureInode inode) 0 76) := by
  have onDisk := laid.onDisk
  have inPart := laid.inPart
  have small : (UInt32.ofNat (inode.read32 0 % 2 ^ 8)).toNat < 4096 := by
    rw [toNat_byte]
    omega
  obtain ⟨pos, locate, twoSec, offSize, secLba, place⟩ := inodeLocate_of_lt laid small
  rw [toNat_byte] at twoSec offSize place
  have inside : pos.secLba ≤ part.startLba + part.secCnt :=
    UInt32.le_iff_toNat_le.mpr (by omega)
  have single : ¬pos.twoSec = true := fun two => twoSec.mp two one
  rw [inodeSync]
  dsimp only
  rw [bind_ok locate, bind_ok (assert_of inside _), if_neg single,
    bind_ok (ideRead_of_le (by decide) (by omega)), ideWrite_of_le (by decide) (by omega)]
  congr 1
  funext query
  rw [OneSector, ← offSize] at one
  by_cases inSector : 512 * pos.secLba.toNat ≤ query ∧ query < 512 * pos.secLba.toNat + 512 * 1
  · rw [Bytes.copy_of_inside _ _ _ inSector.1 inSector.2, Nat.zero_add]
    by_cases inRecord : recordAt sb (inode.read32 0 % 256) ≤ query ∧
        query < recordAt sb (inode.read32 0 % 256) + 76
    · rw [Bytes.copy_of_inside _ _ _ (by omega) (by omega),
        Bytes.copy_of_inside _ _ _ inRecord.1 inRecord.2]
      congr 1
      omega
    · rw [Bytes.copy_of_outside _ _ (by omega), Bytes.copy_of_inside _ _ _ (by omega) (by omega),
        Bytes.copy_of_outside _ _ (by omega)]
      congr 1
      omega
  · rw [Bytes.copy_of_outside _ _ (by omega), Bytes.copy_of_outside _ _ (by omega)]

/-- For a record in two sectors, the buffer is written from its third byte on. -/
theorem inodeSync_of_twoSectors (laid : TableLaid part sb)
    (two : ¬OneSector (inode.read32 0 % 256))
    (run : inodeSync disk part sb inode ioBuf secCnt = .ok disk') :
    ∃ secLba offSize, 512 * secLba + offSize = recordAt sb (inode.read32 0 % 256) ∧
      disk' = disk.copy (512 * secLba) (fun query =>
        ((ioBuf.copy 0 disk (512 * secLba) (512 * 2)).copy offSize (pureInode inode) 0 76)
          (2 + query)) 0 (512 * secCnt) := by
  have small : (UInt32.ofNat (inode.read32 0 % 2 ^ 8)).toNat < 4096 := by
    rw [toNat_byte]
    omega
  obtain ⟨pos, locate, twoSec, -, -, place⟩ := inodeLocate_of_lt laid small
  rw [toNat_byte] at twoSec place
  rw [inodeSync] at run
  dsimp only at run
  rw [bind_ok locate] at run
  obtain ⟨_, -, run⟩ := bind_eq_ok.mp run
  rw [if_pos (twoSec.mpr two)] at run
  obtain ⟨inodeBuf, read, run⟩ := bind_eq_ok.mp run
  obtain ⟨-, rfl⟩ := ideRead_eq_ok read
  exact ⟨_, _, place, (ideWrite_eq_ok run).2⟩

/-- The reader finds the record. -/
theorem inodeLoad_of_lt (laid : TableLaid part sb) (small : inodeNo.toNat < 4096)
    (disk inodeBuf : Bytes) :
    ∃ record, inodeLoad disk sb inodeNo inodeBuf = .ok record ∧
      ∀ offset, offset < 76 → record offset = disk (recordAt sb inodeNo.toNat + offset) := by
  have onDisk := laid.onDisk
  obtain ⟨pos, locate, twoSec, offSize, secLba, place⟩ := inodeLocate_of_lt laid small
  rw [OneSector] at twoSec
  have whole : pos.offSize.toNat + 76 ≤ 512 * (if pos.twoSec = true then 2 else 1) ∧
      pos.secLba.toNat + (if pos.twoSec = true then 2 else 1) ≤ maxLba + 1 := by
    rw [recordAt] at place
    by_cases two : pos.twoSec = true
    · have straddles := twoSec.mp two
      rw [if_pos two]
      omega
    · have single : ¬¬76 * inodeNo.toNat % 512 + 76 ≤ 512 := fun straddles =>
        two (twoSec.mpr straddles)
      rw [if_neg two]
      omega
  rw [inodeLoad, bind_ok locate,
    bind_ok (ideRead_of_le (by split <;> decide) whole.2)]
  refine ⟨_, rfl, fun offset inside => ?_⟩
  rw [Bytes.copy_of_inside _ _ _ (Nat.zero_le _) (by omega)]
  congr 1
  omega

/-- When no inode is open, `inode_open` returns the record. -/
theorem inodeOpen_of_empty {m : Machine} {openInodes inodeNew : Nat} {inodeBuf record : Bytes}
    (listed : ListAt m.mem openInodes [])
    (apart : inodeNew + 76 ≤ openInodes ∨ openInodes + 16 ≤ inodeNew)
    (load : inodeLoad disk sb inodeNo inodeBuf = .ok record) (fuel : Nat) :
    ∃ m', inodeOpen m disk sb openInodes inodeNo inodeNew inodeBuf (fuel + 1) =
        .ok (inodeNew, m') ∧
      ∀ offset, offset + 4 ≤ 8 ∨ 16 ≤ offset ∧ offset + 4 ≤ 68 →
        m'.mem.read32 (inodeNew + offset) = record.read32 offset := by
  have none : findOpen m.mem openInodes (nextOf m.mem openInodes) inodeNo (fuel + 1) = .ok none :=
    if_pos (listed.listEmpty_iff.mpr rfl)
  have copied : ListAt (m.mem.copy inodeNew record 0 76) openInodes [] :=
    listed.nil_congr fun query lower upper => Bytes.copy_of_outside _ _ (by omega)
  rw [inodeOpen, bind_ok none]
  dsimp only
  rw [bind_ok load]
  refine ⟨_, rfl, fun offset field => ?_⟩
  rw [listPush, listInsertBefore_eq]
  dsimp only
  rw [Bytes.read32_write32_of_disjoint _ _ (by omega)]
  have byte (place : Nat) (inside : place < 68) :
      linkBefore (m.mem.copy inodeNew record 0 76)
        (nextOf (m.mem.copy inodeNew record 0 76) openInodes) (inodeNew + 68) (inodeNew + place) =
      record place := by
    rw [copied.push_of_outside, Bytes.copy_of_inside _ _ _ (Nat.le_add_right _ _) (by omega),
      Nat.zero_add, Nat.add_sub_cancel_left]
    intro node member
    simp only [List.mem_cons, mem_listNodes, List.not_mem_nil, false_or, tailer] at member
    omega
  simp only [Bytes.read32, Nat.add_assoc]
  rw [byte offset (by omega), byte (offset + 1) (by omega), byte (offset + 2) (by omega),
    byte (offset + 3) (by omega)]

/-- When the first open inode is another one, the search comes to no end. -/
theorem findOpen_diverges {mem : Bytes} {openInodes elem : Nat} (more : elem ≠ tailer openInodes)
    (other : mem.read32 (elem - 68) ≠ inodeNo.toNat) (fuel : Nat) :
    findOpen mem openInodes elem inodeNo fuel = .error .diverge := by
  induction fuel with
  | zero => rfl
  | succ fuel ih => rw [findOpen, if_neg more, if_neg other, ih]

/-! ## Results -/

/-- Whatever is on the disk and in the inode, `inode_sync` replaces the record of the number
and nothing else, and `inode_open` reads it back into memory. -/
def InodeStored (part : Partition) (sb : SuperBlock) (inodeNo : UInt32) (m : Machine)
    (openInodes inodeNew : Nat) : Prop :=
  ∀ (disk inode ioBuf inodeBuf : Bytes) (secCnt : Nat), inode.read32 0 = inodeNo.toNat →
    ∃ disk' fuel m', inodeSync disk part sb inode ioBuf secCnt = .ok disk' ∧
      (∀ offset, offset < 76 →
        disk' (recordAt sb inodeNo.toNat + offset) = pureInode inode offset) ∧
      (∀ query, query < recordAt sb inodeNo.toNat ∨ recordAt sb inodeNo.toNat + 76 ≤ query →
        disk' query = disk query) ∧
      inodeOpen m disk' sb openInodes inodeNo inodeNew inodeBuf fuel = .ok (inodeNew, m') ∧
      m'.mem.read32 inodeNew = inode.read32 0 ∧
      m'.mem.read32 (inodeNew + 4) = inode.read32 4 ∧
      ∀ index, index < 13 →
        m'.mem.read32 (inodeNew + (16 + 4 * index)) = inode.read32 (16 + 4 * index)

/-- The number, the size and the sectors are not cleared. -/
theorem read32_pureInode {offset : Nat} (field : offset + 4 ≤ 8 ∨ 16 ≤ offset ∧ offset + 4 ≤ 68) :
    (pureInode inode).read32 offset = inode.read32 offset := by
  rw [pureInode, Bytes.read32_write32_of_disjoint _ _ (by omega),
    Bytes.read32_write32_of_disjoint _ _ (by omega),
    Bytes.read32_write32_of_disjoint _ _ (by omega),
    Bytes.read32_write32_of_disjoint _ _ (by omega)]

theorem inodeStored_of_oneSector (laid : TableLaid part sb) (small : inodeNo.toNat < 256)
    (one : OneSector inodeNo.toNat) (listed : ListAt m.mem openInodes [])
    (apart : inodeNew + 76 ≤ openInodes ∨ openInodes + 16 ≤ inodeNew) :
    InodeStored part sb inodeNo m openInodes inodeNew := by
  intro disk inode ioBuf inodeBuf secCnt number
  have byte : inode.read32 0 % 256 = inodeNo.toNat := by
    rw [number, Nat.mod_eq_of_lt small]
  have sync : inodeSync disk part sb inode ioBuf secCnt = _ :=
    inodeSync_of_oneSector laid (byte ▸ one)
  rw [byte] at sync
  have below : inodeNo.toNat < 4096 := by omega
  obtain ⟨record, load, same⟩ := inodeLoad_of_lt laid below
    (disk.copy (recordAt sb inodeNo.toNat) (pureInode inode) 0 76) inodeBuf
  have stored : ∀ offset, offset < 76 →
      disk.copy (recordAt sb inodeNo.toNat) (pureInode inode) 0 76
        (recordAt sb inodeNo.toNat + offset) = pureInode inode offset := by
    intro offset inside
    rw [Bytes.copy_of_inside _ _ _ (Nat.le_add_right _ _) (by omega), Nat.zero_add,
      Nat.add_sub_cancel_left]
  obtain ⟨m', run, fields⟩ := inodeOpen_of_empty listed apart load 0
  have field : ∀ offset, offset + 4 ≤ 8 ∨ 16 ≤ offset ∧ offset + 4 ≤ 68 →
      m'.mem.read32 (inodeNew + offset) = inode.read32 offset := by
    intro offset place
    refine (fields offset place).trans (Eq.trans ?_ (read32_pureInode place))
    exact Bytes.read32_congr fun query lower upper =>
      (same query (by omega)).trans (stored query (by omega))
  exact ⟨_, _, m', sync, stored, fun query outside => Bytes.copy_of_outside _ _ outside, run,
    field 0 (by omega), field 4 (by omega), fun index inside => field _ (by omega)⟩

/-- An inode with a size of 1 and nothing else but its number. -/
def sizeOne (inodeNo : UInt32) : Bytes :=
  (Bytes.write32 (fun _ => 0) 0 inodeNo.toNat).write32 4 1

theorem sizeOne_number (inodeNo : UInt32) : (sizeOne inodeNo).read32 0 = inodeNo.toNat := by
  rw [sizeOne, Bytes.read32_write32_of_disjoint _ _ (by omega),
    Bytes.read32_write32_self _ inodeNo.toNat_lt]

/-- On a clear disk, the size is not where it should be. -/
theorem not_inodeStored (laid : TableLaid part sb)
    (fails : ¬(inodeNo.toNat < 256 ∧ OneSector inodeNo.toNat)) :
    ¬InodeStored part sb inodeNo m openInodes inodeNew := by
  intro stored
  have number : (sizeOne inodeNo).read32 0 = inodeNo.toNat := sizeOne_number inodeNo
  obtain ⟨disk', -, -, sync, record, -⟩ :=
    stored (fun _ => 0) (sizeOne inodeNo) (fun _ => 0) (fun _ => 0) 2 number
  have size := record 4 (by decide)
  have one : pureInode (sizeOne inodeNo) 4 = 1 := by
    simp [pureInode, sizeOne, Bytes.write32]
  rw [one] at size
  have zero : disk' (recordAt sb inodeNo.toNat + 4) = 0 := by
    by_cases single : OneSector ((sizeOne inodeNo).read32 0 % 256)
    · -- the record of another number is written
      rw [inodeSync_of_oneSector laid single] at sync
      cases sync
      rw [number] at single ⊢
      have large : ¬inodeNo.toNat < 256 := fun small => by
        rw [Nat.mod_eq_of_lt small] at single
        exact fails ⟨small, single⟩
      apply Bytes.copy_of_outside
      rw [recordAt, recordAt]
      omega
    · obtain ⟨secLba, offSize, place, rfl⟩ := inodeSync_of_twoSectors laid single sync
      rw [number, recordAt] at place
      rw [recordAt]
      by_cases inside : 512 * secLba ≤ 512 * sb.inodeTableLba.toNat + 76 * inodeNo.toNat + 4 ∧
          512 * sb.inodeTableLba.toNat + 76 * inodeNo.toNat + 4 < 512 * secLba + 512 * 2
      · rw [Bytes.copy_of_inside _ _ _ inside.1 inside.2]
        by_cases small : inodeNo.toNat < 256
        · -- two bytes further on the size has a zero
          rw [Nat.mod_eq_of_lt small] at place
          rw [Bytes.copy_of_inside _ _ _ (by omega) (by omega)]
          have third : 0 + (2 + (0 + (512 * sb.inodeTableLba.toNat + 76 * inodeNo.toNat + 4 -
              512 * secLba)) - offSize) = 6 := by omega
          rw [third]
          simp [pureInode, sizeOne, Bytes.write32]
        · rw [Bytes.copy_of_outside _ _ (by omega)]
          simp [Bytes.copy]
      · exact Bytes.copy_of_outside _ _ (by omega)
  rw [zero] at size
  exact absurd size (by decide)

/-- While another inode is open, none is read. -/
theorem not_inodeStored_open {elem : Nat} {elems : List Nat}
    (listed : ListAt m.mem openInodes (elem :: elems))
    (other : m.mem.read32 (elem - 68) ≠ inodeNo.toNat) :
    ¬InodeStored part sb inodeNo m openInodes inodeNew := by
  intro stored
  have number : (sizeOne inodeNo).read32 0 = inodeNo.toNat := sizeOne_number inodeNo
  obtain ⟨disk', fuel, m', -, -, -, run, -⟩ :=
    stored (fun _ => 0) (sizeOne inodeNo) (fun _ => 0) (fun _ => 0) 2 number
  have more : elem ≠ tailer openInodes := by
    rintro rfl
    exact listed.tailer_not_mem List.mem_cons_self
  rw [inodeOpen, listed.next_cons, bind_error (findOpen_diverges more other fuel)] at run
  cases run

/-- An inode that is not open yet is stored and found again exactly if its number is below 256,
its record lies in one sector and no other inode is open. -/
theorem inodeStored_iff (laid : TableLaid part sb) {elems : List Nat}
    (listed : ListAt m.mem openInodes elems)
    (notOpen : ∀ elem ∈ elems, m.mem.read32 (elem - 68) ≠ inodeNo.toNat)
    (apart : inodeNew + 76 ≤ openInodes ∨ openInodes + 16 ≤ inodeNew) :
    InodeStored part sb inodeNo m openInodes inodeNew ↔
      inodeNo.toNat < 256 ∧ OneSector inodeNo.toNat ∧ elems = [] := by
  constructor
  · intro stored
    obtain ⟨small, one⟩ : inodeNo.toNat < 256 ∧ OneSector inodeNo.toNat :=
      by_contra fun fails => not_inodeStored laid fails stored
    cases elems with
    | nil => exact ⟨small, one, rfl⟩
    | cons elem rest =>
        exact absurd stored (not_inodeStored_open listed (notOpen elem List.mem_cons_self))
  · rintro ⟨small, one, rfl⟩
    exact inodeStored_of_oneSector laid small one listed apart

end

/-- The super block of a partition at sector 63, as it is formatted. -/
def formattedSuperBlock : SuperBlock := (formatLayout (.decode fun _ => 0) ⟨63, 2000, "sdb1"⟩).sb

theorem formattedSuperBlock_laid : TableLaid ⟨63, 1218, "sdb1"⟩ formattedSuperBlock := by
  have lba : formattedSuperBlock.inodeTableLba = 67 := by
    rw [formattedSuperBlock, formatLayout_eq]
    rfl
  constructor
  · rw [lba]
    decide
  · rw [lba]
    decide

/-- A machine with no inode open. -/
def noneOpen : Machine := listInit Machine.blank 0xc0200000

theorem noneOpen_listed : ListAt noneOpen.mem 0xc0200000 [] := linkInit_listAt _ (by decide)

theorem inodeStored_one :
    InodeStored ⟨63, 1218, "sdb1"⟩ formattedSuperBlock 1 noneOpen 0xc0200000 0xc0300000 :=
  (inodeStored_iff formattedSuperBlock_laid noneOpen_listed nofun (.inr (by decide))).mpr
    ⟨by decide, by decide, rfl⟩

/-- Inode 256 is written to the record of inode 0. -/
theorem not_inodeStored_256 :
    ¬InodeStored ⟨63, 1218, "sdb1"⟩ formattedSuperBlock 256 noneOpen 0xc0200000 0xc0300000 :=
  not_inodeStored formattedSuperBlock_laid (by decide)

end Pumelo
