import Mathlib.Data.List.Nodup
import Pumelo.Format

/-!
# Bitmaps on disk

`inode_bitmap_alloc`, `block_bitmap_alloc` and `bitmap_sync` of `file.c`.  An allocation
sets the lowest clear bit of a bitmap in memory, and the call of `bitmap_sync` behind it
writes the sector of this bit.  So the two copies of a bitmap agree behind each call if
they have agreed at the start, in any order of allocations.
-/

namespace Pumelo

open Foundation

/-- `enum bitmap_type` -/
inductive BitmapType where
  | inode
  | block
  deriving DecidableEq, Repr

/-- `inode_bitmap_alloc`; `none` stands for -1. -/
def inodeBitmapAlloc (part : Mounted) : Except Fault (Option Nat × Mounted) := do
  match ← bitmapScan part.inodeBits part.inodeBitmap 1 with
  | none => return (none, part)
  | some bitIdx =>
      let inodeBits ← bitmapSet part.inodeBits part.inodeBitmap bitIdx 1
      return (some bitIdx, { part with inodeBits })

/-- `bitmap_sync` -/
def bitmapSync (disk : Bytes) (part : Mounted) (bitIdx : UInt32) (btmp : BitmapType) :
    Except Fault Bytes :=
  let offSec := bitIdx / 4096
  let offSize := (offSec * .ofNat sectorSize).toNat
  match btmp with
  | .inode =>
      let bitmapOff := part.inodeBitmap.bitmapBits + offSize
      ideWrite disk (part.sb.inodeBitmapLba + offSec).toNat
        (fun query => part.inodeBits (bitmapOff + query)) 1
  | .block =>
      let bitmapOff := part.blockBitmap.bitmapBits + offSize
      ideWrite disk (part.sb.blockBitmapLba + offSec).toNat
        (fun query => part.blockBits (bitmapOff + query)) 1

/-- A partition with its disk, and the bits that were handed out. -/
structure BitmapState where
  part : Mounted
  disk : Bytes
  handed : List (BitmapType × Nat)

/-- An allocation, followed by `bitmap_sync` if it succeeds. -/
def allocSync (s : BitmapState) : BitmapType → Except Fault BitmapState
  | .inode => do
      match ← inodeBitmapAlloc s.part with
      | (none, part) => return { s with part }
      | (some bitIdx, part) =>
          let disk ← bitmapSync s.disk part (.ofNat bitIdx) .inode
          return { part, disk, handed := s.handed ++ [(.inode, bitIdx)] }
  | .block => do
      match ← blockBitmapAlloc s.part with
      | (none, part) => return { s with part }
      | (some lba, part) =>
          let bitIdx := lba - part.sb.dataStartLba
          let disk ← bitmapSync s.disk part bitIdx .block
          return { part, disk, handed := s.handed ++ [(.block, bitIdx.toNat)] }

/-- A sequence of allocations. -/
def allocations : List BitmapType → BitmapState → Except Fault BitmapState
  | [], s => .ok s
  | btmp :: rest, s => do
      let s ← allocSync s btmp
      allocations rest s

namespace Mounted

variable (part : Mounted)

def bitmap : BitmapType → Bitmap
  | .inode => part.inodeBitmap
  | .block => part.blockBitmap

def bits : BitmapType → Bytes
  | .inode => part.inodeBits
  | .block => part.blockBits

/-- The first sector of a bitmap. -/
def bitmapLba : BitmapType → Nat
  | .inode => part.sb.inodeBitmapLba.toNat
  | .block => part.sb.blockBitmapLba.toNat

def bitmapSects : BitmapType → Nat
  | .inode => part.sb.inodeBitmapSects.toNat
  | .block => part.sb.blockBitmapSects.toNat

/-- A bit of a bitmap in memory. -/
def bit (btmp : BitmapType) (index : Nat) : Bool := (part.bitmap btmp).bit (part.bits btmp) index

/-- Set a bit in memory. -/
def setBit (btmp : BitmapType) (index : Nat) : Mounted :=
  match btmp with
  | .inode =>
      { part with
        inodeBits := part.inodeBits.setBit (8 * part.inodeBitmap.bitmapBits + index) true }
  | .block =>
      { part with
        blockBits := part.blockBits.setBit (8 * part.blockBitmap.bitmapBits + index) true }

/-- The sector of a byte is one of a bitmap's. -/
def InBitmap (btmp : BitmapType) (query : Nat) : Prop :=
  part.bitmapLba btmp ≤ query / 512 ∧ query / 512 < part.bitmapLba btmp + part.bitmapSects btmp

/-- As `partition_format` and `mount_partition` leave a partition: the bitmaps in memory
have the size of those on the disk, which lie on it and do not overlap. -/
structure Laid : Prop where
  bitmapLen : ∀ btmp, (part.bitmap btmp).bitmapLen = 512 * part.bitmapSects btmp
  inside : ∀ btmp, part.bitmapLba btmp + part.bitmapSects btmp ≤ maxLba + 1
  apart : ∀ query, part.InBitmap .inode query → ¬part.InBitmap .block query

/-- A bitmap on the disk equals the one in memory. -/
def OnDisk (disk : Bytes) (btmp : BitmapType) : Prop :=
  ∀ offset, offset < 512 * part.bitmapSects btmp →
    disk (512 * part.bitmapLba btmp + offset) =
      part.bits btmp ((part.bitmap btmp).bitmapBits + offset)

end Mounted

section

variable {part part' : Mounted} {disk disk' : Bytes} {btmp other : BitmapType}
  {found index query : Nat}
  {s s' : BitmapState}

/-- What setting a bit in memory leaves as it is. -/
@[simp] theorem Mounted.setBit_sb : (part.setBit btmp found).sb = part.sb := by
  cases btmp <;> rfl

@[simp] theorem Mounted.setBit_bitmap :
    (part.setBit btmp found).bitmap other = part.bitmap other := by
  cases btmp <;> cases other <;> rfl

theorem Mounted.setBit_bitmapLba :
    (part.setBit btmp found).bitmapLba other = part.bitmapLba other := by
  cases btmp <;> cases other <;> rfl

theorem Mounted.setBit_bitmapSects :
    (part.setBit btmp found).bitmapSects other = part.bitmapSects other := by
  cases btmp <;> cases other <;> rfl

theorem Mounted.setBit_bits_of_ne (different : other ≠ btmp) :
    (part.setBit btmp found).bits other = part.bits other := by
  cases btmp <;> cases other
  case inode.inode => exact absurd rfl different
  case block.block => exact absurd rfl different
  all_goals rfl

theorem Mounted.setBit_bits :
    (part.setBit btmp found).bits btmp =
      (part.bits btmp).setBit (8 * (part.bitmap btmp).bitmapBits + found) true := by
  cases btmp <;> rfl

/-- The bit is set, and no other bit changes. -/
theorem Mounted.bit_setBit : (part.setBit btmp found).bit other index =
    (decide (other = btmp ∧ index = found) || part.bit other index) := by
  rw [Mounted.bit, Mounted.bit, setBit_bitmap, Bitmap.bit, Bitmap.bit]
  by_cases same : other = btmp
  · subst same
    rw [setBit_bits, Bytes.bit_setBit]
    by_cases here : index = found
    · simp [here]
    · rw [if_neg (by omega)]
      simp [here]
  · rw [setBit_bits_of_ne same]
    simp [same]

theorem inodeBitmapAlloc_eq_ok {result : Option Nat}
    (run : inodeBitmapAlloc part = .ok (result, part')) :
    ∃ found, result = some found ∧ found < 8 * (part.bitmap .inode).bitmapLen ∧
      part.bit .inode found = false ∧ part' = part.setBit .inode found := by
  rw [inodeBitmapAlloc] at run
  obtain ⟨scanned, scan, run⟩ := bind_eq_ok.mp run
  obtain ⟨found, rfl, small, clear, -⟩ := bitmapScan_one_ok scan
  dsimp only at run
  rw [bitmapSet_one] at run
  cases run
  exact ⟨found, rfl, small, clear, rfl⟩

theorem blockBitmapAlloc_eq_ok {result : Option UInt32}
    (run : blockBitmapAlloc part = .ok (result, part')) :
    ∃ found, result = some (part.sb.dataStartLba + .ofNat found) ∧
      found < 8 * (part.bitmap .block).bitmapLen ∧ part.bit .block found = false ∧
        part' = part.setBit .block found := by
  rw [blockBitmapAlloc] at run
  obtain ⟨scanned, scan, run⟩ := bind_eq_ok.mp run
  obtain ⟨found, rfl, small, clear, -⟩ := bitmapScan_one_ok scan
  dsimp only at run
  rw [bitmapSet_one] at run
  cases run
  exact ⟨found, rfl, small, clear, rfl⟩

/-- The sector of a bit, as `bitmap_sync` writes it from memory. -/
def syncedDisk (disk : Bytes) (part : Mounted) (btmp : BitmapType) (found : Nat) : Bytes :=
  disk.copy (512 * (part.bitmapLba btmp + found / 4096))
    (fun query => part.bits btmp ((part.bitmap btmp).bitmapBits + found / 4096 * 512 + query)) 0 512

/-- A bit of a bitmap as a 32-bit number, and its sector. -/
theorem Mounted.Laid.toNat_ofNat (laid : part.Laid)
    (small : found < 8 * (part.bitmap btmp).bitmapLen) :
    (UInt32.ofNat found).toNat = found ∧ (UInt32.ofNat found / 4096).toNat = found / 4096 ∧
      found / 4096 < part.bitmapSects btmp := by
  have bitmapLen := laid.bitmapLen btmp
  have inside := laid.inside btmp
  have literal : (4096 : UInt32).toNat = 4096 := rfl
  simp only [maxLba] at inside
  have number : (UInt32.ofNat found).toNat = found := by
    rw [UInt32.toNat_ofNat', Nat.mod_eq_of_lt (by omega)]
  refine ⟨number, ?_, by omega⟩
  rw [UInt32.toNat_div, number, literal]

/-- The sector that `bitmap_sync` writes. -/
theorem Mounted.Laid.toNat_secLba (laid : part.Laid)
    (small : found < 8 * (part.bitmap btmp).bitmapLen) {lba : UInt32}
    (first : lba.toNat = part.bitmapLba btmp) :
    (lba + UInt32.ofNat found / 4096).toNat = part.bitmapLba btmp + found / 4096 := by
  obtain ⟨-, offSec, below⟩ := laid.toNat_ofNat small
  have inside := laid.inside btmp
  simp only [maxLba] at inside
  rw [UInt32.toNat_add, offSec, first, Nat.mod_eq_of_lt (by omega)]

/-- `bitmap_sync` writes one sector. -/
theorem bitmapSync_eq_ok (laid : part.Laid) (small : found < 8 * (part.bitmap btmp).bitmapLen)
    (run : bitmapSync disk part (.ofNat found) btmp = .ok disk') :
    disk' = syncedDisk disk part btmp found := by
  obtain ⟨-, offSec, below⟩ := laid.toNat_ofNat small
  have inside := laid.inside btmp
  have literal : (UInt32.ofNat sectorSize).toNat = 512 := rfl
  simp only [maxLba] at inside
  have offSize : (UInt32.ofNat found / 4096 * .ofNat sectorSize).toNat = found / 4096 * 512 := by
    rw [UInt32.toNat_mul, offSec, literal, Nat.mod_eq_of_lt (by omega)]
  simp only [bitmapSync, offSize] at run
  cases btmp with
  | inode =>
      have written := (ideWrite_eq_ok run).2
      rwa [laid.toNat_secLba small rfl] at written
  | block =>
      have written := (ideWrite_eq_ok run).2
      rwa [laid.toNat_secLba small rfl] at written

/-- `bitmap_sync` returns for a bit of a bitmap. -/
theorem bitmapSync_of_lt (laid : part.Laid) (small : found < 8 * (part.bitmap btmp).bitmapLen) :
    ∃ disk', bitmapSync disk part (.ofNat found) btmp = .ok disk' := by
  obtain ⟨-, -, below⟩ := laid.toNat_ofNat small
  have inside := laid.inside btmp
  have onDisk : ∀ lba : UInt32, lba.toNat = part.bitmapLba btmp →
      (lba + UInt32.ofNat found / 4096).toNat + 1 ≤ maxLba + 1 := by
    intro lba first
    rw [laid.toNat_secLba small first]
    omega
  cases btmp with
  | inode => exact ⟨_, ideWrite_of_le (by decide) (onDisk _ rfl)⟩
  | block => exact ⟨_, ideWrite_of_le (by decide) (onDisk _ rfl)⟩

/-- What a successful allocation has done, with `found` the bit that it hands out. -/
structure Synced (s s' : BitmapState) (btmp : BitmapType) (found : Nat) : Prop where
  small : found < 8 * (s.part.bitmap btmp).bitmapLen
  clear : s.part.bit btmp found = false
  part : s'.part = s.part.setBit btmp found
  disk : s'.disk = syncedDisk s.disk s'.part btmp found
  handed : s'.handed = s.handed ++ [(btmp, found)]

theorem Mounted.Laid.setBit (laid : part.Laid) : (part.setBit btmp found).Laid := by
  obtain ⟨bitmapLen, inside, apart⟩ := laid
  constructor
  · intro other
    rw [setBit_bitmap, setBit_bitmapSects]
    exact bitmapLen other
  · intro other
    rw [setBit_bitmapLba, setBit_bitmapSects]
    exact inside other
  · intro query
    rw [InBitmap, InBitmap, setBit_bitmapLba, setBit_bitmapSects, setBit_bitmapLba,
      setBit_bitmapSects]
    exact apart query

/-- The sector of a block less the start of the data is its bit. -/
theorem bitIdx_of_lba (start bitIdx : UInt32) : start + bitIdx - start = bitIdx := by
  rw [UInt32.add_comm, UInt32.add_sub_cancel]

/-- An allocation that returns has handed out a bit and written its sector. -/
theorem allocSync_eq_ok (laid : s.part.Laid) (run : allocSync s btmp = .ok s') :
    ∃ found, Synced s s' btmp found := by
  cases btmp with
  | inode =>
      obtain ⟨⟨result, part⟩, alloc, run⟩ := bind_eq_ok.mp run
      obtain ⟨found, rfl, small, clear, rfl⟩ := inodeBitmapAlloc_eq_ok alloc
      obtain ⟨disk, sync, run⟩ := bind_eq_ok.mp run
      cases run
      refine ⟨found, small, clear, rfl, ?_, rfl⟩
      apply bitmapSync_eq_ok laid.setBit _ sync
      rwa [Mounted.setBit_bitmap]
  | block =>
      obtain ⟨⟨result, part⟩, alloc, run⟩ := bind_eq_ok.mp run
      obtain ⟨found, rfl, small, clear, rfl⟩ := blockBitmapAlloc_eq_ok alloc
      obtain ⟨disk, sync, run⟩ := bind_eq_ok.mp run
      rw [Mounted.setBit_sb, bitIdx_of_lba] at sync run
      cases run
      refine ⟨found, small, clear, rfl, ?_, ?_⟩
      · apply bitmapSync_eq_ok laid.setBit _ sync
        rwa [Mounted.setBit_bitmap]
      · rw [(laid.toNat_ofNat small).1]

theorem inodeBitmapAlloc_of_clear (small : index < 8 * (part.bitmap .inode).bitmapLen)
    (clear : part.bit .inode index = false) :
    ∃ found, found < 8 * (part.bitmap .inode).bitmapLen ∧
      inodeBitmapAlloc part = .ok (some found, part.setBit .inode found) := by
  obtain ⟨found, scan⟩ : ∃ found, bitmapScan part.inodeBits part.inodeBitmap 1 = .ok (some found) :=
    bitmapScan_one_of_clear small clear
  obtain ⟨_, equal, below, -, -⟩ := bitmapScan_one_ok scan
  cases equal
  refine ⟨found, below, ?_⟩
  rw [inodeBitmapAlloc, bind_ok scan]
  dsimp only
  rw [bitmapSet_one]
  rfl

theorem blockBitmapAlloc_of_clear (small : index < 8 * (part.bitmap .block).bitmapLen)
    (clear : part.bit .block index = false) :
    ∃ found, found < 8 * (part.bitmap .block).bitmapLen ∧ blockBitmapAlloc part =
      .ok (some (part.sb.dataStartLba + .ofNat found), part.setBit .block found) := by
  obtain ⟨found, scan⟩ : ∃ found, bitmapScan part.blockBits part.blockBitmap 1 = .ok (some found) :=
    bitmapScan_one_of_clear small clear
  obtain ⟨_, equal, below, -, -⟩ := bitmapScan_one_ok scan
  cases equal
  refine ⟨found, below, ?_⟩
  rw [blockBitmapAlloc, bind_ok scan]
  dsimp only
  rw [bitmapSet_one]
  rfl

/-- An allocation returns if a bit is clear. -/
theorem allocSync_of_clear (laid : s.part.Laid) (small : index < 8 * (s.part.bitmap btmp).bitmapLen)
    (clear : s.part.bit btmp index = false) : ∃ s', allocSync s btmp = .ok s' := by
  cases btmp with
  | inode =>
      obtain ⟨found, below, alloc⟩ := inodeBitmapAlloc_of_clear small clear
      obtain ⟨disk, sync⟩ : ∃ disk, bitmapSync s.disk (s.part.setBit .inode found) (.ofNat found)
          .inode = .ok disk := bitmapSync_of_lt laid.setBit (by rwa [Mounted.setBit_bitmap])
      rw [allocSync, bind_ok alloc]
      exact ⟨_, bind_ok sync⟩
  | block =>
      obtain ⟨found, below, alloc⟩ := blockBitmapAlloc_of_clear small clear
      obtain ⟨disk, sync⟩ : ∃ disk, bitmapSync s.disk (s.part.setBit .block found) (.ofNat found)
          .block = .ok disk := bitmapSync_of_lt laid.setBit (by rwa [Mounted.setBit_bitmap])
      rw [allocSync, bind_ok alloc]
      dsimp only
      rw [Mounted.setBit_sb, bitIdx_of_lba]
      exact ⟨_, bind_ok sync⟩

/-! ## Runs -/

/-- The bitmaps on the disk are those in memory, what was handed out is marked there, and
nothing else on the disk has changed since the start. -/
structure Persistent (start : BitmapState) (s : BitmapState) : Prop where
  laid : s.part.Laid
  place : ∀ btmp, s.part.bitmapLba btmp = start.part.bitmapLba btmp ∧
    s.part.bitmapSects btmp = start.part.bitmapSects btmp
  onDisk : ∀ btmp, s.part.OnDisk s.disk btmp
  nodup : s.handed.Nodup
  marked : ∀ entry ∈ s.handed, s.part.bit entry.1 entry.2 = true
  others : ∀ query, (∀ btmp, ¬start.part.InBitmap btmp query) → s.disk query = start.disk query

theorem syncedDisk_of_outside
    (outside : query / 512 ≠ part.bitmapLba btmp + found / 4096) :
    syncedDisk disk part btmp found query = disk query := by
  apply Bytes.copy_of_outside
  omega

/-- Behind `bitmap_sync` the bitmap on the disk has the new bit. -/
theorem onDisk_syncedDisk (onDisk : part.OnDisk disk btmp) :
    (part.setBit btmp found).OnDisk (syncedDisk disk (part.setBit btmp found) btmp found) btmp := by
  intro offset inside
  rw [Mounted.setBit_bitmapSects] at inside
  rw [Mounted.setBit_bitmapLba, Mounted.setBit_bitmap]
  by_cases here : offset / 512 = found / 4096
  · rw [syncedDisk, Mounted.setBit_bitmapLba, Mounted.setBit_bitmap,
      Bytes.copy_of_inside _ _ _ (by omega) (by omega)]
    congr 1
    omega
  · have disk := onDisk offset inside
    rw [syncedDisk_of_outside (by rw [Mounted.setBit_bitmapLba]; omega), Mounted.setBit_bits,
      Bytes.setBit_of_ne _ _ (by omega), disk]

/-- The bitmap of the other kind is left alone, in memory and on the disk. -/
theorem onDisk_of_ne (laid : part.Laid) (small : found < 8 * (part.bitmap btmp).bitmapLen)
    (different : other ≠ btmp) (onDisk : part.OnDisk disk other) :
    (part.setBit btmp found).OnDisk (syncedDisk disk (part.setBit btmp found) btmp found)
      other := by
  intro offset inside
  rw [Mounted.setBit_bitmapSects] at inside
  have bitmapLen := laid.bitmapLen btmp
  have separate : ∀ query, part.InBitmap other query → ¬part.InBitmap btmp query := by
    intro query isOther isBtmp
    cases other <;> cases btmp
    case inode.inode => exact different rfl
    case block.block => exact different rfl
    case inode.block => exact laid.apart query isOther isBtmp
    case block.inode => exact laid.apart query isBtmp isOther
  have place : part.InBitmap other (512 * part.bitmapLba other + offset) :=
    ⟨by omega, by omega⟩
  have elsewhere : (512 * part.bitmapLba other + offset) / 512 ≠
      part.bitmapLba btmp + found / 4096 := by
    intro same
    apply separate _ place
    exact ⟨by omega, by omega⟩
  rw [Mounted.setBit_bitmapLba, Mounted.setBit_bitmap, Mounted.setBit_bits_of_ne different,
    syncedDisk_of_outside (by rwa [Mounted.setBit_bitmapLba])]
  exact onDisk offset inside

/-- An allocation keeps this. -/
theorem Persistent.allocSync {start : BitmapState} (persistent : Persistent start s)
    (run : allocSync s btmp = .ok s') : Persistent start s' := by
  obtain ⟨laid, place, onDisk, nodup, marked, others⟩ := persistent
  obtain ⟨found, small, clear, part, disk, handed⟩ := allocSync_eq_ok laid run
  rw [part] at disk
  have bitmapLen := laid.bitmapLen btmp
  refine ⟨part ▸ laid.setBit, fun kind => ?_, fun kind => ?_, ?_, ?_, fun query outside => ?_⟩
  · rw [part, Mounted.setBit_bitmapLba, Mounted.setBit_bitmapSects]
    exact place kind
  · rw [part, disk]
    by_cases same : kind = btmp
    · subst same
      exact onDisk_syncedDisk (onDisk kind)
    · exact onDisk_of_ne laid small same (onDisk kind)
  · rw [handed, ← List.concat_eq_append]
    refine nodup.concat fun member => ?_
    rw [marked _ member] at clear
    exact absurd clear (by decide)
  · intro entry member
    rw [part, Mounted.bit_setBit]
    rw [handed] at member
    rcases List.mem_append.mp member with earlier | here
    · rw [marked entry earlier, Bool.or_true]
    · rw [List.mem_singleton.mp here]
      simp
  · rw [disk, syncedDisk_of_outside, others query outside]
    intro same
    apply outside btmp
    rw [Mounted.setBit_bitmapLba] at same
    rw [Mounted.InBitmap, ← (place btmp).1, ← (place btmp).2]
    omega

theorem Persistent.allocations {start : BitmapState} {ops : List BitmapType}
    (persistent : Persistent start s) (run : allocations ops s = .ok s') : Persistent start s' := by
  induction ops generalizing s with
  | nil =>
      cases run
      exact persistent
  | cons btmp rest ih =>
      obtain ⟨between, first, run⟩ := bind_eq_ok.mp run
      exact ih (persistent.allocSync first) run

/-- **Bitmap persistence**: in any order of allocations, each followed by `bitmap_sync`, no
bit is handed out twice, both bitmaps on the disk are those in memory, and no other sector
of the disk changes. -/
theorem allocations_persist {ops : List BitmapType} (laid : part.Laid)
    (onDisk : ∀ btmp, part.OnDisk disk btmp) (run : allocations ops ⟨part, disk, []⟩ = .ok s) :
    s.handed.Nodup ∧ (∀ btmp, s.part.OnDisk s.disk btmp) ∧
      ∀ query, (∀ btmp, ¬part.InBitmap btmp query) → s.disk query = disk query := by
  have start : Persistent ⟨part, disk, []⟩ ⟨part, disk, []⟩ :=
    ⟨laid, fun _ => ⟨rfl, rfl⟩, onDisk, List.nodup_nil, nofun, fun _ _ => rfl⟩
  have persistent := start.allocations run
  exact ⟨persistent.nodup, persistent.onDisk, persistent.others⟩

end

/-- A formatted partition whose bitmaps are clear. -/
def clearPart : Mounted where
  sb := (formatLayout (.decode fun _ => 0) ⟨63, 2000, "sdb1"⟩).sb
  blockBitmap := ⟨512, 0⟩
  blockBits _ := 0
  inodeBitmap := ⟨512, 0⟩
  inodeBits _ := 0

theorem clearPart_laid : clearPart.Laid := by
  have sb : clearPart.sb = _ := congrArg Layout.sb (formatLayout_eq _ _)
  have lba : clearPart.sb.blockBitmapLba = 65 ∧ clearPart.sb.inodeBitmapLba = 66 ∧
      clearPart.sb.blockBitmapSects = 1 ∧ clearPart.sb.inodeBitmapSects = 1 := by
    rw [sb]
    exact ⟨rfl, rfl, rfl, rfl⟩
  obtain ⟨blockLba, inodeLba, blockSects, inodeSects⟩ := lba
  constructor
  · intro btmp
    cases btmp
    · rw [Mounted.bitmapSects, inodeSects]
      rfl
    · rw [Mounted.bitmapSects, blockSects]
      rfl
  · intro btmp
    cases btmp
    · rw [Mounted.bitmapSects, Mounted.bitmapLba, inodeSects, inodeLba]
      decide
    · rw [Mounted.bitmapSects, Mounted.bitmapLba, blockSects, blockLba]
      decide
  · rintro query ⟨inodeLower, -⟩ ⟨-, blockUpper⟩
    rw [Mounted.bitmapLba, inodeLba] at inodeLower
    rw [Mounted.bitmapLba, Mounted.bitmapSects, blockLba, blockSects] at blockUpper
    have inodeLower : 66 ≤ query / 512 := inodeLower
    have blockUpper : query / 512 < 65 + 1 := blockUpper
    omega

theorem allocations_persist_two :
    ∃ s, allocations [.block, .inode] ⟨clearPart, fun _ => 0, []⟩ = .ok s ∧
      s.handed.Nodup ∧ (∀ btmp, s.part.OnDisk s.disk btmp) ∧
        ∀ query, (∀ btmp, ¬clearPart.InBitmap btmp query) → s.disk query = 0 := by
  have zero : ∀ btmp, clearPart.OnDisk (fun _ => 0) btmp := by
    intro btmp offset _
    cases btmp <;> rfl
  have clear : ∀ btmp, clearPart.bit btmp 0 = false := by
    intro btmp
    cases btmp <;> decide
  obtain ⟨between, first⟩ : ∃ between, allocSync ⟨clearPart, fun _ => 0, []⟩ .block = .ok between :=
    allocSync_of_clear clearPart_laid (show 0 < 8 * 512 by decide) (clear .block)
  obtain ⟨found, -, -, part, -, -⟩ := allocSync_eq_ok clearPart_laid first
  have laid : between.part.Laid := by
    rw [part]
    exact clearPart_laid.setBit
  have small : 0 < 8 * (between.part.bitmap .inode).bitmapLen := by
    rw [part, Mounted.setBit_bitmap]
    decide
  have stillClear : between.part.bit .inode 0 = false := by
    rw [part, Mounted.bit_setBit]
    exact clear .inode
  obtain ⟨s, second⟩ := allocSync_of_clear laid small stillClear
  have run : allocations [.block, .inode] ⟨clearPart, fun _ => 0, []⟩ = .ok s :=
    (bind_ok first).trans ((bind_ok second).trans rfl)
  exact ⟨s, run, allocations_persist clearPart_laid zero run⟩

end Pumelo
