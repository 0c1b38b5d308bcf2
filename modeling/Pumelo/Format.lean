import Mathlib.Data.List.Chain
import Pumelo.Bitmap
import Pumelo.Ide

/-!
# Formatting and mounting a partition

`partition_format` and `mount_partition` of `fs.c`, and `block_bitmap_alloc` of
`file.c`, on the contents of a disk.  Writer and reader share the super block,
which says where the regions of the partition start and how many sectors each has.

The layout is computed from a constant: `free_sects = part->sec_cnt = used_sects`
assigns where it should subtract, so that every partition gets the sizes of one
with 1218 sectors, and its own count is lost.
-/

namespace Pumelo

open Foundation

def maxFilesPerPart : UInt32 := 4096
def bitsPerSector : UInt32 := 4096

/-- `sizeof(struct inode)` -/
def sizeofInode : UInt32 := 76

/-- `sizeof(struct dir_entry)` -/
def sizeofDirEntry : UInt32 := 24

/-- `FT_DIRECTORY` -/
def ftDirectory : Nat := 2

/-- `struct super_block` -/
structure SuperBlock where
  magic : UInt32
  secCnt : UInt32
  inodeCnt : UInt32
  partLbaBase : UInt32
  blockBitmapLba : UInt32
  blockBitmapSects : UInt32
  inodeBitmapLba : UInt32
  inodeBitmapSects : UInt32
  inodeTableLba : UInt32
  inodeTableSects : UInt32
  dataStartLba : UInt32
  rootInodeNo : UInt32
  dirEntrySize : UInt32
  pad : Fin 460 → UInt8

/-- The bytes of a super block. -/
def SuperBlock.encode (sb : SuperBlock) : Bytes :=
  let buf : Bytes := fun query =>
    if inside : 52 ≤ query ∧ query < 512 then sb.pad ⟨query - 52, by omega⟩ else 0
  let buf := buf.write32 0 sb.magic.toNat
  let buf := buf.write32 4 sb.secCnt.toNat
  let buf := buf.write32 8 sb.inodeCnt.toNat
  let buf := buf.write32 12 sb.partLbaBase.toNat
  let buf := buf.write32 16 sb.blockBitmapLba.toNat
  let buf := buf.write32 20 sb.blockBitmapSects.toNat
  let buf := buf.write32 24 sb.inodeBitmapLba.toNat
  let buf := buf.write32 28 sb.inodeBitmapSects.toNat
  let buf := buf.write32 32 sb.inodeTableLba.toNat
  let buf := buf.write32 36 sb.inodeTableSects.toNat
  let buf := buf.write32 40 sb.dataStartLba.toNat
  let buf := buf.write32 44 sb.rootInodeNo.toNat
  buf.write32 48 sb.dirEntrySize.toNat

/-- The super block that 512 bytes are. -/
def SuperBlock.decode (buf : Bytes) : SuperBlock where
  magic := .ofNat (buf.read32 0)
  secCnt := .ofNat (buf.read32 4)
  inodeCnt := .ofNat (buf.read32 8)
  partLbaBase := .ofNat (buf.read32 12)
  blockBitmapLba := .ofNat (buf.read32 16)
  blockBitmapSects := .ofNat (buf.read32 20)
  inodeBitmapLba := .ofNat (buf.read32 24)
  inodeBitmapSects := .ofNat (buf.read32 28)
  inodeTableLba := .ofNat (buf.read32 32)
  inodeTableSects := .ofNat (buf.read32 36)
  dataStartLba := .ofNat (buf.read32 40)
  rootInodeNo := .ofNat (buf.read32 44)
  dirEntrySize := .ofNat (buf.read32 48)
  pad index := buf (52 + index)

/-- `struct partition`, as far as it describes the partition. -/
structure Partition where
  startLba : UInt32
  secCnt : UInt32
  name : String
  deriving DecidableEq, Repr

/-- What `mount_partition` puts behind the pointers of a partition. -/
structure Mounted where
  sb : SuperBlock
  blockBitmap : Bitmap
  blockBits : Bytes
  inodeBitmap : Bitmap
  inodeBits : Bytes

/-- What `partition_format` computes before it writes: the super block, the number of
blocks it counts, and the partition it leaves. -/
structure Layout where
  sb : SuperBlock
  blockBitmapBitLen : UInt32
  part : Partition

/-- `DIV_ROUND_UP` -/
def divRoundUp32 (n d : UInt32) : UInt32 := .ofNat (divRoundUp n.toNat d.toNat)

/-- The sizes and addresses of `partition_format`; `stack` is what the super block on
the stack holds before. -/
def formatLayout (stack : SuperBlock) (part : Partition) : Layout :=
  let bootSectorSects := 1
  let superBlockSects := 1
  let inodeBitmapSects := divRoundUp32 maxFilesPerPart bitsPerSector
  let inodeTableSects := divRoundUp32 (sizeofInode * maxFilesPerPart) (.ofNat sectorSize)
  let usedSects := bootSectorSects + superBlockSects + inodeTableSects + inodeTableSects
  -- an assignment, where a difference would be the free sectors
  let part := { part with secCnt := usedSects }
  let freeSects := part.secCnt
  let blockBitmapSects := divRoundUp32 freeSects bitsPerSector
  let blockBitmapBitLen := freeSects - blockBitmapSects
  let blockBitmapSects := divRoundUp32 blockBitmapBitLen bitsPerSector
  let blockBitmapLba := part.startLba + 2
  let inodeBitmapLba := blockBitmapLba + blockBitmapSects
  let inodeTableLba := inodeBitmapLba + inodeBitmapSects
  let dataStartLba := inodeTableLba + inodeTableSects
  { part
    blockBitmapBitLen
    sb :=
      { magic := 0x19590318
        secCnt := maxFilesPerPart
        inodeCnt := stack.inodeCnt
        partLbaBase := part.startLba
        blockBitmapLba
        blockBitmapSects
        inodeBitmapLba
        inodeBitmapSects
        inodeTableLba
        inodeTableSects
        dataStartLba
        rootInodeNo := 0
        dirEntrySize := sizeofDirEntry
        pad := stack.pad } }

/-- `sys_malloc` for a caller that uses the result unchecked. It clears what it hands
out; `room` says whether it finds memory. -/
def sysMallocUnchecked (room : Bool) : Except Fault Bytes :=
  if room then .ok fun _ => 0 else .error (.outOfBounds "NULL" 0)

/-- `sys_malloc` for a caller that panics on `NULL`. -/
def sysMallocOrPanic (room : Bool) : Except Fault Bytes :=
  if room then .ok fun _ => 0 else .error (.panic "alloc memory failed")

/-- The loop that clears the bits from 0 on in the last byte of the block bitmap. -/
def clearBits (byte : UInt8) : (count : Nat) → UInt8
  | 0 => byte
  | count + 1 => clearBits byte count &&& ~~~ .ofNat (1 <<< count)

/-- The block bitmap as it is written first: bit 0, and the bits behind the last. -/
def blockBitmapBuf (buf : Bytes) (blockBitmapBitLen : UInt32) : Bytes :=
  let buf := buf.write8 0 (buf 0 ||| 0x01)
  let lastByte := blockBitmapBitLen.toNat / 8
  let lastBit := blockBitmapBitLen.toNat % 8
  let buf := buf.fill lastByte 0xff (sectorSize - lastByte % sectorSize)
  buf.write8 lastByte (clearBits (buf lastByte) (lastBit + 1))

/-- The inode bitmap: bit 0 for the root directory. -/
def inodeBitmapBuf (buf : Bytes) (bufSize : Nat) : Bytes :=
  let buf := buf.fill 0 0 bufSize
  buf.write8 0 (buf 0 ||| 0x01)

/-- The inode table, with the inode of the root directory. -/
def inodeTableBuf (buf : Bytes) (bufSize : Nat) (sb : SuperBlock) : Bytes :=
  let buf := buf.fill 0 0 bufSize
  let buf := buf.write32 4 (sb.dirEntrySize * 2).toNat
  let buf := buf.write32 0 0
  buf.write32 16 sb.dataStartLba.toNat

/-- The root directory: entries for `.` and `..`. -/
def rootDirBuf (buf : Bytes) (bufSize : Nat) : Bytes :=
  let buf := buf.fill 0 0 bufSize
  let buf := buf.write8 0 46
  let buf := buf.write32 16 0
  let buf := buf.write32 20 ftDirectory
  let buf := (buf.write8 24 46).write8 25 46
  let buf := buf.write32 40 0
  buf.write32 44 ftDirectory

/-- The size of the buffer: that of the largest region that is written from it. -/
def formatBufSize (sb : SuperBlock) : Nat :=
  let bufSize :=
    if sb.blockBitmapSects ≥ sb.inodeBitmapSects then sb.blockBitmapSects else sb.inodeBitmapSects
  ((if bufSize ≥ sb.inodeTableSects then bufSize else sb.inodeTableSects) *
    .ofNat sectorSize).toNat

/-- `partition_format` -/
def partitionFormat (room : Bool) (stack : SuperBlock) (disk : Bytes) (part : Partition) :
    Except Fault (Partition × Bytes) := do
  let layout := formatLayout stack part
  let sb := layout.sb
  let disk ← ideWrite disk (part.startLba + 1).toNat sb.encode 1
  let bufSize := formatBufSize sb
  let buf ← sysMallocUnchecked room
  let buf := blockBitmapBuf buf layout.blockBitmapBitLen
  let disk ← ideWrite disk sb.blockBitmapLba.toNat buf sb.blockBitmapSects.toNat
  let buf := inodeBitmapBuf buf bufSize
  -- the inode bitmap goes to the address of the block bitmap
  let disk ← ideWrite disk sb.blockBitmapLba.toNat buf sb.inodeBitmapSects.toNat
  let buf := inodeTableBuf buf bufSize sb
  let disk ← ideWrite disk sb.inodeTableLba.toNat buf sb.inodeTableSects.toNat
  let buf := rootDirBuf buf bufSize
  let disk ← ideWrite disk sb.dataStartLba.toNat buf 1
  return (layout.part, disk)

/-- `mount_partition`; `room` says which of its four calls of `sys_malloc` find
memory. A partition with another name is left alone. -/
def mountPartition (room : Fin 4 → Bool) (disk : Bytes) (part : Partition) (partName : String) :
    Except Fault (Option Mounted) :=
  if part.name = partName then do
    let sbBuf ← sysMallocUnchecked (room 0)
    let _ ← sysMallocOrPanic (room 1)
    let sbBuf := sbBuf.fill 0 0 sectorSize
    let sbBuf ← ideRead disk (part.startLba + 1).toNat sbBuf 1
    let sb := SuperBlock.decode sbBuf
    let blockBits ← sysMallocOrPanic (room 2)
    let blockBits ← ideRead disk sb.blockBitmapLba.toNat blockBits sb.blockBitmapSects.toNat
    let inodeBits ← sysMallocOrPanic (room 3)
    let inodeBits ← ideRead disk sb.inodeBitmapLba.toNat inodeBits sb.inodeBitmapSects.toNat
    return some
      { sb
        blockBitmap := ⟨(sb.blockBitmapSects * .ofNat sectorSize).toNat, 0⟩
        blockBits
        inodeBitmap := ⟨(sb.inodeBitmapSects * .ofNat sectorSize).toNat, 0⟩
        inodeBits }
  else .ok none

/-- `block_bitmap_alloc`; `none` stands for -1. -/
def blockBitmapAlloc (part : Mounted) : Except Fault (Option UInt32 × Mounted) := do
  match ← bitmapScan part.blockBits part.blockBitmap 1 with
  | none => return (none, part)
  | some bitIdx =>
      let blockBits ← bitmapSet part.blockBits part.blockBitmap bitIdx 1
      return (some (part.sb.dataStartLba + .ofNat bitIdx), { part with blockBits })

namespace SuperBlock

/-- A super block depends on its 512 bytes only. -/
theorem decode_congr {buf buf' : Bytes} (agree : ∀ query, query < 512 → buf' query = buf query) :
    decode buf' = decode buf := by
  have word : ∀ offset, offset + 4 ≤ 512 → buf'.read32 offset = buf.read32 offset :=
    fun offset inside => Bytes.read32_congr fun query _ upper => agree query (by omega)
  simp only [decode, mk.injEq]
  refine ⟨?_, ?_, ?_, ?_, ?_, ?_, ?_, ?_, ?_, ?_, ?_, ?_, ?_, funext fun index => ?_⟩
  case refine_14 => exact agree _ (by omega)
  all_goals rw [word _ (by decide)]

/-- What is written is what is read. -/
theorem decode_encode (sb : SuperBlock) : decode sb.encode = sb := by
  have small := fun field : UInt32 => field.toNat_lt
  obtain ⟨magic, secCnt, inodeCnt, partLbaBase, blockBitmapLba, blockBitmapSects, inodeBitmapLba,
    inodeBitmapSects, inodeTableLba, inodeTableSects, dataStartLba, rootInodeNo, dirEntrySize,
    pad⟩ := sb
  simp only [decode, mk.injEq]
  refine ⟨?_, ?_, ?_, ?_, ?_, ?_, ?_, ?_, ?_, ?_, ?_, ?_, ?_, funext fun index => ?_⟩
  case refine_14 =>
    simp only [encode]
    simp (disch := omega) only [Bytes.write32_of_outside]
    rw [dif_pos ⟨by omega, by omega⟩]
    congr 1
    exact Fin.ext (Nat.add_sub_cancel_left ..)
  all_goals
    simp only [encode]
    simp (disch := first | omega | exact small _) only
      [Bytes.read32_write32_of_disjoint, Bytes.read32_write32_self, UInt32.ofNat_toNat]

end SuperBlock

section

variable {room : Bool} {stack : SuperBlock} {disk disk' : Bytes} {part part' : Partition}

/-- The super block of every partition, up to where the partition starts. -/
theorem formatLayout_eq (stack : SuperBlock) (part : Partition) :
    formatLayout stack part =
      { part := { part with secCnt := 1218 }
        blockBitmapBitLen := 1217
        sb :=
          { magic := 0x19590318
            secCnt := 4096
            inodeCnt := stack.inodeCnt
            partLbaBase := part.startLba
            blockBitmapLba := part.startLba + 2
            blockBitmapSects := 1
            inodeBitmapLba := part.startLba + 2 + 1
            inodeBitmapSects := 1
            inodeTableLba := part.startLba + 2 + 1 + 1
            inodeTableSects := 608
            dataStartLba := part.startLba + 2 + 1 + 1 + 608
            rootInodeNo := 0
            dirEntrySize := 24
            pad := stack.pad } } := by
  have inodeBitmapSects : divRoundUp32 maxFilesPerPart bitsPerSector = 1 := by decide
  have inodeTableSects :
      divRoundUp32 (sizeofInode * maxFilesPerPart) (.ofNat sectorSize) = 608 := by decide
  have usedSects : (1 + 1 + 608 + 608 : UInt32) = 1218 := by decide
  have blockBitmapSects : divRoundUp32 1218 bitsPerSector = 1 := by decide
  have blockBitmapBitLen : (1218 - 1 : UInt32) = 1217 := by decide
  have blockBitmapSects' : divRoundUp32 1217 bitsPerSector = 1 := by decide
  simp only [formatLayout, inodeBitmapSects, inodeTableSects, usedSects, blockBitmapSects,
    blockBitmapBitLen, blockBitmapSects']
  rfl

theorem formatBufSize_formatLayout (stack : SuperBlock) (part : Partition) :
    formatBufSize (formatLayout stack part).sb = 608 * 512 := by
  rw [formatLayout_eq]
  simp only [formatBufSize]
  decide

/-- What is on a disk after a partition has been formatted whose super block is at
`base`. -/
def formattedDisk (disk : Bytes) (base : Nat) (sb : SuperBlock) : Bytes :=
  let blockBuf := blockBitmapBuf (fun _ => 0) 1217
  let inodeBuf := inodeBitmapBuf blockBuf (608 * 512)
  let tableBuf := inodeTableBuf inodeBuf (608 * 512) sb
  let rootBuf := rootDirBuf tableBuf (608 * 512)
  let disk := disk.copy (512 * base) sb.encode 0 512
  let disk := disk.copy (512 * (base + 1)) blockBuf 0 512
  let disk := disk.copy (512 * (base + 1)) inodeBuf 0 512
  let disk := disk.copy (512 * (base + 3)) tableBuf 0 (608 * 512)
  disk.copy (512 * (base + 611)) rootBuf 0 512

/-- The sectors behind the super block do not wrap around if it is on the disk. -/
theorem toNat_startLba {startLba : UInt32} (inside : (startLba + 1).toNat ≤ maxLba) :
    (startLba + 2).toNat = (startLba + 1).toNat + 1 ∧
      (startLba + 2 + 1).toNat = (startLba + 1).toNat + 2 ∧
      (startLba + 2 + 1 + 1).toNat = (startLba + 1).toNat + 3 ∧
      (startLba + 2 + 1 + 1 + 608).toNat = (startLba + 1).toNat + 611 := by
  have small := startLba.toNat_lt
  have literals : (1 : UInt32).toNat = 1 ∧ (2 : UInt32).toNat = 2 ∧ (608 : UInt32).toNat = 608 :=
    ⟨rfl, rfl, rfl⟩
  simp only [maxLba, UInt32.toNat_add, literals] at inside ⊢
  omega

/-- What a call of `partition_format` that returns has done. -/
theorem partitionFormat_eq_ok (run : partitionFormat room stack disk part = .ok (part', disk')) :
    (part.startLba + 1).toNat ≤ maxLba ∧ part' = { part with secCnt := 1218 } ∧
      disk' = formattedDisk disk (part.startLba + 1).toNat (formatLayout stack part).sb := by
  rw [partitionFormat] at run
  simp only [formatBufSize_formatLayout] at run
  obtain ⟨disk1, write1, run⟩ := bind_eq_ok.mp run
  obtain ⟨buf, malloc, run⟩ := bind_eq_ok.mp run
  obtain ⟨disk2, write2, run⟩ := bind_eq_ok.mp run
  obtain ⟨disk3, write3, run⟩ := bind_eq_ok.mp run
  obtain ⟨disk4, write4, run⟩ := bind_eq_ok.mp run
  obtain ⟨disk5, write5, run⟩ := bind_eq_ok.mp run
  cases run
  have zero : buf = fun _ => 0 := by
    cases room <;> cases malloc
    rfl
  obtain ⟨inside, equal1⟩ := ideWrite_eq_ok write1
  obtain ⟨lba2, lba3, lba4, lba5⟩ := toNat_startLba inside
  have equal2 := (ideWrite_eq_ok write2).2
  have equal3 := (ideWrite_eq_ok write3).2
  have equal4 := (ideWrite_eq_ok write4).2
  have equal5 := (ideWrite_eq_ok write5).2
  subst zero equal1 equal2 equal3 equal4 equal5
  refine ⟨inside, by rw [formatLayout_eq], ?_⟩
  simp only [formatLayout_eq, formattedDisk, lba2, lba4, lba5]
  rfl

/-- A partition whose 612 sectors behind the first are on the disk can be formatted. -/
theorem partitionFormat_of_le (stack : SuperBlock) (disk : Bytes) (part : Partition)
    (inside : (part.startLba + 1).toNat + 611 ≤ maxLba) :
    ∃ formatted, partitionFormat true stack disk part = .ok formatted := by
  have one : (1 : UInt32).toNat = 1 := rfl
  obtain ⟨lba2, -, lba4, lba5⟩ := toNat_startLba (show (part.startLba + 1).toNat ≤ maxLba by omega)
  have tableSects : (608 : UInt32).toNat = 608 := rfl
  rw [partitionFormat]
  simp only [formatLayout_eq, lba2, lba4, lba5, one, tableSects]
  have malloc : sysMallocUnchecked true = .ok fun _ => 0 := rfl
  rw [bind_ok (ideWrite_of_le (by decide) (by omega)), bind_ok malloc,
    bind_ok (ideWrite_of_le (by decide) (by omega)),
    bind_ok (ideWrite_of_le (by decide) (by omega)),
    bind_ok (ideWrite_of_le (by decide) (by omega)),
    bind_ok (ideWrite_of_le (by decide) (by omega))]
  exact ⟨_, rfl⟩

/-- `partition_format` returns exactly if it finds memory and these sectors are on the
disk. -/
theorem partitionFormat_returns_iff :
    (∃ formatted, partitionFormat room stack disk part = .ok formatted) ↔
      room = true ∧ (part.startLba + 1).toNat + 611 ≤ maxLba := by
  constructor
  · rintro ⟨formatted, run⟩
    have inside := (partitionFormat_eq_ok run).1
    obtain ⟨-, -, -, last⟩ := toNat_startLba inside
    rw [partitionFormat] at run
    obtain ⟨disk1, -, run⟩ := bind_eq_ok.mp run
    obtain ⟨buf, malloc, run⟩ := bind_eq_ok.mp run
    obtain ⟨disk2, -, run⟩ := bind_eq_ok.mp run
    obtain ⟨disk3, -, run⟩ := bind_eq_ok.mp run
    obtain ⟨disk4, -, run⟩ := bind_eq_ok.mp run
    obtain ⟨disk5, write, -⟩ := bind_eq_ok.mp run
    refine ⟨?_, ?_⟩
    · cases room with
      | true => rfl
      | false => cases malloc
    · have lastInside := (ideWrite_eq_ok write).1
      rw [formatLayout_eq] at lastInside
      exact last.symm.trans_le lastInside
  · rintro ⟨rfl, inside⟩
    exact partitionFormat_of_le stack disk part inside

theorem formattedDisk_superBlock (disk : Bytes) (base : Nat) (sb : SuperBlock) {offset : Nat}
    (inside : offset < 512) :
    formattedDisk disk base sb (512 * base + offset) = sb.encode offset := by
  simp only [formattedDisk]
  rw [Bytes.copy_of_outside _ _ (by omega), Bytes.copy_of_outside _ _ (by omega),
    Bytes.copy_of_outside _ _ (by omega), Bytes.copy_of_outside _ _ (by omega),
    Bytes.copy_of_inside _ _ _ (by omega) (by omega)]
  congr 1
  omega

/-- The block bitmap has the contents meant for the inode bitmap. -/
theorem formattedDisk_blockBitmap (disk : Bytes) (base : Nat) (sb : SuperBlock) {offset : Nat}
    (inside : offset < 512) :
    formattedDisk disk base sb (512 * (base + 1) + offset) = if offset = 0 then 1 else 0 := by
  simp only [formattedDisk]
  rw [Bytes.copy_of_outside _ _ (by omega), Bytes.copy_of_outside _ _ (by omega),
    Bytes.copy_of_inside _ _ _ (by omega) (by omega), Nat.zero_add, Nat.add_sub_cancel_left,
    inodeBitmapBuf, Bytes.fill_of_inside _ _ (by omega) (by omega)]
  split
  · next first =>
      rw [first]
      rfl
  · next later =>
      rw [Bytes.write8_of_ne _ _ later, Bytes.fill_of_inside _ _ (by omega) (by omega)]

/-- The inode bitmap is not written. -/
theorem formattedDisk_inodeBitmap (disk : Bytes) (base : Nat) (sb : SuperBlock) {offset : Nat}
    (inside : offset < 512) :
    formattedDisk disk base sb (512 * (base + 2) + offset) = disk (512 * (base + 2) + offset) := by
  simp only [formattedDisk]
  rw [Bytes.copy_of_outside _ _ (by omega), Bytes.copy_of_outside _ _ (by omega),
    Bytes.copy_of_outside _ _ (by omega), Bytes.copy_of_outside _ _ (by omega),
    Bytes.copy_of_outside _ _ (by omega)]

end

/-! ## What mounting finds -/

section

variable {room : Bool} {rooms : Fin 4 → Bool} {stack : SuperBlock} {disk disk' : Bytes}
  {part part' : Partition} {partName : String} {mounted : Mounted}

/-- What a call of `mount_partition` reads, if it mounts the partition. -/
theorem mountPartition_eq_ok (run : mountPartition rooms disk part partName = .ok (some mounted)) :
    mounted.sb =
        SuperBlock.decode (fun offset => disk (512 * (part.startLba + 1).toNat + offset)) ∧
      mounted.blockBitmap = ⟨(mounted.sb.blockBitmapSects * 512).toNat, 0⟩ ∧
      mounted.inodeBitmap = ⟨(mounted.sb.inodeBitmapSects * 512).toNat, 0⟩ ∧
      (∀ offset, offset < 512 * mounted.sb.blockBitmapSects.toNat →
        mounted.blockBits offset = disk (512 * mounted.sb.blockBitmapLba.toNat + offset)) ∧
      ∀ offset, offset < 512 * mounted.sb.inodeBitmapSects.toNat →
        mounted.inodeBits offset = disk (512 * mounted.sb.inodeBitmapLba.toNat + offset) := by
  rw [mountPartition] at run
  split at run
  · obtain ⟨buf, -, run⟩ := bind_eq_ok.mp run
    obtain ⟨_, -, run⟩ := bind_eq_ok.mp run
    obtain ⟨sbBuf, read1, run⟩ := bind_eq_ok.mp run
    obtain ⟨buf2, -, run⟩ := bind_eq_ok.mp run
    obtain ⟨blockBits, read2, run⟩ := bind_eq_ok.mp run
    obtain ⟨buf3, -, run⟩ := bind_eq_ok.mp run
    obtain ⟨inodeBits, read3, run⟩ := bind_eq_ok.mp run
    cases run
    refine ⟨SuperBlock.decode_congr fun query inside => ?_, rfl, rfl, fun offset inside => ?_,
      fun offset inside => ?_⟩
    · rw [(ideRead_eq_ok read1).2, Bytes.copy_of_inside _ _ _ (by omega) (by omega), Nat.sub_zero]
    · dsimp only at inside ⊢
      rw [(ideRead_eq_ok read2).2, Bytes.copy_of_inside _ _ _ (by omega) (by omega), Nat.sub_zero]
    · dsimp only at inside ⊢
      rw [(ideRead_eq_ok read3).2, Bytes.copy_of_inside _ _ _ (by omega) (by omega), Nat.sub_zero]
  · cases run

/-- What is mounted after formatting: the super block that was formatted, a block bitmap
with bit 0 set and no other, and an inode bitmap with what the disk held before. -/
theorem mountPartition_partitionFormat
    (format : partitionFormat room stack disk part = .ok (part', disk'))
    (mount : mountPartition rooms disk' part' partName = .ok (some mounted)) :
    (part.startLba + 1).toNat ≤ maxLba ∧ mounted.sb = (formatLayout stack part).sb ∧
      mounted.blockBitmap = ⟨512, 0⟩ ∧ mounted.inodeBitmap = ⟨512, 0⟩ ∧
      (∀ index, index < 4096 →
        mounted.blockBitmap.bit mounted.blockBits index = decide (index = 0)) ∧
      ∀ offset, offset < 512 →
        mounted.inodeBits offset = disk (512 * ((part.startLba + 1).toNat + 2) + offset) := by
  obtain ⟨inside, samePart, formatted⟩ := partitionFormat_eq_ok format
  obtain ⟨lba2, lba3, -, -⟩ := toNat_startLba inside
  obtain ⟨sb, blockBitmap, inodeBitmap, blocks, inodes⟩ := mountPartition_eq_ok mount
  have sameSb : mounted.sb = (formatLayout stack part).sb := by
    rw [sb, ← SuperBlock.decode_encode (formatLayout stack part).sb]
    refine SuperBlock.decode_congr fun query queryLt => ?_
    rw [formatted, samePart]
    exact formattedDisk_superBlock disk _ _ queryLt
  rw [sameSb, formatLayout_eq] at blocks inodes blockBitmap inodeBitmap
  dsimp only at blocks inodes blockBitmap inodeBitmap
  have bitmapLen : ((1 : UInt32) * 512).toNat = 512 := by decide
  have sects : (1 : UInt32).toNat = 1 := rfl
  rw [bitmapLen] at blockBitmap inodeBitmap
  rw [sects, lba2, formatted] at blocks
  rw [sects, lba3, formatted] at inodes
  refine ⟨inside, sameSb, blockBitmap, inodeBitmap, fun index indexLt => ?_,
    fun offset offsetLt => ?_⟩
  · rw [blockBitmap, Bitmap.bit, Bytes.bit, Nat.mul_zero, Nat.zero_add, blocks _ (by omega),
      formattedDisk_blockBitmap _ _ _ (by omega)]
    by_cases low : index / 8 = 0
    · rw [if_pos low, show index % 8 = index by omega]
      have small : index < 8 := by omega
      clear low indexLt
      decide +revert
    · rw [if_neg low]
      have later : index ≠ 0 := by omega
      simp [later]
  · rw [inodes _ (by omega), formattedDisk_inodeBitmap _ _ _ offsetLt]

/-- A partition that was formatted can be mounted under its name. -/
theorem mountPartition_of_le
    (format : partitionFormat room stack disk part = .ok (part', disk'))
    (inside : part.startLba.toNat + 613 ≤ maxLba + 1) :
    ∃ mounted, mountPartition (fun _ => true) disk' part' part.name = .ok (some mounted) := by
  obtain ⟨baseLe, samePart, formatted⟩ := partitionFormat_eq_ok format
  obtain ⟨lba2, lba3, -, -⟩ := toNat_startLba baseLe
  have one : (1 : UInt32).toNat = 1 := rfl
  have base : (part.startLba + 1).toNat ≤ part.startLba.toNat + 1 := by
    rw [UInt32.toNat_add, one]
    exact Nat.mod_le _ _
  have unchecked : sysMallocUnchecked true = .ok fun _ => 0 := rfl
  have checked : sysMallocOrPanic true = .ok fun _ => 0 := rfl
  have sb : SuperBlock.decode (Bytes.copy (Bytes.fill (fun _ => 0) 0 0 sectorSize) 0 disk'
      (512 * (part.startLba + 1).toNat) (512 * 1)) = (formatLayout stack part).sb := by
    rw [← SuperBlock.decode_encode (formatLayout stack part).sb]
    refine SuperBlock.decode_congr fun query queryLt => ?_
    rw [Bytes.copy_of_inside _ _ _ (by omega) (by omega), Nat.sub_zero, formatted]
    exact formattedDisk_superBlock disk _ _ queryLt
  rw [mountPartition, samePart, if_pos rfl, bind_ok unchecked, bind_ok checked,
    bind_ok (ideRead_of_le (by decide) (by dsimp only; omega)), sb, bind_ok checked]
  simp only [formatLayout_eq, lba2, lba3, one]
  rw [bind_ok (ideRead_of_le (by decide) (by omega)), bind_ok checked,
    bind_ok (ideRead_of_le (by decide) (by omega))]
  exact ⟨_, rfl⟩

end

/-- The partition after some calls of `block_bitmap_alloc`. -/
inductive Mounted.Later (mounted : Mounted) : Mounted → Prop where
  | now : Later mounted mounted
  | alloc {part next : Mounted} {lba : Option UInt32} :
      Later mounted part → blockBitmapAlloc part = .ok (lba, next) → Later mounted next

/-- The sectors of a partition. -/
def Partition.Contains (part : Partition) (lba : Nat) : Prop :=
  part.startLba.toNat ≤ lba ∧ lba < part.startLba.toNat + part.secCnt.toNat

/-- A partition is mounted as it was formatted. -/
structure MountedAsFormatted (part : Partition) (formatted : SuperBlock) (mounted : Mounted) :
    Prop where
  superBlock : mounted.sb = formatted
  secCnt : mounted.sb.secCnt = part.secCnt
  inodes : ∀ index, index < 8 * mounted.inodeBitmap.bitmapLen →
    (mounted.inodeBitmap.bit mounted.inodeBits index = true ↔ index = 0)
  blocks : ∀ index, index < 8 * mounted.blockBitmap.bitmapLen →
    (mounted.blockBitmap.bit mounted.blockBits index = true ↔
      index = 0 ∨ ¬part.Contains (mounted.sb.dataStartLba.toNat + index))
  allocated : ∀ now next lba, mounted.Later now → blockBitmapAlloc now = .ok (some lba, next) →
    mounted.sb.dataStartLba ≤ lba ∧ part.Contains lba.toNat

/-- Formatting and then mounting the partition succeed, and it is mounted as it was
formatted. -/
def FormatThenMount (room : Bool) (rooms : Fin 4 → Bool) (stack : SuperBlock) (disk : Bytes)
    (part : Partition) : Prop :=
  ∃ part' disk' mounted, partitionFormat room stack disk part = .ok (part', disk') ∧
    mountPartition rooms disk' part' part.name = .ok (some mounted) ∧
    MountedAsFormatted part (formatLayout stack part).sb mounted

/-- No partition is mounted as it was formatted.  The super block counts 4096 sectors
for each, and a partition with that many ends before the block of bit 4000, which the
block bitmap has clear. -/
theorem not_formatThenMount (room : Bool) (rooms : Fin 4 → Bool) (stack : SuperBlock)
    (disk : Bytes) (part : Partition) : ¬FormatThenMount room rooms stack disk part := by
  rintro ⟨part', disk', mounted, format, mount, faithful⟩
  obtain ⟨inside, sb, blockBitmap, -, blocks, -⟩ := mountPartition_partitionFormat format mount
  obtain ⟨-, -, -, data⟩ := toNat_startLba inside
  have secCnt : part.secCnt = 4096 := by
    rw [← faithful.secCnt, sb, formatLayout_eq]
  have beyond : ¬part.Contains (mounted.sb.dataStartLba.toNat + 4000) := by
    rw [Partition.Contains, secCnt, sb, formatLayout_eq]
    dsimp only
    rw [data, UInt32.toNat_add]
    have small := part.startLba.toNat_lt
    have literals : (1 : UInt32).toNat = 1 ∧ (4096 : UInt32).toNat = 4096 := ⟨rfl, rfl⟩
    simp only [literals]
    omega
  have set := (faithful.blocks 4000 (by rw [blockBitmap]; decide)).mpr (.inr beyond)
  rw [blocks 4000 (by decide)] at set
  cases set

/-- A partition of 20000 sectors on an empty disk is formatted and mounted, and counts
4096 sectors then. -/
theorem not_formatThenMount_large :
    (∃ formatted mounted,
      partitionFormat true (.decode fun _ => 0) (fun _ => 0) ⟨63, 20000, "sdb1"⟩ = .ok formatted ∧
        mountPartition (fun _ => true) formatted.2 formatted.1 "sdb1" = .ok (some mounted)) ∧
      ¬FormatThenMount true (fun _ => true) (.decode fun _ => 0) (fun _ => 0)
        ⟨63, 20000, "sdb1"⟩ := by
  constructor
  · obtain ⟨formatted, format⟩ := partitionFormat_of_le (.decode fun _ => 0) (fun _ => 0)
      ⟨63, 20000, "sdb1"⟩ (by decide)
    obtain ⟨mounted, mount⟩ := mountPartition_of_le format (by decide)
    exact ⟨formatted, mounted, format, mount⟩
  · rintro ⟨part', disk', mounted, format, mount, faithful⟩
    have sb := (mountPartition_partitionFormat format mount).2.1
    have secCnt := faithful.secCnt
    rw [sb, formatLayout_eq] at secCnt
    exact absurd secCnt (by decide)

/-- The first sector and the number of sectors of the boot sector, the super block, the
block bitmap, the inode bitmap, the inode table and the data blocks. -/
def Layout.regions (layout : Layout) : List (Nat × Nat) :=
  [ (layout.part.startLba.toNat, 1)
  , (layout.part.startLba.toNat + 1, 1)
  , (layout.sb.blockBitmapLba.toNat, layout.sb.blockBitmapSects.toNat)
  , (layout.sb.inodeBitmapLba.toNat, layout.sb.inodeBitmapSects.toNat)
  , (layout.sb.inodeTableLba.toNat, layout.sb.inodeTableSects.toNat)
  , (layout.sb.dataStartLba.toNat, layout.blockBitmapBitLen.toNat) ]

/-- The regions of a layout fit a partition. -/
structure LayoutFits (part : Partition) (layout : Layout) : Prop where
  consecutive : layout.regions.IsChain fun region next => region.1 + region.2 = next.1
  disjoint : layout.regions.Pairwise fun region other =>
    region.1 + region.2 ≤ other.1 ∨ other.1 + other.2 ≤ region.1
  inside : ∀ region ∈ layout.regions, part.startLba.toNat ≤ region.1 ∧
    region.1 + region.2 ≤ part.startLba.toNat + part.secCnt.toNat
  data : layout.sb.dataStartLba.toNat + layout.blockBitmapBitLen.toNat ≤
    part.startLba.toNat + part.secCnt.toNat
  bitmap : layout.blockBitmapBitLen.toNat ≤
    layout.sb.blockBitmapSects.toNat * bitsPerSector.toNat

/-- Formatting keeps to the partition, and keeps its description. -/
structure FormatsInside (room : Bool) (stack : SuperBlock) (disk : Bytes) (part : Partition) :
    Prop where
  fits : LayoutFits part (formatLayout stack part)
  secCnt : (formatLayout stack part).part.secCnt = part.secCnt
  writes : ∀ part' disk', partitionFormat room stack disk part = .ok (part', disk') →
    ∀ query, ¬part.Contains (query / 512) → disk' query = disk query

/-- The regions of a partition that does not reach the end of the address range. -/
theorem regions_formatLayout {part : Partition} (stack : SuperBlock)
    (below : part.startLba.toNat + 612 < 2 ^ 32) :
    (formatLayout stack part).regions =
      [ (part.startLba.toNat, 1)
      , (part.startLba.toNat + 1, 1)
      , (part.startLba.toNat + 2, 1)
      , (part.startLba.toNat + 3, 1)
      , (part.startLba.toNat + 4, 608)
      , (part.startLba.toNat + 612, 1217) ] := by
  have one : (1 : UInt32).toNat = 1 := rfl
  have small : ∀ word : UInt32, word.toNat ≤ 612 →
      (part.startLba + word).toNat = part.startLba.toNat + word.toNat := fun word inside => by
    rw [UInt32.toNat_add]
    exact Nat.mod_eq_of_lt (by omega)
  rw [formatLayout_eq]
  simp only [Layout.regions, UInt32.add_assoc, small _ (show (2 : UInt32).toNat ≤ 612 by decide),
    small _ (show (2 + 1 : UInt32).toNat ≤ 612 by decide),
    small _ (show (2 + (1 + 1) : UInt32).toNat ≤ 612 by decide),
    small _ (show (2 + (1 + (1 + 608)) : UInt32).toNat ≤ 612 by decide)]
  rfl

/-- The layout fits a partition of at least 1829 sectors, whatever its size. -/
theorem layoutFits_iff (stack : SuperBlock) (part : Partition) :
    LayoutFits part (formatLayout stack part) ↔
      part.startLba.toNat + 612 < 2 ^ 32 ∧ 1829 ≤ part.secCnt.toNat := by
  have small := part.startLba.toNat_lt
  have literals : (1 : UInt32).toNat = 1 ∧ (2 : UInt32).toNat = 2 ∧ (608 : UInt32).toNat = 608 ∧
      (1217 : UInt32).toNat = 1217 ∧ bitsPerSector.toNat = 4096 :=
    ⟨rfl, rfl, rfl, rfl, rfl⟩
  constructor
  · rintro ⟨consecutive, -, -, data, -⟩
    simp only [formatLayout_eq, Layout.regions, List.isChain_cons_cons, UInt32.toNat_add,
      literals] at consecutive data
    omega
  · rintro ⟨below, large⟩
    constructor
    · rw [regions_formatLayout stack below]
      simp
    · rw [regions_formatLayout stack below]
      simp
    · rw [regions_formatLayout stack below]
      simp
      omega
    · simp only [formatLayout_eq, UInt32.toNat_add, literals]
      omega
    · simp only [formatLayout_eq, literals]
      decide

/-- Formatting keeps to no partition: a layout that fits has 1829 sectors, and the
partition that keeps its count has 1218. -/
theorem not_formatsInside (room : Bool) (stack : SuperBlock) (disk : Bytes) (part : Partition) :
    ¬FormatsInside room stack disk part := by
  intro inside
  have large := ((layoutFits_iff stack part).mp inside.fits).2
  have secCnt : 1218 = part.secCnt := by
    rw [← inside.secCnt, formatLayout_eq]
  rw [← secCnt] at large
  exact absurd large (by decide)

/-- A partition of 1500 sectors, which is more than the metadata takes, has data blocks
behind its end, and 1218 sectors afterwards. -/
theorem not_formatsInside_small :
    ¬FormatsInside true (.decode fun _ => 0) (fun _ => 0) ⟨63, 1500, "sdb1"⟩ := by
  intro inside
  have data := inside.fits.data
  rw [formatLayout_eq] at data
  exact absurd data (by decide)

/-- The bits that the clearing loop leaves in the last byte: those behind the last bit
of the count. -/
theorem testBit_clearBits {lastBit : Nat} (lastLt : lastBit < 8) {query : Nat}
    (queryLt : query < 8) :
    (clearBits 0xff (lastBit + 1)).toNat.testBit query = decide (lastBit < query) := by
  decide +revert

section

variable {buf : Bytes} {blockBitmapBitLen : UInt32}

/-- The image in the bytes before the last byte of the count. -/
theorem blockBitmapBuf_of_lt {query : Nat} (before : query < blockBitmapBitLen.toNat / 8) :
    blockBitmapBuf buf blockBitmapBitLen query = if query =
      0 then buf 0 ||| 0x01 else buf query := by
  simp only [blockBitmapBuf]
  rw [Bytes.write8_of_ne _ _ (by omega), Bytes.fill_of_outside _ _ (.inl before)]
  split
  · next first =>
      rw [first]
      rfl
  · next later => exact Bytes.write8_of_ne _ _ later

/-- The last byte of the count. -/
theorem blockBitmapBuf_last (buf : Bytes) (blockBitmapBitLen : UInt32) :
    blockBitmapBuf buf blockBitmapBitLen (blockBitmapBitLen.toNat / 8) =
      clearBits 0xff (blockBitmapBitLen.toNat % 8 + 1) := by
  have filled : ∀ mem : Bytes, mem.fill (blockBitmapBitLen.toNat / 8) 0xff
      (sectorSize - blockBitmapBitLen.toNat / 8 % sectorSize) (blockBitmapBitLen.toNat / 8) =
        0xff :=
    fun mem => Bytes.fill_of_inside _ _ (Nat.le_refl _) (by simp only [sectorSize]; omega)
  simp only [blockBitmapBuf]
  rw [filled]
  exact if_pos rfl

/-- The bytes behind it are filled up to the end of its sector. -/
theorem blockBitmapBuf_of_gt {query : Nat} (after : blockBitmapBitLen.toNat / 8 < query)
    (inside : query < 512 * (blockBitmapBitLen.toNat / 4096 + 1)) :
    blockBitmapBuf buf blockBitmapBitLen query = 0xff := by
  simp only [blockBitmapBuf]
  rw [Bytes.write8_of_ne _ _ (by omega),
    Bytes.fill_of_inside _ _ (by omega) (by simp only [sectorSize]; omega)]

/-- The bits of the image, up to the end of the sector in which the count ends: bit 0,
unless the count ends in its byte, and the bits behind the one that the count names. -/
theorem bit_blockBitmapBuf {index : Nat}
    (zeroed : ∀ query, query < 512 * (blockBitmapBitLen.toNat / 4096 + 1) → buf query = 0)
    (inside : index < 4096 * (blockBitmapBitLen.toNat / 4096 + 1)) :
    (blockBitmapBuf buf blockBitmapBitLen).bit index =
      if index / 8 < blockBitmapBitLen.toNat / 8 then decide (index = 0)
      else decide (blockBitmapBitLen.toNat < index) := by
  rw [Bytes.bit]
  rcases Nat.lt_trichotomy (index / 8) (blockBitmapBitLen.toNat / 8) with before | last | after
  · rw [blockBitmapBuf_of_lt before, if_pos before, zeroed 0 (by omega),
      zeroed (index / 8) (by omega)]
    by_cases first : index / 8 = 0
    · rw [if_pos first, Nat.mod_eq_of_lt (by omega)]
      have small : index < 8 := by omega
      clear before first inside
      decide +revert
    · rw [if_neg first]
      have later : index ≠ 0 := by omega
      simp [later]
  · rw [last, blockBitmapBuf_last, if_neg (Nat.lt_irrefl _),
      testBit_clearBits (by omega) (by omega)]
    exact decide_eq_decide.mpr (by omega)
  · have large : blockBitmapBitLen.toNat < index := by omega
    rw [blockBitmapBuf_of_gt after (by omega), if_neg (by omega), decide_eq_true large]
    have odd : index % 8 < 8 := by omega
    generalize index % 8 = bitOdd at odd
    decide +revert

end

/-- The sectors that a block bitmap of `bitLen` bits takes are what a file system of so
many blocks needs: block 0 is taken, the other blocks are free, and no bit behind them. -/
def BlockBitmapImage (bitLen : Nat) (buf : Bytes) : Prop :=
  ∀ index, index < 4096 * ((bitLen + 4095) / 4096) →
    (buf.bit index = true ↔ index = 0 ∨ bitLen ≤ index)

/-- The image is right when the count fills its sectors.  In every other case the loop
that clears bits in the last byte clears the one behind the last block too. -/
theorem blockBitmapImage_iff {buf : Bytes} {blockBitmapBitLen : UInt32}
    (zeroed : ∀ query, query < 512 * ((blockBitmapBitLen.toNat + 4095) / 4096 + 1) →
      buf query = 0) :
    BlockBitmapImage blockBitmapBitLen.toNat (blockBitmapBuf buf blockBitmapBitLen) ↔
      blockBitmapBitLen.toNat % 4096 = 0 := by
  have cleared : ∀ query, query < 512 * (blockBitmapBitLen.toNat / 4096 + 1) → buf query = 0 :=
    fun query queryLt => zeroed query (by omega)
  constructor
  · intro image
    by_contra partly
    have beyond := (image blockBitmapBitLen.toNat (by omega)).mpr (.inr (Nat.le_refl _))
    rw [bit_blockBitmapBuf cleared (by omega), if_neg (Nat.lt_irrefl _)] at beyond
    simp at beyond
  · intro whole index indexLt
    rw [bit_blockBitmapBuf cleared (by omega), if_pos (by omega)]
    simp
    omega

/-- A block bitmap of two sectors. -/
theorem blockBitmapImage_two_sectors :
    BlockBitmapImage (8192 : UInt32).toNat (blockBitmapBuf (fun _ => 0) 8192) :=
  (blockBitmapImage_iff fun _ _ => rfl).mpr (by decide)

/-- The block bitmap of every partition that is formatted has 1217 bits, and bit 1217 is
clear in its image. -/
theorem not_blockBitmapImage_formatLayout :
    (formatLayout (.decode fun _ => 0) ⟨63, 20000, "sdb1"⟩).blockBitmapBitLen = 1217 ∧
      ¬BlockBitmapImage (1217 : UInt32).toNat (blockBitmapBuf (fun _ => 0) 1217) := by
  constructor
  · rw [formatLayout_eq]
  · intro image
    have beyond := (image 1217 (by decide)).mpr (.inr (by decide))
    rw [bit_blockBitmapBuf (fun _ _ => rfl) (by decide)] at beyond
    exact absurd beyond (by decide)

end Pumelo
