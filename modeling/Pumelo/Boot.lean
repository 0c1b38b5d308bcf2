import Mathlib.Data.UInt
import Pumelo.AtaDisk
import Pumelo.KernelHalf
import Pumelo.KernelInit

/-!
# From the disk to the kernel

The boot sector reads the loader and the kernel from the disk.  `kernel_init` then finds the
file that lies on the disk from the tenth sector on, and under the tables of `setup_page` the
segments it copies are at their addresses.
-/

namespace Pumelo

open Foundation PageWalk

/-- `LOADER_START_SECTOR` -/
def loaderStartSector : Nat := 0x2

/-- `LOADER_BASE_ADDR` -/
def loaderBaseAddr : Nat := 0x900

/-- `KERNEL_START_SECTOR` -/
def kernelStartSector : Nat := 0xa

/-- `rd_disk_m_16` up to its poll, with the block address in `%eax` and the count in `%cx`. -/
def rdDiskCommand (s : Io) (eax cx : Nat) : Io :=
  let s := s.outb 0x1f2 (.ofNat cx)
  let s := s.outb 0x1f3 (.ofNat eax)
  let eax := eax / 2 ^ 8
  let s := s.outb 0x1f4 (.ofNat eax)
  let eax := eax / 2 ^ 8
  let s := s.outb 0x1f5 (.ofNat eax)
  let eax := eax / 2 ^ 8
  let s := s.outb 0x1f6 (.ofNat eax &&& 0xf ||| 0xe0)
  s.outb 0x1f7 0x20

/-- `not_ready`, with what the status register gives each time it is read. -/
def notReady (status : Nat → UInt8) : (fuel read : Nat) → Except Fault Nat
  | 0, _ => .error .diverge
  | fuel + 1, read =>
      if status read &&& 0x88 = 0x08 then .ok (read + 1) else notReady status fuel (read + 1)

/-- `go_on_read`, with the turns that `loop` has left. A word goes to `%ds:%bx`. -/
def goOnRead (s : Io) (ds bx : Nat) : (turns : Nat) → Io
  | 0 => s
  | turns + 1 =>
      let (word, ata) := (s.ports 0x1f0).inw
      let mem := s.mem.write8 (16 * ds + bx) word.1
      let mem := mem.write8 (16 * ds + (bx + 1) % 2 ^ 16) word.2
      goOnRead { s with ports := Function.update s.ports 0x1f0 ata, mem } ds
        ((bx + 2) % 2 ^ 16) turns

/-- The turns of `loop` in 16-bit code. -/
def loopTurns16 (cx : Nat) : Nat := if cx = 0 then 2 ^ 16 else cx

/-- `rd_disk_m_16` -/
def rdDiskM16 (status : Nat → UInt8) (eax bx cx ds fuel read : Nat) (s : Io) :
    Except Fault (Nat × Io) := do
  let s := rdDiskCommand s eax cx
  let read ← notReady status fuel read
  return (read, goOnRead s ds bx (loopTurns16 (cx * 256 % 2 ^ 16)))

/-- The two calls of the boot sector. -/
def mbrLoad (status : Nat → UInt8) (s : Io) (fuel : Nat) : Except Fault Io := do
  let (read, s) ← rdDiskM16 status loaderStartSector loaderBaseAddr 0x8 0 fuel 0 s
  let (_, s) ← rdDiskM16 status kernelStartSector 0 127 0x7000 fuel read s
  return s

section

variable {s : Io} {status : Nat → UInt8} {lba cnt ds bx : Nat}

/-- The disk that the boot sector reads. -/
def Io.bootDisk (s : Io) : Bytes := s.drives 0x1f0 false

/-- The channel that the ports from 0x1f0 on lead to. -/
theorem outb_primary {reg : Nat} (inside : reg < 8) (byte : UInt8) : s.outb (0x1f0 + reg) byte =
    { s with ports := Function.update s.ports 0x1f0 ((s.ports 0x1f0).write reg byte) } := by
  have base : (0x1f0 + reg) / 8 * 8 = 0x1f0 ∧ (0x1f0 + reg) % 8 = reg := by omega
  simp only [Io.outb, base]

/-- The device register chooses the first drive, and no bit of the address. -/
theorem bootDev (high : UInt8) : (high &&& 0xf ||| 0xe0).toNat.testBit 4 = false ∧
    (high &&& 0xf ||| 0xe0).toNat % 16 = high.toNat % 16 := by
  have all : ∀ n < 256, (UInt8.ofNat n &&& 0xf ||| 0xe0).toNat.testBit 4 = false ∧
      (UInt8.ofNat n &&& 0xf ||| 0xe0).toNat % 16 = n % 16 := by
    decide +kernel
  have byte := all high.toNat high.toNat_lt
  rwa [UInt8.ofNat_toNat] at byte

/-- The primary channel behind the command. -/
theorem rdDiskCommand_eq (small : lba < 2 ^ 28) (positive : 0 < cnt) (few : cnt ≤ 256) :
    ((rdDiskCommand s lba cnt).ports 0x1f0).job = some ⟨false, false, 512 * lba, 256 * cnt⟩ ∧
      (rdDiskCommand s lba cnt).mem = s.mem ∧ (rdDiskCommand s lba cnt).drives = s.drives := by
  obtain ⟨chosen, high⟩ := bootDev (.ofNat (lba / 2 ^ 8 / 2 ^ 8 / 2 ^ 8))
  have command := fun (s : Io) (reg : Nat) (inside : reg < 8) => @outb_primary s reg inside
  simp only [rdDiskCommand, command _ 2 (by decide), command _ 3 (by decide),
    command _ 4 (by decide),
    command _ 5 (by decide), command _ 6 (by decide), command _ 7 (by decide), Function.update_self,
    Function.update_idem]
  have count : ({ s.ports 0x1f0 with
      sectCnt := .ofNat cnt
      lbaL := .ofNat lba
      lbaM := .ofNat (lba / 2 ^ 8)
      lbaH := .ofNat (lba / 2 ^ 8 / 2 ^ 8)
      dev := .ofNat (lba / 2 ^ 8 / 2 ^ 8 / 2 ^ 8) &&& 0xf ||| 0xe0 } : Ata).count = cnt :=
    IdeDisk.count_eq rfl positive few
  have address : ({ s.ports 0x1f0 with
      sectCnt := .ofNat cnt
      lbaL := .ofNat lba
      lbaM := .ofNat (lba / 2 ^ 8)
      lbaH := .ofNat (lba / 2 ^ 8 / 2 ^ 8)
      dev := .ofNat (lba / 2 ^ 8 / 2 ^ 8 / 2 ^ 8) &&& 0xf ||| 0xe0 } : Ata).lba = lba := by
    simp only [Ata.lba, high, UInt8.toNat_ofNat']
    omega
  refine ⟨?_, trivial, ?_⟩
  · simp only [Ata.write, Ata.start, if_true, count, address, Ata.chosen, chosen]
  · funext base
    by_cases same : base = 0x1f0
    · subst same
      simp [Io.drives, Ata.write, Ata.start]
    · simp [Io.drives, same]

/-- Words that stay in their segment are stored one after the other. -/
theorem goOnRead_eq {turns : Nat} (inside : bx + 2 * turns ≤ 2 ^ 16) :
    goOnRead s ds bx turns = { s with
      ports := Function.update s.ports 0x1f0 ((s.ports 0x1f0).insw s.mem (16 * ds + bx) turns).2
      mem := ((s.ports 0x1f0).insw s.mem (16 * ds + bx) turns).1 } := by
  induction turns generalizing s bx with
  | zero => simp only [goOnRead, Ata.insw, Function.update_eq_self]
  | succ turns ih =>
      rw [goOnRead, Ata.insw, Nat.mod_eq_of_lt (show bx + 1 < 2 ^ 16 by omega)]
      generalize (s.ports 0x1f0).inw = read
      dsimp only
      -- the offset wraps only behind the last word
      obtain last | more := Nat.eq_zero_or_pos turns
      · subst last
        rfl
      · rw [Nat.mod_eq_of_lt (show bx + 2 < 2 ^ 16 by omega), ih (by omega)]
        simp only [Function.update_self, Function.update_idem, Nat.add_assoc]

/-- The poll ends where the drive has data. -/
theorem notReady_returns (ready : ∀ read, ∃ later, read ≤ later ∧ status later &&& 0x88 = 0x08)
    (read : Nat) : ∃ later, Returns (fun fuel => notReady status fuel read) later := by
  obtain ⟨later, behind, data⟩ := ready read
  obtain ⟨distance, rfl⟩ := Nat.exists_eq_add_of_le behind
  clear behind
  induction distance generalizing read with
  | zero =>
      refine ⟨read + 1, 1, fun fuel positive => ?_⟩
      obtain ⟨fuel, rfl⟩ := Nat.exists_eq_succ_of_ne_zero (Nat.ne_of_gt positive)
      exact if_pos data
  | succ distance ih =>
      by_cases early : status read &&& 0x88 = 0x08
      · refine ⟨read + 1, 1, fun fuel positive => ?_⟩
        obtain ⟨fuel, rfl⟩ := Nat.exists_eq_succ_of_ne_zero (Nat.ne_of_gt positive)
        exact if_pos early
      · obtain ⟨later, enough, all⟩ := ih (read + 1) (by rwa [Nat.add_right_comm, Nat.add_assoc])
        refine ⟨later, enough + 1, fun fuel le => ?_⟩
        obtain ⟨fuel, rfl⟩ := Nat.exists_eq_succ_of_ne_zero (Nat.ne_zero_of_lt le)
        exact (if_neg early).trans (all fuel (Nat.le_of_succ_le_succ le))

/-- `rd_disk_m_16` copies sectors of the disk to memory. -/
theorem rdDiskM16_returns (ready : ∀ read, ∃ later, read ≤ later ∧ status later &&& 0x88 = 0x08)
    (small : lba < 2 ^ 28) (positive : 0 < cnt) (inside : bx + 512 * cnt ≤ 2 ^ 16) (read : Nat) :
    ∃ later s', Returns (fun fuel => rdDiskM16 status lba bx cnt ds fuel read s) (later, s') ∧
      s'.mem = s.mem.copy (16 * ds + bx) s.bootDisk (512 * lba) (512 * cnt) ∧
      s'.drives = s.drives := by
  obtain ⟨later, enough, polled⟩ := notReady_returns ready read
  obtain ⟨job, mem, drives⟩ := @rdDiskCommand_eq s lba cnt small positive (by omega)
  have turns : loopTurns16 (cnt * 256 % 2 ^ 16) = 256 * cnt := by
    rw [Nat.mod_eq_of_lt (by omega), loopTurns16, if_neg (by omega), Nat.mul_comm]
  have contents : ((rdDiskCommand s lba cnt).ports 0x1f0).drive false = s.bootDisk :=
    congrFun (congrFun drives 0x1f0) false
  have two : 2 * (256 * cnt) = 512 * cnt := by omega
  have job : ((rdDiskCommand s lba cnt).ports 0x1f0).job =
      some ⟨false, false, 512 * lba, 256 * cnt + 0⟩ := job
  have read := @Ata.insw_eq _ (rdDiskCommand s lba cnt).mem (16 * ds + bx) _ _ _ _ job
  refine ⟨later, _, ⟨enough, fun fuel le => bind_ok (polled fuel le)⟩, ?_, ?_⟩
  · rw [turns, goOnRead_eq (by omega), read, mem, contents, two]
  · rw [turns, goOnRead_eq (by omega), ← drives]
    funext base
    by_cases same : base = 0x1f0
    · subst same
      simp [Io.drives, read]
    · simp [Io.drives, same]

/-- The boot sector leaves the loader and the kernel where they are expected. -/
theorem mbrLoad_returns (ready : ∀ read, ∃ later, read ≤ later ∧ status later &&& 0x88 = 0x08) :
    ∃ s', Returns (mbrLoad status s) s' ∧ s'.drives = s.drives ∧
      s'.mem = (s.mem.copy loaderBaseAddr s.bootDisk (512 * loaderStartSector) 4096).copy
        kernelBaseAddr s.bootDisk (512 * kernelStartSector) (512 * 127) := by
  obtain ⟨later, s₁, ⟨enough, first⟩, mem, drives⟩ :=
    @rdDiskM16_returns s status 0x2 0x8 0 0x900 ready (by decide) (by decide) (by decide) 0
  obtain ⟨last, s₂, ⟨enough', second⟩, mem', drives'⟩ :=
    @rdDiskM16_returns s₁ status 0xa 127 0x7000 0 ready (by decide) (by decide) (by decide) later
  have disk : s₁.bootDisk = s.bootDisk := congrFun (congrFun drives 0x1f0) false
  refine ⟨s₂, ⟨max enough enough', fun fuel le => ?_⟩, drives'.trans drives, ?_⟩
  · exact (bind_ok (first fuel (le_of_max_le_left le))).trans
      (bind_ok (second fuel (le_of_max_le_right le)))
  · rw [mem', mem, disk]
    rfl

end

/-! ## The tables of the loader -/

theorem createPte_entry (ram : Words) {count index : Nat} (inside : index < count) :
    createPte ram count (0x101000 + 4 * index) = 7 + 0x1000 * index := by
  induction count with
  | zero => exact absurd inside (Nat.not_lt_zero index)
  | succ count ih =>
      rw [createPte]
      by_cases same : index = count
      · rw [same, Words.write_self]
      · rw [Words.write_of_ne _ _ (by omega)]
        exact ih (by omega)

/-- The first page table maps the first megabyte. -/
theorem setupPage_pte (ram : Words) {index : Nat} (inside : index < 256) :
    setupPage ram (0x101000 + 4 * index) = 7 + 0x1000 * index := by
  rw [setupPage, createKernelPde_of_outside _ (by omega), createPte_entry _ inside]

/-- The first megabyte is at its own addresses and from 0xc0000000 on. -/
theorem walk_setupPage (ram : Words) {vaddr : Nat}
    (mapped : vaddr < 0x100000 ∨ 0xc0000000 ≤ vaddr ∧ vaddr < 0xc0100000) :
    walk (setupPage ram) 0x100000 vaddr = some (vaddr % 0xc0000000) := by
  have dir : frameOf 0x100000 = 0x100000 := by decide
  have first : dirIndex vaddr = 0 ∨ dirIndex vaddr = 768 := by
    rw [dirIndex]
    omega
  have table : setupPage ram (pdeSlot 0x100000 vaddr) = 0x101007 := by
    rw [pdeSlot, dir, setupPage_entry ram (by omega), if_pos first]
  have small : tableIndex vaddr < 256 := by
    rw [tableIndex]
    omega
  have slot : pteSlot (setupPage ram) 0x100000 vaddr = some (0x101000 + 4 * tableIndex vaddr) := by
    rw [pteSlot, table]
    rfl
  have entry := setupPage_pte ram small
  have present : Present (7 + 0x1000 * tableIndex vaddr) := by
    rw [Present]
    omega
  rw [walk, slot, Option.bind_some, entry, if_pos present]
  refine congrArg some ?_
  simp only [frameOf, tableIndex, pageOffset]
  omega

/-- The file that begins in the tenth sector, as it is in memory behind the boot sector. -/
def fileOnDisk (disk : Bytes) : Bytes :=
  fun addr => disk (512 * kernelStartSector + (addr - kernelBaseAddr))

/-- The image is as it is in another memory. -/
def SameImage (size : Nat) (mem cur : Bytes) : Prop :=
  ∀ addr, kernelBaseAddr ≤ addr → addr < kernelBaseAddr + size → cur addr = mem addr

section

variable {mem cur : Bytes} {size k : Nat}

theorem SameImage.word (same : SameImage size mem cur) {offset : Nat} (inside : offset + 4 ≤ size) :
    cur.read32 (kernelBaseAddr + offset) = mem.read32 (kernelBaseAddr + offset) :=
  Bytes.read32_congr fun query lower upper => same query (by omega) (by omega)

theorem SameImage.half (same : SameImage size mem cur) {offset : Nat} (inside : offset + 2 ≤ size) :
    read16 cur (kernelBaseAddr + offset) = read16 mem (kernelBaseAddr + offset) := by
  rw [read16, read16, same _ (by omega) (by omega), same _ (by omega) (by omega)]

/-- The header says the same. -/
theorem SameImage.elfHeader (same : SameImage size mem cur) (header : 52 ≤ size) :
    phnum cur = phnum mem ∧ (∀ k, phdrOffset cur k = phdrOffset mem k) ∧
      read16 cur (kernelBaseAddr + 42) = read16 mem (kernelBaseAddr + 42) := by
  have entry := same.half (show 42 + 2 ≤ size by omega)
  refine ⟨same.half (by omega), fun k => ?_, entry⟩
  rw [phdrOffset, phdrOffset, entry, same.word (by omega)]

/-- So does every program header in the table. -/
theorem SameImage.phdr (same : SameImage size mem cur) (image : ElfImage mem size)
    (inside : k < phnum mem) : phdr cur k = phdr mem k := by
  obtain ⟨-, offsets, -⟩ := same.elfHeader image.header
  have entry := image.entry
  have table : phdrOffset mem k + 32 ≤ size := by
    calc phdrOffset mem k + 32 ≤ phdrOffset mem (k + 1) := by
          rw [phdrOffset_succ]
          omega
      _ ≤ phdrOffset mem (phnum mem) := phdrOffset_le mem inside
      _ ≤ size := image.table
  have field : ∀ offset, offset ≤ 28 → cur.read32 (kernelBaseAddr + phdrOffset mem k + offset) =
      mem.read32 (kernelBaseAddr + phdrOffset mem k + offset) := by
    intro offset small
    rw [Nat.add_assoc]
    exact same.word (by omega)
  have type : cur.read32 (kernelBaseAddr + phdrOffset mem k) =
      mem.read32 (kernelBaseAddr + phdrOffset mem k) := same.word (by omega)
  simp only [Pumelo.phdr, offsets, type, field 4 (by omega), field 8 (by omega),
    field 16 (by omega),
    field 20 (by omega)]

/-- What makes an image well-formed is in its bytes. -/
theorem ElfImage.congr (image : ElfImage mem size) (same : SameImage size mem cur) :
    ElfImage cur size := by
  obtain ⟨num, offsets, entry⟩ := same.elfHeader image.header
  have headers : ∀ k < phnum mem, Pumelo.phdr cur k = Pumelo.phdr mem k := fun k => same.phdr image
  constructor
  · exact image.low
  · exact image.header
  · exact num ▸ image.some
  · exact entry ▸ image.entry
  · rw [num, offsets]
    exact image.table
  · intro k inside loadable
    rw [num] at inside
    rw [headers k inside] at loadable ⊢
    exact image.source k inside loadable
  · intro k inside loadable
    rw [num] at inside
    rw [headers k inside] at loadable ⊢
    exact image.room k inside loadable
  · intro k inside loadable
    rw [num] at inside
    rw [headers k inside] at loadable ⊢
    exact image.lands k inside loadable
  · intro k inside j before loadable loadable'
    rw [num] at inside
    rw [headers k inside] at loadable' ⊢
    rw [headers j (by omega)] at loadable ⊢
    exact image.apart k inside j before loadable loadable'

/-- The loop comes to every header but the last, up to the first `PT_NULL`. -/
theorem copied_of_lt (two : 2 ≤ phnum mem) (inside : k + 1 < phnum mem)
    (noNull : ∀ j ≤ k, (phdr mem j).type ≠ ptNull) : Copied mem k := by
  refine ⟨⟨?_, fun j before => noNull j (Nat.le_of_lt before)⟩, noNull k (Nat.le_refl k)⟩
  rw [loopTurns, if_neg (by omega)]
  omega

end

/-- From any disk the boot sector reads the loader's and the kernel's sectors; where the latter
begin with a well-formed file of at most 127 sectors with two headers or more, each of them
`PT_LOAD`, `PT_NULL` or without file bytes, and the loader has written nothing there, `kernel_init`
returns, and the file bytes of every loadable segment but the last header's, and in front of the
first `PT_NULL`, are at their virtual addresses. -/
theorem boot_loads (s : Io) {status : Nat → UInt8}
    (ready : ∀ read, ∃ later, read ≤ later ∧ status later &&& 0x88 = 0x08) {size : Nat}
    (image : ElfImage (fileOnDisk s.bootDisk) size) (fits : size ≤ 512 * 127)
    (two : 2 ≤ phnum (fileOnDisk s.bootDisk))
    (plain : ∀ k < phnum (fileOnDisk s.bootDisk), (phdr (fileOnDisk s.bootDisk) k).Loadable ∨
      (phdr (fileOnDisk s.bootDisk) k).type = ptNull ∨ (phdr (fileOnDisk s.bootDisk) k).filesz = 0)
    (ram : Words) :
    ∃ s', Returns (mbrLoad status s) s' ∧
      (∀ i < 4096, s'.mem (loaderBaseAddr + i) = s.bootDisk (512 * loaderStartSector + i)) ∧
      ∀ cur, SameImage (512 * 127) s'.mem cur → ∃ mem, kernelInit cur = .ok mem ∧
        ∀ k, k + 1 < phnum (fileOnDisk s.bootDisk) →
          (∀ j ≤ k, (phdr (fileOnDisk s.bootDisk) j).type ≠ ptNull) →
          (phdr (fileOnDisk s.bootDisk) k).Loadable →
          ∀ i < (phdr (fileOnDisk s.bootDisk) k).filesz, ∃ addr,
            walk (setupPage ram) 0x100000 ((phdr (fileOnDisk s.bootDisk) k).vaddr + i) = some addr ∧
            mem addr = s.bootDisk
              (512 * kernelStartSector + (phdr (fileOnDisk s.bootDisk) k).offset + i) := by
  obtain ⟨s', returns, -, mem⟩ := mbrLoad_returns (s := s) ready
  refine ⟨s', returns, fun i inside => ?_, fun cur untouched => ?_⟩
  · rw [mem, Bytes.copy_of_outside _ _ (by simp only [loaderBaseAddr, kernelBaseAddr]; omega),
      Bytes.copy_of_inside _ _ _ (Nat.le_add_right _ _) (by omega), Nat.add_sub_cancel_left]
  · generalize onDisk : fileOnDisk s.bootDisk = file at image two plain ⊢
    have same : SameImage size file cur := by
      intro addr lower upper
      rw [untouched addr lower (by omega), mem, Bytes.copy_of_inside _ _ _ lower (by omega),
        ← onDisk]
      rfl
    obtain ⟨num, -⟩ := same.elfHeader image.header
    have headers : ∀ k < phnum file, phdr cur k = phdr file k := fun k => same.phdr image
    have image' := image.congr same
    have two' : 2 ≤ phnum cur := num ▸ two
    have plain' : ∀ k < phnum cur, (phdr cur k).Loadable ∨ (phdr cur k).type = ptNull ∨
        (phdr cur k).filesz = 0 := by
      intro k inside
      rw [num] at inside
      rw [headers k inside]
      exact plain k inside
    obtain ⟨keeps, accessible⟩ := image'.keeps_of_plain two' plain'
    obtain ⟨n, run, copied⟩ := kernelInit_placed image' keeps accessible
    refine ⟨_, run, fun k inside noNull loadable i within => ?_⟩
    have here := headers k (by omega)
    have lands := image.lands k (by omega) loadable
    have room := image.room k (by omega) loadable
    have source := image.source k (by omega) loadable
    have reached : Copied cur k := copied_of_lt two' (by omega) fun j before => by
      rw [headers j (by omega)]
      exact noNull j before
    have byte : placed cur n ((phdr cur k).addr + i) =
        cur (kernelBaseAddr + (phdr cur k).offset + i) :=
      image'.placed_file two' plain' copied (by omega) (here ▸ loadable) reached (here ▸ within)
    rw [here] at byte
    refine ⟨(phdr file k).addr + i, ?_, ?_⟩
    · have mapped := lands.mapped
      unfold Mapped at mapped
      rw [walk_setupPage ram (by omega)]
      refine congrArg some ?_
      simp only [Phdr.addr]
      omega
    · rw [byte, same _ (by omega) (by omega), ← onDisk, fileOnDisk, Nat.add_assoc kernelBaseAddr,
        Nat.add_sub_cancel_left, Nat.add_assoc]

/-- A loadable segment and a `PT_GNU_STACK` header. -/
def textAndStack : Bytes :=
  imageOf [⟨1, 0, 0xc0001500, 52, 52⟩, ⟨0x6474e551, 0, 0, 0, 0⟩]

theorem elfImage_textAndStack : ElfImage textAndStack 116 := by
  constructor <;> decide +kernel

/-- A disk with a small kernel. -/
def textDisk : Bytes := fun addr => textAndStack (addr - 512 * kernelStartSector + kernelBaseAddr)

/-- A machine that starts from it. -/
def textOnDisk : Io where
  ports _ := ⟨0, 0, 0, 0, 0, fun _ => textDisk, none⟩
  mem _ := 0
  sent := []

theorem fileOnDisk_textDisk : SameImage 116 textAndStack (fileOnDisk textDisk) := by
  intro addr lower upper
  have back : 512 * kernelStartSector + (addr - kernelBaseAddr) - 512 * kernelStartSector +
      kernelBaseAddr = addr := by omega
  rw [fileOnDisk, textDisk, back]

/-- Its first segment is where it was linked to. -/
theorem boot_loads_textOnDisk : ∃ s' mem addr, Returns (mbrLoad (fun _ => 0x58) textOnDisk) s' ∧
    kernelInit s'.mem = .ok mem ∧ walk (setupPage fun _ => 0) 0x100000 0xc0001500 = some addr ∧
    mem addr = textOnDisk.bootDisk 5120 := by
  have image := elfImage_textAndStack.congr fileOnDisk_textDisk
  have num : phnum (fileOnDisk textDisk) = 2 := by decide +kernel
  have header : phdr (fileOnDisk textDisk) 0 = ⟨1, 0, 0xc0001500, 52, 52⟩ := by
    decide +kernel
  have last : (phdr (fileOnDisk textDisk) 1).filesz = 0 := by decide +kernel
  have data : (0x58 : UInt8) &&& 0x88 = 0x08 := by decide
  have ready : ∀ read, ∃ later, read ≤ later ∧
      (fun _ : Nat => (0x58 : UInt8)) later &&& 0x88 = 0x08 :=
    fun read => ⟨read, Nat.le_refl read, data⟩
  have disk : textOnDisk.bootDisk = textDisk := by
    simp only [Io.bootDisk, Io.drives, textOnDisk]
  have boots := @boot_loads textOnDisk _ ready 116
  rw [disk] at boots ⊢
  obtain ⟨s', returns, -, loads⟩ := boots image (by decide) (by omega) (fun k inside => by
    obtain rfl | rfl : k = 0 ∨ k = 1 := by omega
    · exact .inl (header ▸ rfl)
    · exact .inr (.inr last)) fun _ => 0
  obtain ⟨mem, run, loaded⟩ := loads s'.mem fun _ _ _ => rfl
  have segment := loaded 0 (by omega) (fun j le => by
    obtain rfl := Nat.le_zero.mp le
    rw [header]
    decide) (header ▸ rfl) 0 (by rw [header]; decide)
  rw [header] at segment
  obtain ⟨addr, walked, byte⟩ := segment
  exact ⟨s', mem, addr, returns, run, walked, byte⟩

end Pumelo
