import Pumelo.Foundation.Ata
import Pumelo.Ide

/-!
# Disk transfers through the device

`ide_read` and `ide_write` with the registers that they write and the words that they
move, on the channels that the ports lead to.  The disk answers every command: the
semaphore and `busy_wait` are where a call waits for it.

A state keeps the commands that were sent, and is there when a call stops at an assertion.
A call that returns does to the contents of the disk and of the buffer what the model
without a device says.
-/

namespace Pumelo

open Foundation

/-- `CMD_READ_SECTOR` -/
def cmdReadSector : UInt8 := 0x20

/-- `CMD_WRITE_SECTOR` -/
def cmdWriteSector : UInt8 := 0x30

/-- A command as the channel gets it, with the address and the count in its registers. -/
structure AtaCommand where
  portBase : Nat
  cmd : UInt8
  drive : Bool
  lba : Nat
  count : Nat
  deriving DecidableEq, Repr

/-- The channels at their port bases, the memory, and the commands sent so far. -/
structure Io where
  ports : Nat → Ata
  mem : Bytes
  sent : List AtaCommand

/-- `outb`: eight registers follow a port base. -/
def Io.outb (s : Io) (port : Nat) (byte : UInt8) : Io :=
  let base := port / 8 * 8
  { s with ports := Function.update s.ports base ((s.ports base).write (port % 8) byte) }

/-- `struct disk`, as far as a transfer uses it, with the port base of its channel. -/
structure IdeDisk where
  portBase : Nat
  devNo : UInt8
  attached : portBase = 0x1f0 ∨ portBase = 0x170

/-- What is on all disks, by port base and drive. -/
def Io.drives (s : Io) (base : Nat) : Bool → Bytes := (s.ports base).drive

namespace IdeDisk

variable (hd : IdeDisk)

/-- `hd->dev_no == 1 ? BIT_DEV_DEV : 0` -/
def bitDevDev : UInt8 := if hd.devNo = 1 then 0x10 else 0

/-- `select_disk` -/
def selectDisk (s : Io) : Io := s.outb (hd.portBase + 6) (0xa0 ||| 0x40 ||| hd.bitDevDev)

/-- `select_sector` -/
def selectSector (lba : Nat) (secCnt : UInt8) (s : Io) : Except Fault Unit × Io :=
  match Pumelo.selectSector lba secCnt.toNat with
  | .error fault => (.error fault, s)
  | .ok () =>
      let s := s.outb (hd.portBase + 2) secCnt
      let s := s.outb (hd.portBase + 3) (.ofNat lba)
      let s := s.outb (hd.portBase + 4) (.ofNat (lba / 2 ^ 8))
      let s := s.outb (hd.portBase + 5) (.ofNat (lba / 2 ^ 16))
      (.ok (), s.outb (hd.portBase + 6) (0xa0 ||| 0x40 ||| hd.bitDevDev ||| .ofNat (lba / 2 ^ 24)))

/-- `cmd_out` -/
def cmdOut (cmd : UInt8) (s : Io) : Io :=
  let ata := s.ports hd.portBase
  let command : AtaCommand := ⟨hd.portBase, cmd, ata.chosen, ata.lba, ata.count⟩
  { s with sent := s.sent ++ [command] }.outb (hd.portBase + 7) cmd

/-- `read_from_sector` -/
def readFromSector (buf : Nat) (secCnt : UInt8) (s : Io) : Io :=
  let (mem, ata) := (s.ports hd.portBase).insw s.mem buf (sizeInByte secCnt.toNat / 2)
  { s with ports := Function.update s.ports hd.portBase ata, mem }

/-- `write_to_sector` -/
def writeToSector (buf : Nat) (secCnt : UInt8) (s : Io) : Io :=
  let ata := (s.ports hd.portBase).outsw s.mem buf (sizeInByte secCnt.toNat / 2)
  { s with ports := Function.update s.ports hd.portBase ata }

/-- The loop of a transfer, where `move` is `read_from_sector` or `write_to_sector`. The
assertion bounds the sectors done, so that the sums stay below 2^32. -/
def transfer (cmd : UInt8) (move : Nat → UInt8 → Io → Io) (lba buf secCnt secsDone : Nat)
    (s : Io) : Except Fault Unit × Io :=
  if _ : secsDone < secCnt then
    let op := secsOp secCnt secsDone
    match hd.selectSector (lba + secsDone) (.ofNat op) s with
    | (.error fault, s) => (.error fault, s)
    | (.ok (), s) =>
        let s := hd.cmdOut cmd s
        let s := move ((buf + secsDone * 512) % 2 ^ 32) (.ofNat op) s
        transfer cmd move lba buf secCnt (secsDone + op) s
  else (.ok (), s)
termination_by secCnt - secsDone
decreasing_by
  show secCnt - (secsDone + secsOp secCnt secsDone) < _
  rw [secsOp]
  split <;> omega

/-- A transfer with its assertions. -/
def request (cmd : UInt8) (move : Nat → UInt8 → Io → Io) (lba buf secCnt : Nat) (s : Io) :
    Except Fault Unit × Io :=
  match (do
    assert (lba ≤ maxLba) "lba <= max_lba"
    assert (secCnt > 0) "sec_cnt > 0" : Except Fault Unit) with
  | .error fault => (.error fault, s)
  | .ok () => hd.transfer cmd move lba buf secCnt 0 (hd.selectDisk s)

/-- `ide_read` -/
def ideRead (lba buf secCnt : Nat) (s : Io) : Except Fault Unit × Io :=
  hd.request cmdReadSector hd.readFromSector lba buf secCnt s

/-- `ide_write` -/
def ideWrite (lba buf secCnt : Nat) (s : Io) : Except Fault Unit × Io :=
  hd.request cmdWriteSector hd.writeToSector lba buf secCnt s

/-- The drive that the device register chooses for this disk. -/
def slave : Bool := decide (hd.devNo = 1)

/-- What is on the disk. -/
def contents (s : Io) : Bytes := s.drives hd.portBase hd.slave

/-- A channel behind `select_sector`. -/
def aimed (lba : Nat) (secCnt : UInt8) (ata : Ata) : Ata :=
  { ata with
    sectCnt := secCnt
    lbaL := .ofNat lba
    lbaM := .ofNat (lba / 2 ^ 8)
    lbaH := .ofNat (lba / 2 ^ 16)
    dev := 0xa0 ||| 0x40 ||| hd.bitDevDev ||| .ofNat (lba / 2 ^ 24) }

/-- A channel behind `cmd_out`: it moves `op` sectors from `lba` on. -/
def started (lba op : Nat) (writes : Bool) (ata : Ata) : Ata :=
  { hd.aimed lba (.ofNat op) ata with job := some ⟨writes, hd.slave, 512 * lba, 256 * op⟩ }

/-- The state behind `cmd_out`. -/
def issued (cmd : UInt8) (writes : Bool) (lba op : Nat) (s : Io) : Io :=
  { s with
    ports := Function.update s.ports hd.portBase (hd.started lba op writes (s.ports hd.portBase))
    sent := s.sent ++ [⟨hd.portBase, cmd, hd.slave, lba, op⟩] }

/-- The contents of all disks with those of this one replaced. -/
def replace (drives : Nat → Bool → Bytes) (disk : Bytes) : Nat → Bool → Bytes :=
  Function.update drives hd.portBase (Function.update (drives hd.portBase) hd.slave disk)

variable {hd : IdeDisk} {s : Io} {lba buf secCnt secsDone op : Nat}

/-- The eight registers of a channel. -/
theorem outb_portBase {reg : Nat} (inside : reg < 8) (byte : UInt8) :
    s.outb (hd.portBase + reg) byte =
      { s with
        ports := Function.update s.ports hd.portBase ((s.ports hd.portBase).write reg byte) } := by
  have base : (hd.portBase + reg) / 8 * 8 = hd.portBase ∧ (hd.portBase + reg) % 8 = reg := by
    rcases hd.attached with primary | secondary <;> omega
  simp only [Io.outb, base]

/-- The device register chooses the drive of the disk. -/
theorem testBit_dev :
    (0xa0 ||| 0x40 ||| hd.bitDevDev ||| .ofNat 0 : UInt8).toNat.testBit 4 = hd.slave ∧
    (0xa0 ||| 0x40 ||| hd.bitDevDev ||| .ofNat 0 : UInt8).toNat % 16 = 0 := by
  rw [bitDevDev, slave]
  by_cases second : hd.devNo = 1
  · rw [if_pos second, decide_eq_true second]
    decide
  · rw [if_neg second, decide_eq_false second]
    decide

theorem aimed_lba (hd : IdeDisk) (ata : Ata) (secCnt : UInt8) (inside : lba ≤ maxLba) :
    (hd.aimed lba secCnt ata).lba = lba ∧ (hd.aimed lba secCnt ata).chosen = hd.slave := by
  rw [maxLba] at inside
  have high : lba / 2 ^ 24 = 0 := by omega
  constructor
  · simp only [Ata.lba, aimed, high, testBit_dev, UInt8.toNat_ofNat']
    omega
  · simp only [Ata.chosen, aimed, high, testBit_dev]

/-- The byte that a count is passed on as stands for the count. -/
theorem count_eq {ata : Ata} (sectCnt : ata.sectCnt = .ofNat op) (positive : 0 < op)
    (small : op ≤ 256) : ata.count = op := by
  rw [Ata.count, sectCnt, UInt8.toNat_ofNat']
  split <;> omega

/-- A command for sectors whose first is on the disk is sent. -/
theorem selectSector_of_le (secCnt : UInt8) (inside : lba ≤ maxLba) :
    hd.selectSector lba secCnt s =
      (.ok (), { s with
        ports := Function.update s.ports hd.portBase
          (hd.aimed lba secCnt (s.ports hd.portBase)) }) := by
  rw [selectSector, Pumelo.selectSector_of_le inside (by have := secCnt.toNat_lt; omega)]
  simp only [outb_portBase (show 2 < 8 by decide), outb_portBase (show 3 < 8 by decide),
    outb_portBase (show 4 < 8 by decide), outb_portBase (show 5 < 8 by decide),
    outb_portBase (show 6 < 8 by decide), Function.update_self, Function.update_idem]
  rfl

/-- A command for sectors whose first is not on the disk stops the call. -/
theorem selectSector_of_gt (secCnt : UInt8) (outside : maxLba < lba) :
    hd.selectSector lba secCnt s = (.error (.panic "assertion failed: lba <= max_lba"), s) := by
  rw [selectSector, Pumelo.selectSector,
    bind_error (assert_of_not (Nat.not_le.mpr outside) "lba <= max_lba")]
  rfl

theorem cmdOut_aimed {cmd : UInt8} {writes : Bool}
    (starts : ∀ ata : Ata, ata.write 7 cmd = ata.start writes) (positive : 0 < op)
    (small : op ≤ 256) (inside : lba ≤ maxLba) :
    hd.cmdOut cmd { s with
        ports := Function.update s.ports hd.portBase
          (hd.aimed lba (.ofNat op) (s.ports hd.portBase)) } =
      hd.issued cmd writes lba op s := by
  obtain ⟨address, chosen⟩ := hd.aimed_lba (s.ports hd.portBase) (.ofNat op) inside
  have count : (hd.aimed lba (.ofNat op) (s.ports hd.portBase)).count = op :=
    count_eq rfl positive small
  simp only [cmdOut, outb_portBase (show 7 < 8 by decide), Function.update_self,
    Function.update_idem, starts, Ata.start, address, chosen, count, started, issued]

theorem size_eq (positive : 0 < op) (small : op ≤ 256) :
    sizeInByte (UInt8.ofNat op).toNat / 2 = 256 * op := by
  rw [UInt8.toNat_ofNat', sizeInByte_mod positive small]
  omega

/-- A read fills the buffer with the sectors. -/
theorem readFromSector_issued (s : Io) (cmd : UInt8) (lba addr : Nat) (positive : 0 < op)
    (small : op ≤ 256) :
    (hd.readFromSector addr (.ofNat op) (hd.issued cmd false lba op s)).mem =
        s.mem.copy addr (hd.contents s) (512 * lba) (512 * op) ∧
      (hd.readFromSector addr (.ofNat op) (hd.issued cmd false lba op s)).drives = s.drives := by
  have job : (hd.started lba op false (s.ports hd.portBase)).job =
      some ⟨false, hd.slave, 512 * lba, 256 * op + 0⟩ := rfl
  simp only [readFromSector, issued, Function.update_self, size_eq positive small,
    Ata.insw_eq job, Function.update_idem]
  constructor
  · rw [show 2 * (256 * op) = 512 * op by omega]
    rfl
  · funext base
    by_cases same : base = hd.portBase
    · subst same
      simp [Io.drives, started, aimed]
    · simp [Io.drives, same]

/-- A write replaces the sectors by the contents of the buffer. -/
theorem writeToSector_issued (s : Io) (cmd : UInt8) (lba addr : Nat) (positive : 0 < op)
    (small : op ≤ 256) :
    (hd.writeToSector addr (.ofNat op) (hd.issued cmd true lba op s)).mem = s.mem ∧
      (hd.writeToSector addr (.ofNat op) (hd.issued cmd true lba op s)).drives =
        hd.replace s.drives ((hd.contents s).copy (512 * lba) s.mem addr (512 * op)) := by
  have job : (hd.started lba op true (s.ports hd.portBase)).job =
      some ⟨true, hd.slave, 512 * lba, 256 * op + 0⟩ := rfl
  simp only [writeToSector, issued, Function.update_self, size_eq positive small,
    Ata.outsw_eq job, Function.update_idem]
  refine ⟨trivial, ?_⟩
  rw [show 2 * (256 * op) = 512 * op by omega]
  funext base
  by_cases same : base = hd.portBase
  · subst same
    simp [Io.drives, started, aimed, replace, contents]
  · simp [Io.drives, replace, same]

/-! ## A whole request -/

section

variable {cmd : UInt8} {writes : Bool} {move : Nat → UInt8 → Io → Io}

theorem secsOp_spec (more : secsDone < secCnt) :
    0 < secsOp secCnt secsDone ∧ secsOp secCnt secsDone ≤ 256 ∧
      secsDone + secsOp secCnt secsDone ≤ secCnt := by
  rw [secsOp]
  split <;> omega

/-- One turn of the loop, if the first sector of the chunk is on the disk. -/
theorem transfer_of_le (starts : ∀ ata : Ata, ata.write 7 cmd = ata.start writes)
    (more : secsDone < secCnt) (inside : lba + secsDone ≤ maxLba) :
    hd.transfer cmd move lba buf secCnt secsDone s =
      hd.transfer cmd move lba buf secCnt (secsDone + secsOp secCnt secsDone)
        (move ((buf + secsDone * 512) % 2 ^ 32) (.ofNat (secsOp secCnt secsDone))
          (hd.issued cmd writes (lba + secsDone) (secsOp secCnt secsDone) s)) := by
  obtain ⟨positive, small, -⟩ := secsOp_spec more
  rw [transfer, dif_pos more]
  simp only [selectSector_of_le _ inside, cmdOut_aimed starts positive small inside]

/-- What holds of the sectors done after every command holds of all sectors at the end, and
a request whose sectors are on the disk comes to its end. -/
theorem transfer_rule (starts : ∀ ata : Ata, ata.write 7 cmd = ata.start writes)
    (Done : Nat → Io → Prop)
    (step : ∀ secsDone op s, 0 < op → op ≤ 256 → secsDone + op ≤ secCnt → Done secsDone s →
      Done (secsDone + op) (move ((buf + secsDone * 512) % 2 ^ 32) (.ofNat op)
        (hd.issued cmd writes (lba + secsDone) op s)))
    (inside : lba + secCnt ≤ maxLba + 1) (begun : secsDone ≤ secCnt) (done : Done secsDone s) :
    ∃ s', hd.transfer cmd move lba buf secCnt secsDone s = (.ok (), s') ∧ Done secCnt s' := by
  induction less : secCnt - secsDone using Nat.strong_induction_on generalizing secsDone s with
  | _ left ih =>
      by_cases more : secsDone < secCnt
      · obtain ⟨positive, small, most⟩ := secsOp_spec more
        rw [transfer_of_le starts more (by omega)]
        exact ih _ (by omega) most (step _ _ _ positive small most done) rfl
      · have all : secsDone = secCnt := by omega
        rw [transfer, dif_neg more]
        exact ⟨s, rfl, all ▸ done⟩

/-- The assertions of a request pass. -/
theorem request_of_le (positive : 0 < secCnt) (inside : lba ≤ maxLba) :
    hd.request cmd move lba buf secCnt s =
      hd.transfer cmd move lba buf secCnt 0 (hd.selectDisk s) := by
  rw [request, bind_ok (assert_of inside _), assert_of positive]

/-- A request for a first sector that is not on the disk stops at once. -/
theorem request_of_gt (outside : maxLba < lba) :
    hd.request cmd move lba buf secCnt s =
      (.error (.panic "assertion failed: lba <= max_lba"), s) := by
  rw [request, bind_error (assert_of_not (Nat.not_le.mpr outside) "lba <= max_lba")]
  rfl

end

/-- Choosing the drive changes no contents. -/
theorem selectDisk_keeps (hd : IdeDisk) (s : Io) :
    (hd.selectDisk s).mem = s.mem ∧ (hd.selectDisk s).drives = s.drives ∧
      (hd.selectDisk s).sent = s.sent := by
  rw [selectDisk, outb_portBase (by decide)]
  refine ⟨rfl, funext fun base => ?_, rfl⟩
  by_cases same : base = hd.portBase
  · subst same
    simp [Io.drives, Ata.write]
  · simp [Io.drives, same]

@[simp] theorem replace_self (drives : Nat → Bool → Bytes) (disk : Bytes) :
    hd.replace drives disk hd.portBase hd.slave = disk := by
  simp [replace]

@[simp] theorem replace_replace (drives : Nat → Bool → Bytes) (disk disk' : Bytes) :
    hd.replace (hd.replace drives disk) disk' = hd.replace drives disk' := by
  simp [replace]

@[simp] theorem replace_contents : hd.replace s.drives (hd.contents s) = s.drives := by
  simp [replace, contents]

/-- A read fills the buffer with the sectors of the request, and changes no disk. -/
theorem ideRead_of_le (hd : IdeDisk) (s : Io) (positive : 0 < secCnt)
    (inside : lba + secCnt ≤ maxLba + 1)
    (fits : buf + 512 * secCnt ≤ 2 ^ 32) :
    ∃ s', hd.ideRead lba buf secCnt s = (.ok (), s') ∧
      s'.mem = s.mem.copy buf (hd.contents s) (512 * lba) (512 * secCnt) ∧
        s'.drives = s.drives := by
  obtain ⟨memSelected, drivesSelected, -⟩ := hd.selectDisk_keeps s
  rw [ideRead, request_of_le positive (by omega)]
  refine transfer_rule (fun ata => (rfl : ata.write 7 cmdReadSector = ata.start false))
    (fun secsDone s' => s'.mem = s.mem.copy buf (hd.contents s) (512 * lba) (512 * secsDone) ∧
      s'.drives = s.drives) ?_ inside (Nat.zero_le _) ?_
  · rintro secsDone op s' positive small most ⟨mem, drives⟩
    obtain ⟨mem', drives'⟩ := hd.readFromSector_issued s' cmdReadSector (lba + secsDone)
      ((buf + secsDone * 512) % 2 ^ 32) positive small
    have addr : (buf + secsDone * 512) % 2 ^ 32 = buf + 512 * secsDone := by omega
    have same : hd.contents s' = hd.contents s := by rw [contents, drives, contents]
    refine ⟨?_, drives'.trans drives⟩
    rw [mem', mem, same, addr, Nat.mul_add, Bytes.copy_copy, Nat.mul_add]
  · rw [memSelected, Nat.mul_zero, Bytes.copy_zero]
    exact ⟨rfl, drivesSelected⟩

/-- A write replaces the sectors of the request by the buffer, and no others, and leaves the
memory alone. -/
theorem ideWrite_of_le (hd : IdeDisk) (s : Io) (positive : 0 < secCnt)
    (inside : lba + secCnt ≤ maxLba + 1)
    (fits : buf + 512 * secCnt ≤ 2 ^ 32) :
    ∃ s', hd.ideWrite lba buf secCnt s = (.ok (), s') ∧ s'.mem = s.mem ∧
      s'.drives =
        hd.replace s.drives ((hd.contents s).copy (512 * lba) s.mem buf (512 * secCnt)) := by
  obtain ⟨memSelected, drivesSelected, -⟩ := hd.selectDisk_keeps s
  rw [ideWrite, request_of_le positive (by omega)]
  refine transfer_rule (fun ata => (rfl : ata.write 7 cmdWriteSector = ata.start true))
    (fun secsDone s' => s'.mem = s.mem ∧ s'.drives =
      hd.replace s.drives ((hd.contents s).copy (512 * lba) s.mem buf (512 * secsDone)))
    ?_ inside (Nat.zero_le _) ?_
  · rintro secsDone op s' positive small most ⟨mem, drives⟩
    obtain ⟨mem', drives'⟩ := hd.writeToSector_issued s' cmdWriteSector (lba + secsDone)
      ((buf + secsDone * 512) % 2 ^ 32) positive small
    have addr : (buf + secsDone * 512) % 2 ^ 32 = buf + 512 * secsDone := by omega
    have written : hd.contents s' =
        (hd.contents s).copy (512 * lba) s.mem buf (512 * secsDone) := by
      rw [contents, drives, replace_self]
    refine ⟨mem'.trans mem, ?_⟩
    rw [drives', drives, written, mem, addr, replace_replace, Nat.mul_add, Bytes.copy_copy,
      Nat.mul_add]
  · rw [Nat.mul_zero, Bytes.copy_zero, replace_contents]
    exact ⟨memSelected, drivesSelected⟩

/-- The model without a device writes the same. -/
theorem ideWrite_refines (positive : 0 < secCnt) (inside : lba + secCnt ≤ maxLba + 1)
    (fits : buf + 512 * secCnt ≤ 2 ^ 32) :
    ∃ s', hd.ideWrite lba buf secCnt s = (.ok (), s') ∧
      Pumelo.ideWrite (hd.contents s) lba (fun offset => s.mem (buf + offset)) secCnt =
        .ok (hd.contents s') := by
  obtain ⟨s', run, -, drives⟩ := hd.ideWrite_of_le s positive inside fits
  refine ⟨s', run, ?_⟩
  have written : hd.contents s' = (hd.contents s).copy (512 * lba) s.mem buf (512 * secCnt) := by
    rw [contents, drives, replace_self]
  rw [Pumelo.ideWrite_of_le positive inside, written]
  congr 1
  funext query
  simp only [Bytes.copy, Nat.zero_add]

/-- The model without a device reads the same. -/
theorem ideRead_refines (positive : 0 < secCnt) (inside : lba + secCnt ≤ maxLba + 1)
    (fits : buf + 512 * secCnt ≤ 2 ^ 32) :
    ∃ s' buf', hd.ideRead lba buf secCnt s = (.ok (), s') ∧
      Pumelo.ideRead (hd.contents s) lba (fun offset => s.mem (buf + offset)) secCnt = .ok buf' ∧
      ∀ offset, s'.mem (buf + offset) = buf' offset := by
  obtain ⟨s', run, mem, -⟩ := hd.ideRead_of_le s positive inside fits
  refine ⟨s', _, run, Pumelo.ideRead_of_le positive inside, fun offset => ?_⟩
  rw [mem]
  simp only [Bytes.copy, Nat.sub_zero, Nat.zero_add, Nat.zero_le, true_and]
  by_cases moved : offset < 512 * secCnt
  · rw [if_pos (by omega), if_pos moved, Nat.add_sub_cancel_left]
  · rw [if_neg (by omega), if_neg moved]

/-- A write has changed the sectors from `lba` on to the contents of the buffer, in order,
and nothing else. -/
structure Wrote (hd : IdeDisk) (lba buf secCnt : Nat) (s s' : Io) : Prop where
  sectors : ∀ offset, offset < 512 * secCnt →
    hd.contents s' (512 * lba + offset) = s.mem (buf + offset)
  outside : ∀ query, query / 512 < lba ∨ lba + secCnt ≤ query / 512 →
    hd.contents s' query = hd.contents s query
  others : ∀ base drive, base ≠ hd.portBase ∨ drive ≠ hd.slave →
    s'.drives base drive = s.drives base drive
  mem : s'.mem = s.mem

/-- A read has filled the buffer with the sectors from `lba` on, in order, and changed
nothing else. -/
structure Filled (hd : IdeDisk) (lba buf secCnt : Nat) (s s' : Io) : Prop where
  buffer : ∀ offset, offset < 512 * secCnt →
    s'.mem (buf + offset) = hd.contents s (512 * lba + offset)
  outside : ∀ query, query < buf ∨ buf + 512 * secCnt ≤ query → s'.mem query = s.mem query
  drives : s'.drives = s.drives

theorem ideWrite_wrote (s : Io) (positive : 0 < secCnt) (inside : lba + secCnt ≤ maxLba + 1)
    (fits : buf + 512 * secCnt ≤ 2 ^ 32) :
    ∃ s', hd.ideWrite lba buf secCnt s = (.ok (), s') ∧ hd.Wrote lba buf secCnt s s' := by
  obtain ⟨s', run, mem, drives⟩ := hd.ideWrite_of_le s positive inside fits
  have contents' : hd.contents s' =
      (hd.contents s).copy (512 * lba) s.mem buf (512 * secCnt) := by
    rw [contents, drives, replace_self]
  refine ⟨s', run, fun offset offsetLt => ?_, fun query away => ?_, fun base drive other => ?_, mem⟩
  · rw [contents', Bytes.copy_of_inside _ _ _ (by omega) (by omega), Nat.add_sub_cancel_left]
  · rw [contents', Bytes.copy_of_outside _ _ (by omega)]
  · rw [drives, replace]
    by_cases sameBase : base = hd.portBase
    · subst sameBase
      have otherDrive : drive ≠ hd.slave := other.resolve_left (fun ne => ne rfl)
      rw [Function.update_self, Function.update_of_ne otherDrive]
    · rw [Function.update_of_ne sameBase]

theorem ideRead_filled (s : Io) (positive : 0 < secCnt) (inside : lba + secCnt ≤ maxLba + 1)
    (fits : buf + 512 * secCnt ≤ 2 ^ 32) :
    ∃ s', hd.ideRead lba buf secCnt s = (.ok (), s') ∧ hd.Filled lba buf secCnt s s' := by
  obtain ⟨s', run, mem, drives⟩ := hd.ideRead_of_le s positive inside fits
  refine ⟨s', run, fun offset offsetLt => ?_, fun query away => ?_, drives⟩
  · rw [mem, Bytes.copy_of_inside _ _ _ (by omega) (by omega), Nat.add_sub_cancel_left]
  · rw [mem, Bytes.copy_of_outside _ _ away]

/-- Sectors that are on the disk are written and read in order, and read back as they were
written. -/
theorem ide_roundTrip (hd : IdeDisk) (s : Io) {buf2 : Nat} (positive : 0 < secCnt)
    (inside : lba + secCnt - 1 ≤ maxLba) (fits : buf + 512 * secCnt ≤ 2 ^ 32)
    (fits2 : buf2 + 512 * secCnt ≤ 2 ^ 32) :
    (∃ s', hd.ideWrite lba buf secCnt s = (.ok (), s') ∧ hd.Wrote lba buf secCnt s s') ∧
      (∃ s', hd.ideRead lba buf2 secCnt s = (.ok (), s') ∧ hd.Filled lba buf2 secCnt s s') ∧
      ∀ s', hd.ideWrite lba buf secCnt s = (.ok (), s') →
        ∃ s'', hd.ideRead lba buf2 secCnt s' = (.ok (), s'') ∧
          ∀ offset, offset < 512 * secCnt → s''.mem (buf2 + offset) = s.mem (buf + offset) := by
  have inside : lba + secCnt ≤ maxLba + 1 := by omega
  refine ⟨ideWrite_wrote s positive inside fits, ideRead_filled s positive inside fits2,
    fun s' run => ?_⟩
  obtain ⟨written, run', wrote⟩ := hd.ideWrite_wrote s positive inside fits
  have same : written = s' := by
    rw [run] at run'
    exact (Prod.mk.inj run').2.symm
  subst same
  obtain ⟨s'', read, filled⟩ := hd.ideRead_filled written positive inside fits2
  refine ⟨s'', read, fun offset offsetLt => ?_⟩
  rw [filled.buffer offset offsetLt, wrote.sectors offset offsetLt]

/-- A request has been rejected before it had any effect. -/
structure RejectedWhole (s : Io) (outcome : Except Fault Unit × Io) : Prop where
  stops : ∃ text, outcome.1 = .error (.panic ("assertion failed: " ++ text))
  sent : outcome.2.sent = s.sent
  mem : outcome.2.mem = s.mem
  drives : outcome.2.drives = s.drives

section

variable {cmd : UInt8} {writes : Bool} {move : Nat → UInt8 → Io → Io}

/-- No command is taken back. -/
theorem sent_transfer (starts : ∀ ata : Ata, ata.write 7 cmd = ata.start writes)
    (keeps : ∀ buf secCnt s, (move buf secCnt s).sent = s.sent) :
    s.sent.length ≤ (hd.transfer cmd move lba buf secCnt secsDone s).2.sent.length := by
  induction less : secCnt - secsDone using Nat.strong_induction_on generalizing secsDone s with
  | _ left ih =>
      by_cases more : secsDone < secCnt
      · by_cases inside : lba + secsDone ≤ maxLba
        · obtain ⟨positive, -, -⟩ := secsOp_spec more
          rw [transfer_of_le starts more inside]
          refine Nat.le_trans ?_ (ih _ (by omega) rfl)
          rw [keeps, issued, List.length_append]
          exact Nat.le_add_right _ _
        · rw [transfer, dif_pos more]
          simp only [selectSector_of_gt _ (Nat.not_le.mp inside)]
          exact Nat.le_refl _
      · rw [transfer, dif_neg more]

/-- The first command of a request is sent if its first sector is on the disk. -/
theorem sent_transfer_first (hd : IdeDisk) (s : Io) (buf : Nat)
    (starts : ∀ ata : Ata, ata.write 7 cmd = ata.start writes)
    (keeps : ∀ buf secCnt s, (move buf secCnt s).sent = s.sent) (positive : 0 < secCnt)
    (inside : lba ≤ maxLba) :
    s.sent.length < (hd.transfer cmd move lba buf secCnt 0 s).2.sent.length := by
  rw [transfer_of_le starts positive inside]
  refine Nat.lt_of_lt_of_le ?_ (sent_transfer starts keeps)
  rw [keeps, issued, List.length_append]
  exact Nat.lt_succ_self _

/-- A request is rejected whole exactly when its first sector is not on the disk.  Otherwise
the command for its first chunk is sent, wherever the chunk ends. -/
theorem rejectedWhole_request (starts : ∀ ata : Ata, ata.write 7 cmd = ata.start writes)
    (keeps : ∀ buf secCnt s, (move buf secCnt s).sent = s.sent) (positive : 0 < secCnt) :
    RejectedWhole s (hd.request cmd move lba buf secCnt s) ↔ maxLba < lba := by
  constructor
  · intro rejected
    by_contra inside
    have le := Nat.not_lt.mp inside
    have grown := hd.sent_transfer_first (hd.selectDisk s) buf starts keeps positive le
    rw [← request_of_le positive le, rejected.sent, (hd.selectDisk_keeps s).2.2] at grown
    exact Nat.lt_irrefl _ grown
  · intro outside
    rw [request_of_gt outside]
    exact ⟨⟨"lba <= max_lba", rfl⟩, rfl, rfl, rfl⟩

end

theorem rejectedWhole_ideRead (hd : IdeDisk) (s : Io) (buf : Nat) (positive : 0 < secCnt) :
    RejectedWhole s (hd.ideRead lba buf secCnt s) ↔ maxLba < lba :=
  rejectedWhole_request (fun ata => (rfl : ata.write 7 cmdReadSector = ata.start false))
    (fun _ _ _ => rfl) positive

theorem rejectedWhole_ideWrite (hd : IdeDisk) (s : Io) (buf : Nat) (positive : 0 < secCnt) :
    RejectedWhole s (hd.ideWrite lba buf secCnt s) ↔ maxLba < lba :=
  rejectedWhole_request (fun ata => (rfl : ata.write 7 cmdWriteSector = ata.start true))
    (fun _ _ _ => rfl) positive

/-- A read and a write are rejected whole exactly when their first sector is not on the
disk, wherever their last sector is. -/
theorem rejectedWhole_iff (hd : IdeDisk) (s : Io) (buf : Nat) (positive : 0 < secCnt) :
    RejectedWhole s (hd.ideRead lba buf secCnt s) ∧
        RejectedWhole s (hd.ideWrite lba buf secCnt s) ↔ maxLba < lba := by
  rw [hd.rejectedWhole_ideRead s buf positive, hd.rejectedWhole_ideWrite s buf positive, and_self]

end IdeDisk

/-- Channels with empty disks, and an empty memory. -/
def Io.blank : Io where
  ports _ :=
    { sectCnt := 0, lbaL := 0, lbaM := 0, lbaH := 0, dev := 0, drive := fun _ _ => 0, job := none }
  mem _ := 0
  sent := []

/-- The slave of the first channel. -/
def firstSlave : IdeDisk where
  portBase := 0x1f0
  devNo := 1
  attached := .inl rfl

/-- Transfers of 300 sectors, by two commands each. -/
theorem ide_roundTrip_two_commands :
    (∃ s', firstSlave.ideWrite 7 0xc0100000 300 Io.blank = (.ok (), s') ∧
        firstSlave.Wrote 7 0xc0100000 300 Io.blank s') ∧
      ∃ s', firstSlave.ideRead 7 0xc0200000 300 Io.blank = (.ok (), s') ∧
        firstSlave.Filled 7 0xc0200000 300 Io.blank s' := by
  have whole := firstSlave.ide_roundTrip Io.blank (show 0 < 300 by decide)
    (show 7 + 300 - 1 ≤ maxLba by decide) (show 0xc0100000 + 512 * 300 ≤ 2 ^ 32 by decide)
    (show 0xc0200000 + 512 * 300 ≤ 2 ^ 32 by decide)
  exact ⟨whole.1, whole.2.1⟩

theorem rejectedWhole_behind_end :
    IdeDisk.RejectedWhole Io.blank (firstSlave.ideRead 163840 0xc0100000 2 Io.blank) :=
  ((firstSlave.rejectedWhole_iff Io.blank 0xc0100000 (by decide)).mpr (by decide)).1

/-- Two sectors from the last one on: the command for both is sent. -/
theorem not_rejectedWhole_at_end :
    maxLba < maxLba + 2 - 1 ∧
      ¬IdeDisk.RejectedWhole Io.blank (firstSlave.ideRead maxLba 0xc0100000 2 Io.blank) := by
  refine ⟨by decide, fun rejected => ?_⟩
  have outside := (firstSlave.rejectedWhole_ideRead Io.blank 0xc0100000 (by decide)).mp rejected
  exact Nat.lt_irrefl _ outside

end Pumelo
