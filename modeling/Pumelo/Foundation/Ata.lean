import Pumelo.Foundation.Bytes

/-!
# An ATA channel

The registers of a channel and its two drives.  A command moves as many sectors as the
sector count says, where 0 stands for 256, from the 28-bit block address on that the
registers hold, on the drive that bit 4 of the device register chooses; the data register
passes them on word by word.
-/

namespace Foundation

/-- A command under way: which drive it reads or writes, at which byte, and how many words
are left. -/
structure AtaJob where
  writes : Bool
  drive : Bool
  pos : Nat
  left : Nat
  deriving DecidableEq, Repr

/-- The registers that a driver writes, and the contents of the two drives. -/
structure Ata where
  sectCnt : UInt8
  lbaL : UInt8
  lbaM : UInt8
  lbaH : UInt8
  dev : UInt8
  drive : Bool → Bytes
  job : Option AtaJob

namespace Ata

/-- How many sectors a command moves. -/
def count (a : Ata) : Nat := if a.sectCnt.toNat = 0 then 256 else a.sectCnt.toNat

/-- The block address in the registers. -/
def lba (a : Ata) : Nat :=
  a.lbaL.toNat + 2 ^ 8 * a.lbaM.toNat + 2 ^ 16 * a.lbaH.toNat + 2 ^ 24 * (a.dev.toNat % 16)

/-- The drive that the device register chooses. -/
def chosen (a : Ata) : Bool := a.dev.toNat.testBit 4

/-- A command begins. -/
def start (a : Ata) (writes : Bool) : Ata :=
  { a with job := some ⟨writes, a.chosen, 512 * a.lba, 256 * a.count⟩ }

/-- A byte is written to a register: READ SECTORS and WRITE SECTORS begin a transfer. -/
def write (a : Ata) (reg : Nat) (byte : UInt8) : Ata :=
  match reg with
  | 2 => { a with sectCnt := byte }
  | 3 => { a with lbaL := byte }
  | 4 => { a with lbaM := byte }
  | 5 => { a with lbaH := byte }
  | 6 => { a with dev := byte }
  | 7 => if byte = 0x20 then a.start false else if byte = 0x30 then a.start true else a
  | _ => a

/-- The next word of a read, with its low byte first. -/
def inw (a : Ata) : (UInt8 × UInt8) × Ata :=
  match a.job with
  | some ⟨false, drive, pos, left + 1⟩ =>
      ((a.drive drive pos, a.drive drive (pos + 1)),
        { a with job := some ⟨false, drive, pos + 2, left⟩ })
  | _ => ((0xff, 0xff), a)

/-- The next word of a write. -/
def outw (a : Ata) (word : UInt8 × UInt8) : Ata :=
  match a.job with
  | some ⟨true, drive, pos, left + 1⟩ => { a with
      drive := Function.update a.drive drive
        (((a.drive drive).write8 pos word.1).write8 (pos + 1) word.2)
      job := some ⟨true, drive, pos + 2, left⟩ }
  | _ => a

/-- `rep insw`: words are stored from an address on. -/
def insw (a : Ata) (mem : Bytes) (addr : Nat) : (cnt : Nat) → Bytes × Ata
  | 0 => (mem, a)
  | cnt + 1 =>
      let (word, a) := a.inw
      insw a ((mem.write8 addr word.1).write8 (addr + 1) word.2) (addr + 2) cnt

/-- `rep outsw` -/
def outsw (a : Ata) (mem : Bytes) (addr : Nat) : (cnt : Nat) → Ata
  | 0 => a
  | cnt + 1 => outsw (a.outw (mem addr, mem (addr + 1))) mem (addr + 2) cnt

variable {a : Ata} {mem : Bytes} {addr pos cnt left : Nat} {drive : Bool}

/-- A word is two bytes. -/
theorem write8_write8 (mem src : Bytes) (addr pos : Nat) :
    (mem.write8 addr (src pos)).write8 (addr + 1) (src (pos + 1)) = mem.copy addr src pos 2 := by
  funext query
  simp only [Bytes.write8, Bytes.copy]
  split
  · next second =>
      rw [if_pos (by omega)]
      congr 1
      omega
  · split
    · next first =>
        rw [if_pos (by omega)]
        congr 1
        omega
    · rw [if_neg (by omega)]

/-- As many words as are left at least are read off the drive. -/
theorem insw_eq (job : a.job = some ⟨false, drive, pos, cnt + left⟩) :
    a.insw mem addr cnt = (mem.copy addr (a.drive drive) pos (2 * cnt),
      { a with job := some ⟨false, drive, pos + 2 * cnt, left⟩ }) := by
  induction cnt generalizing a mem addr pos with
  | zero =>
      rw [Nat.zero_add] at job
      rw [insw, Nat.mul_zero, Bytes.copy_zero, Nat.add_zero, ← job]
  | succ cnt ih =>
      have job : a.job = some ⟨false, drive, pos, (cnt + left) + 1⟩ := by
        rw [job, Nat.add_right_comm]
      have word : a.inw = ((a.drive drive pos, a.drive drive (pos + 1)),
          { a with job := some ⟨false, drive, pos + 2, cnt + left⟩ }) := by
        simp only [inw, job]
      rw [insw]
      simp only [word]
      rw [ih rfl, write8_write8, Bytes.copy_copy, Nat.mul_succ, Nat.add_comm 2, Nat.add_assoc,
        Nat.add_comm 2]

/-- As many words as are left at least are written to the drive. -/
theorem outsw_eq (job : a.job = some ⟨true, drive, pos, cnt + left⟩) :
    a.outsw mem addr cnt = { a with
      drive := Function.update a.drive drive ((a.drive drive).copy pos mem addr (2 * cnt))
      job := some ⟨true, drive, pos + 2 * cnt, left⟩ } := by
  induction cnt generalizing a addr pos with
  | zero =>
      rw [Nat.zero_add] at job
      rw [outsw, Nat.mul_zero, Bytes.copy_zero, Nat.add_zero, ← job, Function.update_eq_self]
  | succ cnt ih =>
      have job : a.job = some ⟨true, drive, pos, (cnt + left) + 1⟩ := by
        rw [job, Nat.add_right_comm]
      have word : a.outw (mem addr, mem (addr + 1)) = { a with
          drive := Function.update a.drive drive ((a.drive drive).copy pos mem addr 2)
          job := some ⟨true, drive, pos + 2, cnt + left⟩ } := by
        simp only [outw, job, write8_write8]
      rw [outsw, word, ih rfl]
      simp only [Function.update_self, Function.update_idem, Bytes.copy_copy]
      rw [Nat.mul_succ, Nat.add_comm 2, Nat.add_assoc, Nat.add_comm 2]

end Ata

end Foundation
