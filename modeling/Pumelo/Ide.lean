import Pumelo.Machine

/-!
# Disk transfers

`ide_read` and `ide_write` of `ide.c` on the contents of one disk, a sequence of
bytes in which sector `lba` starts at `512 * lba`.  A transfer is cut into commands
of at most 256 sectors; a count of 256 is passed on as the byte 0.  The disk
answers every command.
-/

namespace Pumelo

open Foundation

@[simp] def sectorSize : Nat := 512

/-- `max_lba` -/
@[simp] def maxLba : Nat := 80 * 1024 * 1024 / 512 - 1

/-- `select_sector`, where `secCnt` is a byte. -/
def selectSector (lba secCnt : Nat) : Except Fault Unit := do
  assert (lba ≤ maxLba) "lba <= max_lba"
  assert (secCnt ≤ 255) "sec_cnt <= 255"

/-- `size_in_byte` of `read_from_sector` and `write_to_sector`. -/
def sizeInByte (secCnt : Nat) : Nat :=
  if secCnt = 0 then 256 * 512 else 512 * secCnt

/-- `secs_op` -/
def secsOp (secCnt secsDone : Nat) : Nat :=
  if secsDone + 256 ≤ secCnt then 256 else secCnt - secsDone

/-- The loop of a transfer, where `move` is what one command moves behind the sectors
done.  The assertion bounds them, so that the sums stay below 2^32. -/
def transfer {σ : Type*} (lba secCnt : Nat) (move : (secsDone size : Nat) → σ → σ)
    (secsDone : Nat) (state : σ) : Except Fault σ :=
  if _ : secsDone < secCnt then
    let secsOp := if secsDone + 256 ≤ secCnt then 256 else secCnt - secsDone
    match selectSector (lba + secsDone) (secsOp % 2 ^ 8) with
    | .error fault => .error fault
    | .ok () =>
        transfer lba secCnt move (secsDone + secsOp)
          (move secsDone (sizeInByte (secsOp % 2 ^ 8)) state)
  else .ok state
termination_by secCnt - secsDone
decreasing_by
  split <;> omega

/-- `ide_read` -/
def ideRead (disk : Bytes) (lba : Nat) (buf : Bytes) (secCnt : Nat) : Except Fault Bytes := do
  assert (lba ≤ maxLba) "lba <= max_lba"
  assert (secCnt > 0) "sec_cnt > 0"
  transfer lba secCnt
    (fun secsDone size buf => buf.copy (512 * secsDone) disk (512 * (lba + secsDone)) size) 0 buf

/-- `ide_write` -/
def ideWrite (disk : Bytes) (lba : Nat) (buf : Bytes) (secCnt : Nat) : Except Fault Bytes := do
  assert (lba ≤ maxLba) "lba <= max_lba"
  assert (secCnt > 0) "sec_cnt > 0"
  transfer lba secCnt
    (fun secsDone size disk => disk.copy (512 * (lba + secsDone)) buf (512 * secsDone) size) 0 disk

variable {σ : Type*} {lba secCnt secsDone : Nat} {move : Nat → Nat → σ → σ} {state result : σ}

/-- The byte that stands for a count of sectors stands for their size. -/
theorem sizeInByte_mod {secsOp : Nat} (positive : 0 < secsOp) (small : secsOp ≤ 256) :
    sizeInByte (secsOp % 2 ^ 8) = 512 * secsOp := by
  rcases Nat.lt_or_eq_of_le small with less | rfl
  · rw [Nat.mod_eq_of_lt (by omega), sizeInByte, if_neg (by omega)]
  · rfl

theorem selectSector_of_le {lba secCnt : Nat} (inside : lba ≤ maxLba) (byte : secCnt ≤ 255) :
    selectSector lba secCnt = .ok () := by
  rw [selectSector, bind_ok (assert_of inside _)]
  exact assert_of byte _

/-- If every command goes on where the last ended, a transfer moves all its sectors. -/
theorem transfer_eq (whole : Nat → σ → σ)
    (moves : ∀ done op state, move done (512 * op) (whole done state) = whole (done + op) state)
    (done : secsDone ≤ secCnt)
    (run : transfer lba secCnt move secsDone (whole secsDone state) = .ok result) :
    result = whole secCnt state := by
  induction less : secCnt - secsDone using Nat.strong_induction_on generalizing secsDone with
  | _ left ih =>
      rw [transfer] at run
      split at run
      · next more =>
          generalize opEq : (if secsDone + 256 ≤ secCnt then 256 else secCnt - secsDone) = secsOp
            at run
          have bounds : 0 < secsOp ∧ secsOp ≤ 256 ∧ secsDone + secsOp ≤ secCnt := by
            rw [← opEq]
            split <;> omega
          dsimp only at run
          split at run
          · cases run
          · rw [sizeInByte_mod bounds.1 bounds.2.1, moves] at run
            exact ih _ (by omega) bounds.2.2 run rfl
      · next last =>
          have all : secsDone = secCnt := by omega
          cases run
          rw [all]

/-- A transfer whose sectors are on the disk comes to its end. -/
theorem transfer_ok (inside : lba + secCnt ≤ maxLba + 1) :
    ∃ result, transfer lba secCnt move secsDone state = .ok result := by
  induction less : secCnt - secsDone using Nat.strong_induction_on generalizing secsDone state with
  | _ left ih =>
      rw [transfer]
      split
      · next more =>
          have byte : (if secsDone + 256 ≤ secCnt then 256 else secCnt - secsDone) % 2 ^ 8 ≤ 255 :=
            by omega
          simp only [selectSector_of_le (show lba + secsDone ≤ maxLba by omega) byte]
          refine ih _ ?_ rfl
          split <;> omega
      · exact ⟨state, rfl⟩

/-- A read that returns fills the buffer from the disk. -/
theorem ideRead_eq_ok {disk buf buf' : Bytes} (run : ideRead disk lba buf secCnt = .ok buf') :
    lba ≤ maxLba ∧ buf' = buf.copy 0 disk (512 * lba) (512 * secCnt) := by
  rw [ideRead, bind_eq_ok] at run
  obtain ⟨_, inside, run⟩ := run
  rw [bind_eq_ok] at run
  obtain ⟨_, _, run⟩ := run
  refine ⟨assert_eq_ok.mp inside, ?_⟩
  refine transfer_eq (fun done (buf : Bytes) => buf.copy 0 disk (512 * lba) (512 * done)) ?_
    (Nat.zero_le _) (by simpa only [Nat.mul_zero, Bytes.copy_zero] using run)
  intro done op buf
  have joined := buf.copy_copy disk 0 (512 * lba) (512 * done) (512 * op)
  rwa [Nat.zero_add, ← Nat.mul_add, ← Nat.mul_add] at joined

/-- A write that returns has stored the buffer on the disk. -/
theorem ideWrite_eq_ok {disk disk' buf : Bytes} (run : ideWrite disk lba buf secCnt = .ok disk') :
    lba ≤ maxLba ∧ disk' = disk.copy (512 * lba) buf 0 (512 * secCnt) := by
  rw [ideWrite, bind_eq_ok] at run
  obtain ⟨_, inside, run⟩ := run
  rw [bind_eq_ok] at run
  obtain ⟨_, _, run⟩ := run
  refine ⟨assert_eq_ok.mp inside, ?_⟩
  refine transfer_eq (fun done (disk : Bytes) => disk.copy (512 * lba) buf 0 (512 * done)) ?_
    (Nat.zero_le _) (by simpa only [Nat.mul_zero, Bytes.copy_zero] using run)
  intro done op disk
  have joined := disk.copy_copy buf (512 * lba) 0 (512 * done) (512 * op)
  rwa [Nat.zero_add, ← Nat.mul_add, ← Nat.mul_add] at joined

/-- A read inside the disk returns. -/
theorem ideRead_of_le {disk buf : Bytes} (positive : 0 < secCnt)
    (inside : lba + secCnt ≤ maxLba + 1) :
    ideRead disk lba buf secCnt = .ok (buf.copy 0 disk (512 * lba) (512 * secCnt)) := by
  have returns : ∃ buf', ideRead disk lba buf secCnt = .ok buf' := by
    rw [ideRead, bind_ok (assert_of (by omega) _), bind_ok (assert_of positive _)]
    exact transfer_ok inside
  obtain ⟨buf', run⟩ := returns
  rw [run, (ideRead_eq_ok run).2]

/-- A write inside the disk returns. -/
theorem ideWrite_of_le {disk buf : Bytes} (positive : 0 < secCnt)
    (inside : lba + secCnt ≤ maxLba + 1) :
    ideWrite disk lba buf secCnt = .ok (disk.copy (512 * lba) buf 0 (512 * secCnt)) := by
  have returns : ∃ disk', ideWrite disk lba buf secCnt = .ok disk' := by
    rw [ideWrite, bind_ok (assert_of (by omega) _), bind_ok (assert_of positive _)]
    exact transfer_ok inside
  obtain ⟨disk', run⟩ := returns
  rw [run, (ideWrite_eq_ok run).2]

end Pumelo
