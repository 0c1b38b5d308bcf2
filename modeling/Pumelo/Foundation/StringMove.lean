import Pumelo.Foundation.Bytes

/-!
# Repeated moves

The string instructions of the x86 that move bytes and words, with `ecx`, `esi` and `edi`.
-/

namespace Foundation

/-- Where a register goes after a unit. -/
def advance (down : Bool) (width : Nat) (reg : BitVec 32) : BitVec 32 :=
  if down then reg - .ofNat 32 width else reg + .ofNat 32 width

/-- `rep; movs`: a unit is read as a whole before it is written. -/
def repMovs (down : Bool) (width : Nat) :
    (ecx : Nat) → Bytes → (esi edi : BitVec 32) → Bytes × BitVec 32 × BitVec 32
  | 0, mem, esi, edi => (mem, esi, edi)
  | ecx + 1, mem, esi, edi =>
      repMovs down width ecx (mem.copy edi.toNat mem esi.toNat width) (advance down width esi)
        (advance down width edi)

theorem repMovs_regs (width ecx : Nat) (mem : Bytes) (esi edi : BitVec 32) :
    (repMovs false width ecx mem esi edi).2 =
      (esi + .ofNat 32 (width * ecx), edi + .ofNat 32 (width * ecx)) := by
  induction ecx generalizing mem esi edi with
  | zero => rw [repMovs, Nat.mul_zero, BitVec.add_zero, BitVec.add_zero]
  | succ ecx ih =>
      have sum (reg : BitVec 32) :
          advance false width reg + .ofNat 32 (width * ecx) =
            reg + .ofNat 32 (width * (ecx + 1)) := by
        rw [advance, if_neg Bool.false_ne_true, BitVec.add_assoc, ← BitVec.ofNat_add, Nat.mul_succ,
          Nat.add_comm width]
      rw [repMovs, ih, sum, sum]

theorem toNat_add_ofNat {reg : BitVec 32} {distance : Nat}
    (inside : reg.toNat + distance < 2 ^ 32) :
    (reg + .ofNat 32 distance).toNat = reg.toNat + distance := by
  rw [BitVec.toNat_add, BitVec.toNat_ofNat]
  omega

/-- Moving up, what is written lies below all that is still to be read. -/
theorem repMovs_up (width ecx : Nat) (mem : Bytes) {esi edi : BitVec 32}
    (below : edi.toNat ≤ esi.toNat)
    (inside : esi.toNat + width * ecx ≤ 2 ^ 32) :
    (repMovs false width ecx mem esi edi).1 = mem.copy edi.toNat mem esi.toNat (width * ecx) := by
  induction ecx generalizing mem esi edi with
  | zero => rw [repMovs, Nat.mul_zero, Bytes.copy_zero]
  | succ ecx ih =>
      rw [Nat.mul_succ] at inside ⊢
      rw [repMovs]
      by_cases last : esi.toNat + width = 2 ^ 32
      · -- nothing is left behind the end of the address space
        have none : width * ecx = 0 := by omega
        have small := esi.isLt
        have rest : ecx = 0 := (Nat.mul_eq_zero.mp none).resolve_left (by omega)
        rw [rest, repMovs, Nat.mul_zero, Nat.zero_add]
      · have up {reg : BitVec 32} (le : reg.toNat ≤ esi.toNat) :
            (advance false width reg).toNat = reg.toNat + width := by
          rw [advance, if_neg Bool.false_ne_true, toNat_add_ofNat (by omega)]
        have source := up (Nat.le_refl _)
        have target := up below
        have same : ∀ i < width * ecx,
            (mem.copy edi.toNat mem esi.toNat width) (esi.toNat + width + i) =
              mem (esi.toNat + width + i) :=
          fun i _ => Bytes.copy_of_outside _ _ (by omega)
        rw [ih _ (by omega) (by omega), source, target, Bytes.copy_congr _ same, Bytes.copy_copy,
          Nat.add_comm width]

/-- Moving down, it lies above. -/
theorem repMovs_down (ecx : Nat) (mem : Bytes) {src dst : Nat} (above : src ≤ dst)
    (inside : dst + ecx ≤ 2 ^ 32) {esi edi : BitVec 32}
    (last : ecx ≠ 0 → esi.toNat = src + (ecx - 1) ∧ edi.toNat = dst + (ecx - 1)) :
    (repMovs true 1 ecx mem esi edi).1 = mem.copy dst mem src ecx := by
  induction ecx generalizing mem esi edi with
  | zero => rw [repMovs, Bytes.copy_zero]
  | succ ecx ih =>
      obtain ⟨source, target⟩ := last (Nat.succ_ne_zero _)
      rw [Nat.add_sub_cancel] at source target
      have down (reg : BitVec 32) {start : Nat} (current : reg.toNat = start + ecx)
        (more : ecx ≠ 0) :
          (advance true 1 reg).toNat = start + (ecx - 1) := by
        have small := reg.isLt
        rw [advance, if_pos rfl, BitVec.toNat_sub, current, BitVec.toNat_ofNat]
        omega
      have same : ∀ i < ecx, (mem.copy (dst + ecx) mem (src + ecx) 1) (src + i) = mem (src + i) :=
        fun i _ => Bytes.copy_of_outside _ _ (by omega)
      rw [repMovs, ih _ (by omega) fun more => ⟨down esi source more, down edi target more⟩,
        source, target,
        Bytes.copy_congr _ same, Bytes.copy_below]

end Foundation
