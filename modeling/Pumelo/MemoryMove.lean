import Pumelo.Foundation.StringMove

/-!
# `memmove`

`memcpy` and `memmove` by the string instructions, whatever the two ranges have in common.
-/

namespace Pumelo

open Foundation

/-- `__memcpy`: words, and the bytes that are left. -/
def memcpyAsm (mem : Bytes) (dst src n : BitVec 32) : Bytes × BitVec 32 :=
  let (mem, esi, edi) := repMovs false 4 (n / 4).toNat mem src dst
  let ecx := n &&& 3
  if ecx = 0 then (mem, dst) else ((repMovs false 1 ecx.toNat mem esi edi).1, dst)

/-- `__memmove`: bytes from the end on, unless the destination lies below. -/
def memmoveAsm (mem : Bytes) (dst src n : BitVec 32) : Bytes × BitVec 32 :=
  if dst < src then memcpyAsm mem dst src n
  else ((repMovs true 1 n.toNat mem (n - 1 + src) (n - 1 + dst)).1, dst)

/-- `memcpy` -/
def memcpy (mem : Bytes) (dst src n : BitVec 32) : Bytes × BitVec 32 := memcpyAsm mem dst src n

/-- `memmove` -/
def memmove (mem : Bytes) (dst src n : BitVec 32) : Bytes × BitVec 32 := memmoveAsm mem dst src n

section Ranges

variable {mem : Bytes} {dst src n : BitVec 32}

/-- A destination that does not lie above the source. -/
theorem memcpy_eq (below : dst.toNat ≤ src.toNat) (inside : src.toNat + n.toNat ≤ 2 ^ 32) :
    memcpy mem dst src n = (mem.copy dst.toNat mem src.toNat n.toNat, dst) := by
  have words : (n / 4).toNat = n.toNat / 4 := BitVec.toNat_udiv
  have bytes : (n &&& 3).toNat = n.toNat % 4 := by
    rw [BitVec.toNat_and]
    exact Nat.and_two_pow_sub_one_eq_mod n.toNat 2
  have split : n.toNat = 4 * (n.toNat / 4) + n.toNat % 4 := (Nat.div_add_mod ..).symm
  have first := repMovs_up 4 (n.toNat / 4) mem below (by omega)
  have regs := repMovs_regs 4 (n.toNat / 4) mem src dst
  rw [memcpy, memcpyAsm, words]
  generalize repMovs false 4 (n.toNat / 4) mem src dst = moved at first regs
  obtain ⟨left, esi, edi⟩ := moved
  obtain ⟨rfl, rfl⟩ := Prod.mk.inj regs
  dsimp only at first ⊢
  split
  · next none =>
      have whole : n.toNat = 4 * (n.toNat / 4) := by
        rw [none] at bytes
        have zero : n.toNat % 4 = 0 := bytes.symm
        omega
      rw [first, ← whole]
  · next some =>
      have rest : n.toNat % 4 ≠ 0 := by
        intro zero
        exact some (BitVec.eq_of_toNat_eq (bytes.trans zero))
      have source : (src + .ofNat 32 (4 * (n.toNat / 4))).toNat = src.toNat + 4 * (n.toNat / 4) :=
        toNat_add_ofNat (by omega)
      have target : (dst + .ofNat 32 (4 * (n.toNat / 4))).toNat = dst.toNat + 4 * (n.toNat / 4) :=
        toNat_add_ofNat (by omega)
      have same : ∀ i < n.toNat % 4, left (src.toNat + 4 * (n.toNat / 4) + i) =
          mem (src.toNat + 4 * (n.toNat / 4) + i) := by
        intro i _
        rw [first]
        exact Bytes.copy_of_outside _ _ (by omega)
      rw [bytes, repMovs_up 1 (n.toNat % 4) left (by omega) (by omega), source, target, Nat.one_mul,
        Bytes.copy_congr _ same, first, Bytes.copy_copy, ← split]

/-- The range gets what the other one had, and nothing else changes. -/
theorem memmove_moves (mem : Bytes) (source : src.toNat + n.toNat ≤ 2 ^ 32)
    (target : dst.toNat + n.toNat ≤ 2 ^ 32) :
    (memmove mem dst src n).2 = dst ∧
    (∀ i < n.toNat, (memmove mem dst src n).1 (dst.toNat + i) = mem (src.toNat + i)) ∧
    ∀ query, query < dst.toNat ∨ dst.toNat + n.toNat ≤ query →
      (memmove mem dst src n).1 query = mem query := by
  have moved : memmove mem dst src n = (mem.copy dst.toNat mem src.toNat n.toNat, dst) := by
    by_cases below : dst < src
    · rw [memmove, memmoveAsm, if_pos below]
      exact memcpy_eq (Nat.le_of_lt below) source
    · have above : src.toNat ≤ dst.toNat := Nat.le_of_not_lt below
      have last (range : BitVec 32) (inside : range.toNat + n.toNat ≤ 2 ^ 32) (some : n.toNat ≠ 0) :
          (n - 1 + range).toNat = range.toNat + (n.toNat - 1) := by
        have one : (1 : BitVec 32).toNat = 1 := rfl
        rw [BitVec.toNat_add, BitVec.toNat_sub, one]
        omega
      rw [memmove, memmoveAsm, if_neg below,
        repMovs_down n.toNat mem above target fun some =>
          ⟨last src source some, last dst target some⟩]
  rw [moved]
  refine ⟨rfl, ?_, ?_⟩
  · intro i lt
    dsimp only
    rw [Bytes.copy_of_inside _ _ _ (by omega) (by omega), Nat.add_sub_cancel_left]
  · intro query outside
    exact Bytes.copy_of_outside _ _ outside

end Ranges

/-- Seven bytes that go up by one. -/
theorem memmove_moves_overlap :
    (memmove UInt8.ofNat 0x1001 0x1000 7).2 = 0x1001 ∧
    (∀ i < 7, (memmove UInt8.ofNat 0x1001 0x1000 7).1 (0x1001 + i) = .ofNat (0x1000 + i)) ∧
    ∀ query, query < 0x1001 ∨ 0x1001 + 7 ≤ query →
      (memmove UInt8.ofNat 0x1001 0x1000 7).1 query = .ofNat query :=
  memmove_moves UInt8.ofNat (by decide) (by decide)

end Pumelo
