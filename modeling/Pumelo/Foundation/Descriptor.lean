import Mathlib.Data.Nat.Bitwise
import Mathlib.Data.UInt
import Mathlib.Tactic.Common
import Pumelo.Foundation.Bytes

/-!
# Descriptors of the processor

The eight bytes of a segment descriptor and of a gate, as the processor reads them, and
the table of gates.
-/

namespace Foundation

/-- What a segment descriptor says. -/
structure Segment where
  base : UInt32
  limit : UInt32
  access : UInt8
  flags : UInt8
  deriving DecidableEq, Repr

/-- The base is in four bytes, and the limit in two and the lower half of one. -/
def Segment.decode : List UInt8 → Option Segment
  | [limit0, limit1, base0, base1, base2, access, shared, base3] =>
      some {
        base := .ofNat (base0.toNat + 2 ^ 8 * base1.toNat + 2 ^ 16 * base2.toNat + 2 ^ 24 *
          base3.toNat)
        limit := .ofNat (limit0.toNat + 2 ^ 8 * limit1.toNat + 2 ^ 16 * (shared &&& 0xf).toNat)
        access
        flags := shared &&& 0xf0 }
  | _ => none

/-- What a gate says. -/
structure Gate where
  offset : UInt32
  selector : UInt16
  attributes : UInt8
  deriving DecidableEq, Repr

/-- The halves of the offset are at both ends. -/
def Gate.decode : List UInt8 → Option Gate
  | [offset0, offset1, selector0, selector1, _, attributes, offset2, offset3] =>
      some {
        offset := .ofNat
          (offset0.toNat + 2 ^ 8 * offset1.toNat + 2 ^ 16 * offset2.toNat + 2 ^ 24 * offset3.toNat)
        selector := .ofNat (selector0.toNat + 2 ^ 8 * selector1.toNat)
        attributes }
  | _ => none

/-- A word of 16 bits in memory. -/
def bytes16 (word : UInt16) : List UInt8 := [word.toUInt8, (word >>> 8).toUInt8]

theorem toNat_low16 (n : UInt32) : (n &&& 0xffff).toUInt16.toNat = n.toNat % 2 ^ 16 := by
  rw [UInt32.toNat_toUInt16, UInt32.toNat_and]
  have mask : (0xffff : UInt32).toNat = 2 ^ 16 - 1 := rfl
  rw [mask, Nat.and_two_pow_sub_one_eq_mod, Nat.mod_mod]

theorem toNat_byte0 (word : UInt16) : word.toUInt8.toNat = word.toNat % 2 ^ 8 :=
    UInt16.toNat_toUInt8 word

theorem toNat_byte1 (word : UInt16) : (word >>> 8).toUInt8.toNat = word.toNat / 2 ^ 8 := by
  have small := word.toNat_lt
  have shift : (8 : UInt16).toNat % 16 = 8 := rfl
  rw [UInt16.toNat_toUInt8, UInt16.toNat_shiftRight, shift, Nat.shiftRight_eq_div_pow]
  omega

/-- A mask that is cut off below is one of the shifted word. -/
theorem toNat_masked (n mask shift : UInt32) (width : Nat) (small : shift.toNat < 32)
    (shifted : mask.toNat >>> shift.toNat = 2 ^ width - 1) :
    ((n &&& mask) >>> shift).toNat = n.toNat / 2 ^ shift.toNat % 2 ^ width := by
  rw [UInt32.toNat_shiftRight, Nat.mod_eq_of_lt small, UInt32.toNat_and, Nat.shiftRight_and_distrib,
    shifted, Nat.and_two_pow_sub_one_eq_mod, Nat.shiftRight_eq_div_pow]

theorem bytes16_eq (word : UInt16) :
    ∃ byte0 byte1, bytes16 word = [byte0, byte1] ∧ byte0.toNat + 2 ^ 8 * byte1.toNat =
      word.toNat := by
  refine ⟨_, _, rfl, ?_⟩
  rw [toNat_byte0, toNat_byte1]
  exact Nat.mod_add_div ..

theorem Segment.decode_words (limitLow baseLow : UInt16) (mid access shared high : UInt8) :
    Segment.decode (bytes16 limitLow ++ bytes16 baseLow ++ [mid, access, shared, high]) =
      some ⟨.ofNat (baseLow.toNat + 2 ^ 16 * mid.toNat + 2 ^ 24 * high.toNat),
        .ofNat (limitLow.toNat + 2 ^ 16 * (shared &&& 0xf).toNat), access, shared &&& 0xf0⟩ := by
  obtain ⟨limit0, limit1, limitBytes, limitValue⟩ := bytes16_eq limitLow
  obtain ⟨base0, base1, baseBytes, baseValue⟩ := bytes16_eq baseLow
  rw [limitBytes, baseBytes, ← limitValue, ← baseValue]
  rfl

theorem Gate.decode_words (offsetLow selector offsetHigh : UInt16) (unused attributes : UInt8) :
    Gate.decode (bytes16 offsetLow ++ bytes16 selector ++ [unused, attributes] ++
      bytes16 offsetHigh) =
      some ⟨.ofNat (offsetLow.toNat + 2 ^ 16 * offsetHigh.toNat), selector, attributes⟩ := by
  obtain ⟨low0, low1, lowBytes, lowValue⟩ := bytes16_eq offsetLow
  obtain ⟨selector0, selector1, selectorBytes, selectorValue⟩ := bytes16_eq selector
  obtain ⟨high0, high1, highBytes, highValue⟩ := bytes16_eq offsetHigh
  have whole : UInt16.ofNat (selector0.toNat + 2 ^ 8 * selector1.toNat) = selector := by
    rw [selectorValue]
    exact UInt16.ofNat_toNat
  rw [lowBytes, selectorBytes, highBytes, ← lowValue, ← highValue, Nat.mul_add, ← Nat.mul_assoc,
    ← Nat.add_assoc]
  exact congrArg (fun selector => some (Gate.mk _ selector attributes)) whole

/-- The parts of a byte that two fields share. -/
theorem shared_parts {shared field : UInt8} {value : Nat} (small : value < 2 ^ 4)
    (clear : field.toNat % 2 ^ 4 = 0) (sum : shared.toNat = value + field.toNat) :
    (shared &&& 0xf).toNat = value ∧ shared &&& 0xf0 = field := by
  have upper : ∀ n < 2 ^ 8, n &&& 0xf0 = n - n % 2 ^ 4 := by decide +kernel
  have lower : (shared &&& 0xf).toNat = shared.toNat % 2 ^ 4 := by
    rw [UInt8.toNat_and]
    exact Nat.and_two_pow_sub_one_eq_mod shared.toNat 4
  constructor
  · rw [lower]
    omega
  · apply UInt8.toNat_inj.mp
    rw [UInt8.toNat_and]
    refine (upper _ shared.toNat_lt).trans ?_
    omega

namespace Bytes

/-- Bytes one after the other. -/
def take (mem : Bytes) (addr count : Nat) : List UInt8 :=
    (List.range count).map fun i => mem (addr + i)

/-- Store bytes one after the other. -/
def store (mem : Bytes) (addr : Nat) (data : List UInt8) : Bytes :=
  fun query => if addr ≤ query then data.getD (query - addr) (mem query) else mem query

variable (mem : Bytes) {addr : Nat} {data : List UInt8}

theorem store_of_outside {query : Nat} (outside : query < addr ∨ addr + data.length ≤ query) :
    mem.store addr data query = mem query := by
  unfold store
  split
  · exact List.getD_eq_default _ _ (by omega)
  · rfl

/-- What was in memory does not matter for the bytes that are stored. -/
theorem store_of_inside (mem' : Bytes) {query : Nat} (lower : addr ≤ query)
    (upper : query < addr + data.length) :
    mem.store addr data query = mem'.store addr data query := by
  have inside : query - addr < data.length := by omega
  simp only [store, if_pos lower, List.getD_eq_getElem _ _ inside]

theorem take_store : (mem.store addr data).take addr data.length = data := by
  apply List.ext_getElem
  · simp [take]
  · intro i inside inside'
    simp only [take, List.getElem_map, List.getElem_range, store, Nat.le_add_right, if_true,
      Nat.add_sub_cancel_left]
    exact (List.getElem_eq_getD _).symm

theorem take_congr {mem mem' : Bytes} {addr count : Nat}
    (agree : ∀ query, addr ≤ query → query < addr + count → mem' query = mem query) :
    mem'.take addr count = mem.take addr count := by
  refine List.map_congr_left fun i member => ?_
  have lt := List.mem_range.mp member
  exact agree _ (by omega) (by omega)

theorem take_store_of_outside {start count : Nat}
    (outside : start + count ≤ addr ∨ addr + data.length ≤ start) :
    (mem.store addr data).take start count = mem.take start count :=
  take_congr fun _ _ _ => mem.store_of_outside (by omega)

theorem take_write32_of_outside {start count : Nat} (word : Nat)
    (outside : start + count ≤ addr ∨ addr + 4 ≤ start) :
    (mem.write32 addr word).take start count = mem.take start count :=
  take_congr fun _ _ _ => mem.write32_of_outside word (by omega)

theorem read32_store_of_outside {other : Nat}
    (outside : other + 4 ≤ addr ∨ addr + data.length ≤ other) :
    (mem.store addr data).read32 other = mem.read32 other :=
  read32_congr fun _ _ _ => mem.store_of_outside (by omega)

end Bytes

/-- The register that `lidt` loads. -/
structure Idtr where
  limit : Nat
  base : Nat
  deriving DecidableEq, Repr

/-- The three words of its operand. -/
def Idtr.load (word0 word1 word2 : UInt16) : Idtr where
  limit := word0.toNat
  base := word1.toNat + 2 ^ 16 * word2.toNat

/-- The gate of a vector; there is none behind the limit. -/
def Idtr.gate (idtr : Idtr) (mem : Bytes) (vec : Nat) : Option Gate :=
  if 8 * vec + 7 ≤ idtr.limit then
    Gate.decode (mem.take (idtr.base + 8 * vec) 8)
  else none

theorem Idtr.gate_congr (idtr : Idtr) {mem mem' : Bytes} {vec : Nat}
    (agree : ∀ query, idtr.base + 8 * vec ≤ query → query < idtr.base + 8 * vec + 8 →
      mem' query = mem query) : idtr.gate mem' vec = idtr.gate mem vec := by
  simp only [gate, Bytes.take_congr agree]

/-- A gate that clears the interrupt flag. -/
def Gate.Masks (gate : Gate) : Prop := gate.attributes &&& 0x0f = 0x0e

instance (gate : Gate) : Decidable gate.Masks := instDecidableEqUInt8 ..

end Foundation
