import Mathlib.Data.Nat.Bitwise
import Mathlib.Tactic.Common

/-!
# Byte memories

A memory is a total map from addresses to bytes.  Words are 32 bits wide and
stored little-endian; bits are numbered through the whole memory, so that bit
`8 * addr + i` is bit `i` of the byte at `addr`.  The lemmas say which reads a
write can change, by address arithmetic alone.
-/

namespace Foundation

/-- The contents of an address space, one byte per address. -/
abbrev Bytes := Nat → UInt8

namespace Bytes

/-- Replace the byte at one address. -/
def write8 (mem : Bytes) (addr : Nat) (byte : UInt8) : Bytes :=
  fun query => if query = addr then byte else mem query

/-- The 32-bit little-endian word whose lowest byte is at `addr`. -/
def read32 (mem : Bytes) (addr : Nat) : Nat :=
  (mem addr).toNat + 2 ^ 8 * (mem (addr + 1)).toNat +
    2 ^ 16 * (mem (addr + 2)).toNat + 2 ^ 24 * (mem (addr + 3)).toNat

/-- Store a word, truncated to 32 bits, in four consecutive bytes. -/
def write32 (mem : Bytes) (addr word : Nat) : Bytes :=
  fun query =>
    if query = addr then .ofNat word
    else if query = addr + 1 then .ofNat (word / 2 ^ 8)
    else if query = addr + 2 then .ofNat (word / 2 ^ 16)
    else if query = addr + 3 then .ofNat (word / 2 ^ 24)
    else mem query

/-- Set `size` consecutive bytes to one value. -/
def fill (mem : Bytes) (addr : Nat) (byte : UInt8) (size : Nat) : Bytes :=
  fun query => if addr ≤ query ∧ query < addr + size then byte else mem query

/-- Copy `size` bytes of another memory, from `start` on, to `addr`. -/
def copy (mem : Bytes) (addr : Nat) (src : Bytes) (start size : Nat) : Bytes :=
  fun query =>
    if addr ≤ query ∧ query < addr + size then src (start + (query - addr)) else mem query

theorem write8_of_ne (mem : Bytes) {addr query : Nat} (byte : UInt8)
    (different : query ≠ addr) : mem.write8 addr byte query = mem query :=
  if_neg different

theorem write32_of_outside (mem : Bytes) {addr query : Nat} (word : Nat)
    (outside : query < addr ∨ addr + 4 ≤ query) :
    mem.write32 addr word query = mem query := by
  simp only [write32]
  rw [if_neg (by omega), if_neg (by omega), if_neg (by omega), if_neg (by omega)]

theorem fill_of_outside (mem : Bytes) {addr query size : Nat} (byte : UInt8)
    (outside : query < addr ∨ addr + size ≤ query) :
    mem.fill addr byte size query = mem query :=
  if_neg (by omega)

theorem fill_of_inside (mem : Bytes) {addr query size : Nat} (byte : UInt8)
    (lower : addr ≤ query) (upper : query < addr + size) :
    mem.fill addr byte size query = byte :=
  if_pos ⟨lower, upper⟩

theorem copy_of_outside (mem src : Bytes) {addr start query size : Nat}
    (outside : query < addr ∨ addr + size ≤ query) :
    mem.copy addr src start size query = mem query :=
  if_neg (by omega)

theorem copy_of_inside (mem src : Bytes) {addr query size : Nat} (start : Nat)
    (lower : addr ≤ query) (upper : query < addr + size) :
    mem.copy addr src start size query = src (start + (query - addr)) :=
  if_pos ⟨lower, upper⟩

@[simp] theorem copy_zero (mem src : Bytes) (addr start : Nat) :
    mem.copy addr src start 0 = mem := by
  funext query
  exact copy_of_outside mem src (by omega)

/-- A copy depends on the bytes that are copied only. -/
theorem copy_congr (mem : Bytes) {src other : Bytes} {addr start size : Nat}
    (agree : ∀ i < size, other (start + i) = src (start + i)) :
    mem.copy addr other start size = mem.copy addr src start size := by
  funext query
  by_cases inside : addr ≤ query ∧ query < addr + size
  · rw [copy_of_inside _ _ _ inside.1 inside.2, copy_of_inside _ _ _ inside.1 inside.2]
    exact agree _ (by omega)
  · rw [copy_of_outside _ _ (by omega), copy_of_outside _ _ (by omega)]

/-- Two copies that go on where the other ends are one. -/
theorem copy_copy (mem src : Bytes) (addr start first second : Nat) :
    (mem.copy addr src start first).copy (addr + first) src (start + first) second =
      mem.copy addr src start (first + second) := by
  funext query
  by_cases later : addr + first ≤ query ∧ query < addr + first + second
  · rw [copy_of_inside _ _ _ later.1 later.2, copy_of_inside _ _ _ (by omega) (by omega)]
    congr 1
    omega
  · rw [copy_of_outside _ _ (by omega)]
    by_cases earlier : addr ≤ query ∧ query < addr + first
    · rw [copy_of_inside _ _ _ earlier.1 earlier.2, copy_of_inside _ _ _ (by omega) (by omega)]
    · rw [copy_of_outside _ _ (by omega), copy_of_outside _ _ (by omega)]

/-- The later part first. -/
theorem copy_below (mem src : Bytes) (addr start first second : Nat) :
    (mem.copy (addr + first) src (start + first) second).copy addr src start first =
      mem.copy addr src start (first + second) := by
  funext query
  by_cases earlier : addr ≤ query ∧ query < addr + first
  · rw [copy_of_inside _ _ _ earlier.1 earlier.2, copy_of_inside _ _ _ (by omega) (by omega)]
  · rw [copy_of_outside _ _ (by omega), ← copy_copy]
    by_cases later : addr + first ≤ query ∧ query < addr + first + second
    · rw [copy_of_inside _ _ _ later.1 later.2, copy_of_inside _ _ _ later.1 later.2]
    · rw [copy_of_outside _ _ (by omega), copy_of_outside _ _ (by omega),
        copy_of_outside _ _ (by omega)]

/-- One more byte of a copy. -/
theorem copy_succ (mem src : Bytes) (addr start size : Nat) :
    (mem.copy addr src start size).write8 (addr + size) (src (start + size)) =
      mem.copy addr src start (size + 1) := by
  funext query
  by_cases last : query = addr + size
  · rw [last, write8, if_pos rfl, copy_of_inside _ _ _ (by omega) (by omega)]
    congr 1
    omega
  · rw [write8_of_ne _ _ last]
    by_cases inside : addr ≤ query ∧ query < addr + size
    · rw [copy_of_inside _ _ _ inside.1 inside.2, copy_of_inside _ _ _ (by omega) (by omega)]
    · rw [copy_of_outside _ _ (by omega), copy_of_outside _ _ (by omega)]

theorem read32_lt (mem : Bytes) (addr : Nat) : mem.read32 addr < 2 ^ 32 := by
  have byte0 := (mem addr).toNat_lt
  have byte1 := (mem (addr + 1)).toNat_lt
  have byte2 := (mem (addr + 2)).toNat_lt
  have byte3 := (mem (addr + 3)).toNat_lt
  simp only [read32]
  omega

/-- A word depends on its four bytes only. -/
theorem read32_congr {mem other : Bytes} {addr : Nat}
    (agree : ∀ query, addr ≤ query → query < addr + 4 → other query = mem query) :
    other.read32 addr = mem.read32 addr := by
  simp only [read32]
  rw [agree addr (by omega) (by omega), agree (addr + 1) (by omega) (by omega),
    agree (addr + 2) (by omega) (by omega), agree (addr + 3) (by omega) (by omega)]

theorem read32_congr_offset {mem other : Bytes} {addr : Nat}
    (agree : ∀ offset, offset < 4 → other (addr + offset) = mem (addr + offset)) :
    other.read32 addr = mem.read32 addr := by
  refine read32_congr fun query lower upper => ?_
  have byte := agree (query - addr) (by omega)
  rwa [show addr + (query - addr) = query by omega] at byte

@[simp] theorem read32_write32_mod (mem : Bytes) (addr word : Nat) :
    (mem.write32 addr word).read32 addr = word % 2 ^ 32 := by
  simp [read32, write32]
  omega

theorem read32_write32_self (mem : Bytes) {addr word : Nat} (fits : word < 2 ^ 32) :
    (mem.write32 addr word).read32 addr = word := by
  rw [read32_write32_mod, Nat.mod_eq_of_lt fits]

theorem read32_write32_of_disjoint (mem : Bytes) {addr query : Nat} (word : Nat)
    (disjoint : addr + 4 ≤ query ∨ query + 4 ≤ addr) :
    (mem.write32 addr word).read32 query = mem.read32 query :=
  read32_congr fun _ _ _ => write32_of_outside mem word (by omega)

theorem read32_write8_of_outside (mem : Bytes) {addr query : Nat} (byte : UInt8)
    (outside : addr < query ∨ query + 4 ≤ addr) :
    (mem.write8 addr byte).read32 query = mem.read32 query :=
  read32_congr fun _ _ _ => write8_of_ne mem byte (by omega)

theorem read32_fill_of_disjoint (mem : Bytes) {addr size query : Nat} (byte : UInt8)
    (disjoint : query + 4 ≤ addr ∨ addr + size ≤ query) :
    (mem.fill addr byte size).read32 query = mem.read32 query :=
  read32_congr fun _ _ _ => fill_of_outside mem byte (by omega)

/-- Bit `index` of the memory, counted from the lowest bit of the byte at 0. -/
def bit (mem : Bytes) (index : Nat) : Bool :=
  (mem (index / 8)).toNat.testBit (index % 8)

/-- Replace one bit of the memory. -/
def setBit (mem : Bytes) (index : Nat) (value : Bool) : Bytes :=
  mem.write8 (index / 8)
    (if value then mem (index / 8) ||| .ofNat (2 ^ (index % 8))
     else mem (index / 8) &&& ~~~ .ofNat (2 ^ (index % 8)))

theorem setBit_of_ne (mem : Bytes) {index query : Nat} (value : Bool)
    (different : query ≠ index / 8) : mem.setBit index value query = mem query :=
  write8_of_ne mem _ different

private theorem testBit_or_pow (byte : UInt8) {shift query : Nat} (small : shift < 8) :
    (byte ||| .ofNat (2 ^ shift)).toNat.testBit query =
      (byte.toNat.testBit query || decide (shift = query)) := by
  have fits : 2 ^ shift < 2 ^ 8 := Nat.pow_lt_pow_right (by decide) small
  rw [UInt8.toNat_or, Nat.testBit_or, UInt8.toNat_ofNat', Nat.mod_eq_of_lt fits,
    Nat.testBit_two_pow]

private theorem testBit_and_not_pow (byte : UInt8) {shift query : Nat} (small : shift < 8)
    (queryLt : query < 8) :
    (byte &&& ~~~ .ofNat (2 ^ shift)).toNat.testBit query =
      (byte.toNat.testBit query && !decide (shift = query)) := by
  have fits : 2 ^ shift < 2 ^ 8 := Nat.pow_lt_pow_right (by decide) small
  rw [UInt8.toNat_and, Nat.testBit_and, UInt8.toNat_not, UInt8.toNat_ofNat',
    Nat.mod_eq_of_lt fits,
    show UInt8.size - 1 - 2 ^ shift = 2 ^ 8 - (2 ^ shift + 1) by simp [UInt8.size],
    Nat.testBit_two_pow_sub_succ fits, Nat.testBit_two_pow]
  simp [queryLt]

/-- Writing one bit changes that bit and no other bit of the memory. -/
@[simp] theorem bit_setBit (mem : Bytes) (index query : Nat) (value : Bool) :
    (mem.setBit index value).bit query =
      if query = index then value else mem.bit query := by
  by_cases sameByte : query / 8 = index / 8
  · have small : index % 8 < 8 := Nat.mod_lt _ (by decide)
    have queryLt : query % 8 < 8 := Nat.mod_lt _ (by decide)
    have sameBit : index % 8 = query % 8 ↔ query = index := by omega
    cases value with
    | true =>
        simp only [bit, setBit, write8, sameByte, ↓reduceIte, testBit_or_pow _ small, sameBit]
        split <;> simp_all
    | false =>
        simp only [bit, setBit, write8, sameByte, ↓reduceIte, Bool.false_eq_true,
          testBit_and_not_pow _ small queryLt, sameBit]
        split <;> simp_all
  · rw [if_neg (by rintro rfl; exact sameByte rfl)]
    simp only [bit]
    rw [setBit_of_ne mem value sameByte]

/-- Bits of an unchanged byte are unchanged. -/
theorem bit_congr {mem other : Bytes} {index : Nat}
    (agree : other (index / 8) = mem (index / 8)) : other.bit index = mem.bit index := by
  simp only [bit, agree]

/-- The bits of a word are those of its bytes. -/
theorem bit_word (mem : Bytes) (addr : Nat) {index : Nat} (small : index < 32) :
    mem.bit (8 * addr + index) = (mem.read32 addr).testBit index := by
  have byte0 := (mem addr).toNat_lt
  have byte1 := (mem (addr + 1)).toNat_lt
  have byte2 := (mem (addr + 2)).toNat_lt
  have split : mem.read32 addr =
    2 ^ 8 * (2 ^ 8 * (2 ^ 8 * (mem (addr + 3)).toNat + (mem (addr + 2)).toNat) +
      (mem (addr + 1)).toNat) + (mem addr).toNat := by
    rw [read32]
    omega
  have place : (8 * addr + index) / 8 = addr + index / 8 := by omega
  have shift : (8 * addr + index) % 8 = index % 8 := by omega
  rw [split, Nat.testBit_two_pow_mul_add _ byte0, bit, place, shift]
  split
  · rw [Nat.div_eq_of_lt ‹_›, Nat.mod_eq_of_lt ‹_›, Nat.add_zero]
  rw [Nat.testBit_two_pow_mul_add _ byte1]
  split
  · rw [show index / 8 = 1 by omega, show index % 8 = index - 8 by omega]
  rw [Nat.testBit_two_pow_mul_add _ byte2]
  split
  · rw [show index / 8 = 2 by omega, show index % 8 = index - 8 - 8 by omega]
  · rw [show index / 8 = 3 by omega, show index % 8 = index - 8 - 8 - 8 by omega]

theorem bit_eq_false_of_byte_zero {mem : Bytes} {index : Nat} (zero : mem (index / 8) = 0) :
    mem.bit index = false := by
  simp [bit, zero]

/-- Memories with the same bits are the same. -/
theorem ext_bits {mem other : Bytes} (same : ∀ index, mem.bit index = other.bit index) :
    mem = other := by
  funext addr
  apply UInt8.toNat_inj.mp
  apply Nat.eq_of_testBit_eq
  intro index
  by_cases small : index < 8
  · have equal := same (8 * addr + index)
    unfold bit at equal
    rwa [show (8 * addr + index) / 8 = addr by omega,
      show (8 * addr + index) % 8 = index by omega] at equal
  · have wide (byte : UInt8) : byte.toNat.testBit index = false := by
      apply Nat.testBit_lt_two_pow
      calc byte.toNat < 2 ^ 8 := byte.toNat_lt
        _ ≤ 2 ^ index := Nat.pow_le_pow_right (by decide) (by omega)
    rw [wide, wide]

/-- Write one value to the first `count` of the bits that `target` enumerates. -/
def setBits (mem : Bytes) (target : Nat → Nat) (value : Bool) : (count : Nat) → Bytes
  | 0 => mem
  | count + 1 => (setBits mem target value count).setBit (target count) value

theorem bit_setBits_of_ne (mem : Bytes) {target : Nat → Nat} {count query : Nat} (value : Bool)
    (different : ∀ index, index < count → query ≠ target index) :
    (mem.setBits target value count).bit query = mem.bit query := by
  induction count with
  | zero => rfl
  | succ count ih =>
      rw [setBits, bit_setBit, if_neg (different count (Nat.lt_succ_self count))]
      exact ih fun index indexLt => different index (Nat.lt_succ_of_lt indexLt)

theorem bit_setBits_target (mem : Bytes) (target : Nat → Nat) (value : Bool) {count index : Nat}
    (indexLt : index < count) : (mem.setBits target value count).bit (target index) = value := by
  induction count with
  | zero => exact absurd indexLt (Nat.not_lt_zero index)
  | succ count ih =>
      rw [setBits, bit_setBit]
      split
      · rfl
      · next different =>
          have earlier : index ≠ count := fun equal => different (by rw [equal])
          exact ih (by omega)

theorem bit_setBits (mem : Bytes) (target : Nat → Nat) (value : Bool) (count query : Nat) :
    (mem.setBits target value count).bit query =
      if ∃ index < count, query = target index then value else mem.bit query := by
  split
  · next hit =>
      obtain ⟨index, indexLt, rfl⟩ := hit
      exact bit_setBits_target mem target value indexLt
  · next miss =>
      apply bit_setBits_of_ne
      intro index indexLt same
      exact miss ⟨index, indexLt, same⟩

/-- Bytes that hold none of the bits keep their value. -/
theorem setBits_of_ne (mem : Bytes) {target : Nat → Nat} {count query : Nat} (value : Bool)
    (different : ∀ index, index < count → query ≠ target index / 8) :
    mem.setBits target value count query = mem query := by
  induction count with
  | zero => rfl
  | succ count ih =>
      rw [setBits, setBit_of_ne _ _ (different count (Nat.lt_succ_self count))]
      exact ih fun index indexLt => different index (Nat.lt_succ_of_lt indexLt)

end Bytes

end Foundation
