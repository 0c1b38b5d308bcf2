import Pumelo.Machine

/-!
# Bitmaps

`bitmap.c`.  Bit `i` of a bitmap is bit `i % 8` of byte `i / 8` behind its
pointer, for every `i`: the code does not compare an index with the length.
-/

namespace Pumelo

open Foundation

/-- Bit `index` behind the bitmap's pointer. -/
def Bitmap.bit (btmp : Bitmap) (mem : Bytes) (index : Nat) : Bool :=
  mem.bit (8 * btmp.bitmapBits + index)

/-- `bitmap_init` -/
def bitmapInit (mem : Bytes) (btmp : Bitmap) : Bytes :=
  mem.fill btmp.bitmapBits 0 btmp.bitmapLen

/-- `bitmap_scan_test` -/
def bitmapScanTest (mem : Bytes) (btmp : Bitmap) (bitIdx : Nat) : Nat :=
  let byteIdx := bitIdx / 8
  let bitOdd := bitIdx % 8
  (mem (btmp.bitmapBits + byteIdx)).toNat &&& (1 <<< bitOdd)

/-- The loop of `bitmap_scan` that skips full bytes. It reads the byte before it
compares the index with the length. -/
def skipFull (mem : Bytes) (btmp : Bitmap) (idxByte : Nat) : Nat :=
  if mem (btmp.bitmapBits + idxByte) = 0xff ∧ idxByte < btmp.bitmapLen then
    skipFull mem btmp (idxByte + 1)
  else idxByte
termination_by btmp.bitmapLen - idxByte

/-- The loop of `bitmap_scan` that looks for a clear bit in one byte. -/
def firstClear (byte : UInt8) (idxBit : Nat) : Nat :=
  if (1 <<< idxBit) % 2 ^ 8 &&& byte.toNat ≠ 0 then firstClear byte (idxBit + 1) else idxBit
termination_by 8 - idxBit
decreasing_by
  have small : idxBit < 8 := by
    by_contra large
    obtain ⟨excess, rfl⟩ := Nat.exists_eq_add_of_le (Nat.not_lt.mp large)
    simp_all [Nat.one_shiftLeft, Nat.pow_add]
  omega

/-- The loop of `bitmap_scan` that counts clear bits down, with the count left
when it meets a set bit. -/
def countClear (mem : Bytes) (btmp : Bitmap) (nextBit : Nat) : (count : Nat) → Nat
  | 0 => 0
  | count + 1 =>
      if bitmapScanTest mem btmp nextBit ≠ 0 then count + 1
      else countClear mem btmp ((nextBit + 1) % 2 ^ 32) count

theorem le_skipFull (mem : Bytes) (btmp : Bitmap) (idxByte : Nat) :
    idxByte ≤ skipFull mem btmp idxByte := by
  fun_induction skipFull mem btmp idxByte with
  | case1 idxByte full ih => omega
  | case2 idxByte found => exact Nat.le_refl _

/-- The outer loop of `bitmap_scan`; `none` stands for -1. The assertion fails
exactly where the line after it would return -1. -/
def bitmapScanFrom (mem : Bytes) (btmp : Bitmap) (cnt : Nat) (start : Nat) :
    Except Fault (Option Nat) :=
  let idxByte := skipFull mem btmp start
  if inside : idxByte < btmp.bitmapLen then
    if idxByte = btmp.bitmapLen then .ok none
    else
      let idxBit := firstClear (mem (btmp.bitmapBits + idxByte)) 0
      let bitIdxStart := idxByte * 8 + idxBit
      if cnt = 1 then .ok (some bitIdxStart)
      else
        let count := (cnt + 2 ^ 32 - 1) % 2 ^ 32
        let nextBit := (bitIdxStart + 1) % 2 ^ 32
        if countClear mem btmp nextBit count = 0 then .ok (some bitIdxStart)
        else bitmapScanFrom mem btmp cnt (idxByte + 1)
  else .error (.panic "assertion failed: idx_byte < btmp->bitmap_len")
termination_by btmp.bitmapLen - start
decreasing_by
  have := le_skipFull mem btmp start
  omega

/-- `bitmap_scan` -/
def bitmapScan (mem : Bytes) (btmp : Bitmap) (cnt : Nat) : Except Fault (Option Nat) :=
  bitmapScanFrom mem btmp cnt 0

/-- `bitmap_set` -/
def bitmapSet (mem : Bytes) (btmp : Bitmap) (bitIdx : Nat) (value : Int) : Except Fault Bytes := do
  assert (value = 0 ∨ value = 1) "(value == 0) || (value == 1)"
  let byteIdx := bitIdx / 8
  let bitOdd := bitIdx % 8
  let addr := btmp.bitmapBits + byteIdx
  if value ≠ 0 then
    return mem.write8 addr (mem addr ||| .ofNat (1 <<< bitOdd))
  else
    return mem.write8 addr (mem addr &&& ~~~ .ofNat (1 <<< bitOdd))

theorem bitmapSet_eq (mem : Bytes) (btmp : Bitmap) (bitIdx : Nat) (value : Bool) :
    bitmapSet mem btmp bitIdx (if value then 1 else 0) =
      .ok (mem.setBit (8 * btmp.bitmapBits + bitIdx) value) := by
  have byte : (8 * btmp.bitmapBits + bitIdx) / 8 = btmp.bitmapBits + bitIdx / 8 := by omega
  have odd : (8 * btmp.bitmapBits + bitIdx) % 8 = bitIdx % 8 := by omega
  cases value <;>
    simp [bitmapSet, assert, Bytes.setBit, byte, odd, Nat.one_shiftLeft, Bind.bind, Except.bind]

@[simp] theorem bitmapSet_one (mem : Bytes) (btmp : Bitmap) (bitIdx : Nat) :
    bitmapSet mem btmp bitIdx 1 = .ok (mem.setBit (8 * btmp.bitmapBits + bitIdx) true) :=
  bitmapSet_eq mem btmp bitIdx true

@[simp] theorem bitmapSet_zero (mem : Bytes) (btmp : Bitmap) (bitIdx : Nat) :
    bitmapSet mem btmp bitIdx 0 = .ok (mem.setBit (8 * btmp.bitmapBits + bitIdx) false) :=
  bitmapSet_eq mem btmp bitIdx false

theorem bitmapScanTest_ne_zero {mem : Bytes} {btmp : Bitmap} {bitIdx : Nat} :
    bitmapScanTest mem btmp bitIdx ≠ 0 ↔ btmp.bit mem bitIdx = true := by
  have byte : (8 * btmp.bitmapBits + bitIdx) / 8 = btmp.bitmapBits + bitIdx / 8 := by omega
  have odd : (8 * btmp.bitmapBits + bitIdx) % 8 = bitIdx % 8 := by omega
  rw [bitmapScanTest, Bitmap.bit, Bytes.bit, byte, odd, Nat.one_shiftLeft, Nat.and_two_pow]
  cases (mem (btmp.bitmapBits + bitIdx / 8)).toNat.testBit (bitIdx % 8) <;> simp

theorem skipFull_le (mem : Bytes) (btmp : Bitmap) {idxByte : Nat}
    (inside : idxByte ≤ btmp.bitmapLen) : skipFull mem btmp idxByte ≤ btmp.bitmapLen := by
  fun_induction skipFull mem btmp idxByte with
  | case1 idxByte full ih => exact ih full.2
  | case2 idxByte found => exact inside

theorem full_of_lt_skipFull (mem : Bytes) (btmp : Bitmap) {idxByte query : Nat}
    (lower : idxByte ≤ query) (upper : query < skipFull mem btmp idxByte) :
    mem (btmp.bitmapBits + query) = 0xff := by
  fun_induction skipFull mem btmp idxByte with
  | case1 idxByte full ih =>
      rcases Nat.eq_or_lt_of_le lower with rfl | later
      · exact full.1
      · exact ih later upper
  | case2 idxByte found => omega

theorem not_full_skipFull (mem : Bytes) (btmp : Bitmap) {idxByte : Nat}
    (inside : skipFull mem btmp idxByte < btmp.bitmapLen) :
    mem (btmp.bitmapBits + skipFull mem btmp idxByte) ≠ 0xff := by
  fun_induction skipFull mem btmp idxByte with
  | case1 idxByte full ih => exact ih inside
  | case2 idxByte found => exact fun full => found ⟨full, inside⟩

theorem shifted_and_ne_zero {byte : UInt8} {idxBit : Nat} :
    (1 <<< idxBit) % 2 ^ 8 &&& byte.toNat ≠ 0 ↔ idxBit < 8 ∧ byte.toNat.testBit idxBit = true := by
  rw [Nat.one_shiftLeft]
  by_cases small : idxBit < 8
  · rw [Nat.mod_eq_of_lt (Nat.pow_lt_pow_right (by decide) small), Nat.land_comm,
      Nat.and_two_pow]
    cases byte.toNat.testBit idxBit <;> simp [small]
  · have split : idxBit = 8 + (idxBit - 8) := by omega
    rw [split, Nat.pow_add]
    simp

theorem set_of_lt_firstClear (byte : UInt8) {idxBit query : Nat} (lower : idxBit ≤ query)
    (upper : query < firstClear byte idxBit) : query < 8 ∧ byte.toNat.testBit query = true := by
  fun_induction firstClear byte idxBit with
  | case1 idxBit set ih =>
      rcases Nat.eq_or_lt_of_le lower with rfl | later
      · exact shifted_and_ne_zero.mp set
      · exact ih later upper
  | case2 idxBit clear => omega

/-- A byte all of whose bits are set is `0xff`. -/
theorem eq_full_of_testBit {byte : UInt8}
    (set : ∀ index, index < 8 → byte.toNat.testBit index = true) : byte = 0xff := by
  apply UInt8.toNat_inj.mp
  apply Nat.eq_of_testBit_eq
  intro index
  have full : (0xff : UInt8).toNat = 2 ^ 8 - 1 := rfl
  rw [full, Nat.testBit_two_pow_sub_one]
  by_cases small : index < 8
  · simp [small, set index small]
  · rw [Nat.testBit_lt_two_pow (Nat.lt_of_lt_of_le byte.toNat_lt
      (Nat.pow_le_pow_right (by decide) (Nat.not_lt.mp small)))]
    simp [small]

/-- In a byte that is not full the loop stops at its lowest clear bit. -/
theorem firstClear_spec {byte : UInt8} (notFull : byte ≠ 0xff) :
    firstClear byte 0 < 8 ∧ byte.toNat.testBit (firstClear byte 0) = false := by
  have stops : ∀ idxBit, ¬(firstClear byte idxBit < 8 ∧
      byte.toNat.testBit (firstClear byte idxBit) = true) := by
    intro idxBit
    fun_induction firstClear byte idxBit with
    | case1 idxBit set ih => exact ih
    | case2 idxBit clear => exact fun set => clear (shifted_and_ne_zero.mpr set)
  have small : firstClear byte 0 < 8 := by
    by_contra large
    exact notFull (eq_full_of_testBit fun index indexLt =>
      (set_of_lt_firstClear byte (Nat.zero_le _) (by omega)).2)
  refine ⟨small, ?_⟩
  cases found : byte.toNat.testBit (firstClear byte 0) with
  | false => rfl
  | true => exact absurd ⟨small, found⟩ (stops 0)

/-- The counting loop reaches zero exactly when it meets no set bit. -/
theorem countClear_eq_zero {mem : Bytes} {btmp : Bitmap} {nextBit count : Nat}
    (fits : nextBit < 2 ^ 32) :
    countClear mem btmp nextBit count = 0 ↔
      ∀ offset, offset < count → btmp.bit mem ((nextBit + offset) % 2 ^ 32) = false := by
  induction count generalizing nextBit with
  | zero => simp [countClear]
  | succ count ih =>
      simp only [countClear]
      by_cases set : bitmapScanTest mem btmp nextBit ≠ 0
      · rw [if_pos set]
        refine ⟨fun absurdEq => by omega, fun clear => ?_⟩
        have first := clear 0 (by omega)
        rw [Nat.add_zero, Nat.mod_eq_of_lt fits, bitmapScanTest_ne_zero.mp set] at first
        exact absurd first (by decide)
      · rw [if_neg set, ih (Nat.mod_lt _ (by decide))]
        have first : btmp.bit mem nextBit = false := by
          simpa [bitmapScanTest_ne_zero] using set
        constructor
        · intro clear offset offsetLt
          cases offset with
          | zero => rwa [Nat.add_zero, Nat.mod_eq_of_lt fits]
          | succ offset =>
              have later := clear offset (by omega)
              rwa [Nat.mod_add_mod, Nat.add_assoc, Nat.add_comm 1] at later
        · intro clear offset offsetLt
          have later := clear (offset + 1) (by omega)
          rwa [Nat.mod_add_mod, Nat.add_assoc, Nat.add_comm 1]

/-! ## What the scan returns -/

theorem bit_of_full {mem : Bytes} {btmp : Bitmap} {index : Nat}
    (full : mem (btmp.bitmapBits + index / 8) = 0xff) : btmp.bit mem index = true := by
  have byte : (8 * btmp.bitmapBits + index) / 8 = btmp.bitmapBits + index / 8 := by omega
  rw [Bitmap.bit, Bytes.bit, byte, full]
  have full : (0xff : UInt8).toNat = 2 ^ 8 - 1 := rfl
  rw [full, Nat.testBit_two_pow_sub_one]
  simp
  omega

theorem bit_eq_testBit (mem : Bytes) (btmp : Bitmap) (byteIdx : Nat) {bitOdd : Nat}
    (small : bitOdd < 8) : btmp.bit mem (byteIdx * 8 + bitOdd) =
      (mem (btmp.bitmapBits + byteIdx)).toNat.testBit bitOdd := by
  have byte : (8 * btmp.bitmapBits + (byteIdx * 8 + bitOdd)) / 8 = btmp.bitmapBits + byteIdx := by
    omega
  have odd : (8 * btmp.bitmapBits + (byteIdx * 8 + bitOdd)) % 8 = bitOdd := by omega
  rw [Bitmap.bit, Bytes.bit, byte, odd]

/-- The candidate the scan looks at in a byte that is not full: the lowest clear
bit at or after the byte the scan starts from. -/
theorem candidate_spec {mem : Bytes} {btmp : Bitmap} {start idxByte idxBit : Nat}
    (byteEq : skipFull mem btmp start = idxByte)
    (bitEq : firstClear (mem (btmp.bitmapBits + idxByte)) 0 = idxBit)
    (inside : idxByte < btmp.bitmapLen) :
    idxBit < 8 ∧ btmp.bit mem (idxByte * 8 + idxBit) = false ∧
      ∀ index, start * 8 ≤ index → index < idxByte * 8 + idxBit → btmp.bit mem index = true := by
  subst byteEq
  obtain ⟨small, clear⟩ := firstClear_spec (not_full_skipFull mem btmp inside)
  rw [bitEq] at small clear
  refine ⟨small, ?_, ?_⟩
  · rw [bit_eq_testBit mem btmp _ small]
    exact clear
  · intro index lower upper
    by_cases earlier : index / 8 < skipFull mem btmp start
    · exact bit_of_full (full_of_lt_skipFull mem btmp (by omega) earlier)
    · have split : index = skipFull mem btmp start * 8 + index % 8 := by omega
      have bitLt : index % 8 < idxBit := by omega
      rw [split, bit_eq_testBit mem btmp _ (by omega)]
      exact (set_of_lt_firstClear _ (Nat.zero_le _) (bitEq ▸ bitLt)).2

/-- A scan that returns finds a run of `cnt` clear bits, the first of them inside
the bitmap. The later ones are tested wherever they lie. -/
theorem bitmapScanFrom_ok {mem : Bytes} {btmp : Bitmap} {cnt start : Nat} {result : Option Nat}
    (positive : 1 ≤ cnt) (cntLt : cnt < 2 ^ 32) (lenLe : 8 * btmp.bitmapLen ≤ 2 ^ 32)
    (run : bitmapScanFrom mem btmp cnt start = .ok result) :
    ∃ found, result = some found ∧ found < 8 * btmp.bitmapLen ∧
      ∀ offset, offset < cnt → btmp.bit mem ((found + offset) % 2 ^ 32) = false := by
  fun_induction bitmapScanFrom mem btmp cnt start with
  | case1 start idxByte inside atEnd => omega
  | case2 start idxByte inside notEnd idxBit found isOne =>
      have small : idxBit < 8 := (candidate_spec rfl rfl inside).1
      have clear : btmp.bit mem found = false := (candidate_spec rfl rfl inside).2.1
      cases run
      refine ⟨found, rfl, by omega, fun offset offsetLt => ?_⟩
      have first : offset = 0 := by omega
      rw [first, Nat.add_zero, Nat.mod_eq_of_lt (by omega)]
      exact clear
  | case3 start idxByte inside notEnd idxBit found notOne count nextBit counted =>
      have small : idxBit < 8 := (candidate_spec rfl rfl inside).1
      have clear : btmp.bit mem found = false := (candidate_spec rfl rfl inside).2.1
      have foundLt : found < 2 ^ 32 := by omega
      have countEq : count = cnt - 1 := by omega
      rw [countClear_eq_zero (Nat.mod_lt _ (by decide))] at counted
      cases run
      refine ⟨found, rfl, by omega, fun offset offsetLt => ?_⟩
      cases offset with
      | zero => rw [Nat.add_zero, Nat.mod_eq_of_lt foundLt]; exact clear
      | succ offset =>
          have later := counted offset (by omega)
          rwa [Nat.mod_add_mod, Nat.add_assoc, Nat.add_comm 1] at later
  | case4 start idxByte inside notEnd idxBit found notOne count nextBit notCounted ih =>
      exact ih run
  | case5 start idxByte outside => cases run

theorem bitmapScan_ok {mem : Bytes} {btmp : Bitmap} {cnt : Nat} {result : Option Nat}
    (positive : 1 ≤ cnt) (cntLt : cnt < 2 ^ 32) (lenLe : 8 * btmp.bitmapLen ≤ 2 ^ 32)
    (run : bitmapScan mem btmp cnt = .ok result) :
    ∃ found, result = some found ∧ found < 8 * btmp.bitmapLen ∧
      ∀ offset, offset < cnt → btmp.bit mem ((found + offset) % 2 ^ 32) = false :=
  bitmapScanFrom_ok positive cntLt lenLe run

/-- A scan for one bit that returns finds the lowest clear bit. -/
theorem bitmapScan_one_ok {mem : Bytes} {btmp : Bitmap} {result : Option Nat}
    (run : bitmapScan mem btmp 1 = .ok result) :
    ∃ found, result = some found ∧ found < 8 * btmp.bitmapLen ∧ btmp.bit mem found = false ∧
      ∀ index, index < found → btmp.bit mem index = true := by
  rw [bitmapScan, bitmapScanFrom] at run
  dsimp only at run
  split at run
  · next inside =>
      obtain ⟨small, clear, lower⟩ := candidate_spec rfl rfl inside
      rw [if_neg (by omega), if_pos rfl] at run
      cases run
      exact ⟨_, rfl, by omega, clear, fun index indexLt => lower index (by omega) indexLt⟩
  · cases run

/-- A scan for one bit returns when some bit is clear. -/
theorem bitmapScan_one_of_clear {mem : Bytes} {btmp : Bitmap} {index : Nat}
    (inside : index < 8 * btmp.bitmapLen) (clear : btmp.bit mem index = false) :
    ∃ found, bitmapScan mem btmp 1 = .ok (some found) := by
  have stops : skipFull mem btmp 0 < btmp.bitmapLen := by
    by_contra full
    have set := bit_of_full (full_of_lt_skipFull mem btmp (Nat.zero_le (index / 8)) (by omega))
    rw [clear] at set
    exact absurd set (by decide)
  rw [bitmapScan, bitmapScanFrom]
  dsimp only
  rw [dif_pos stops, if_neg (by omega), if_pos rfl]
  exact ⟨_, rfl⟩

/-- Calls of `bitmap_set`, each with its index and its value. -/
def bitmapSets (mem : Bytes) (btmp : Bitmap) : List (Nat × Int) → Except Fault Bytes
  | [] => .ok mem
  | (bitIdx, value) :: calls => do
      let mem ← bitmapSet mem btmp bitIdx value
      bitmapSets mem btmp calls

/-- What the last call on an index wrote. -/
def lastSet (bitIdx : Nat) : List (Nat × Int) → Option Int
  | [] => none
  | call :: calls => lastSet bitIdx calls <|> if call.1 = bitIdx then some call.2 else none

/-- Indices of the bitmap, and values that are 0 or 1. -/
def BitmapCalls (btmp : Bitmap) (calls : List (Nat × Int)) : Prop :=
  ∀ call ∈ calls, call.1 < 8 * btmp.bitmapLen ∧ (call.2 = 0 ∨ call.2 = 1)

section Runs

variable {btmp : Bitmap} {calls : List (Nat × Int)}

theorem bit_setBit (mem : Bytes) (btmp : Bitmap) (bitIdx index : Nat) (value : Bool) :
    btmp.bit (mem.setBit (8 * btmp.bitmapBits + bitIdx) value) index =
      if index = bitIdx then value else btmp.bit mem index := by
  rw [Bitmap.bit, Bytes.bit_setBit]
  by_cases same : index = bitIdx
  · rw [if_pos same, if_pos (congrArg _ same)]
  · rw [if_neg same, if_neg fun equal => same (Nat.add_left_cancel equal)]
    rfl

/-- Each bit is what was last written to it, and other bytes stay. -/
theorem bitmapSets_ok (valid : BitmapCalls btmp calls) (mem : Bytes) :
    ∃ mem', bitmapSets mem btmp calls = .ok mem' ∧
      (∀ index, (btmp.bit mem' index = true ↔
        (lastSet index calls).getD (if btmp.bit mem index then 1 else 0) = 1)) ∧
      ∀ query, query < btmp.bitmapBits ∨ btmp.bitmapBits + btmp.bitmapLen ≤ query →
        mem' query = mem query := by
  induction calls generalizing mem with
  | nil =>
      refine ⟨mem, rfl, fun index => ?_, fun _ _ => rfl⟩
      cases btmp.bit mem index <;> simp [lastSet]
  | cons call calls ih =>
      obtain ⟨bitIdx, value⟩ := call
      obtain ⟨⟨inside, binary⟩, rest⟩ := List.forall_mem_cons.mp valid
      dsimp only at inside binary
      have value_eq : value = if decide (value = 1) then 1 else 0 := by
        rcases binary with rfl | rfl <;> rfl
      have first : bitmapSet mem btmp bitIdx value =
          .ok (mem.setBit (8 * btmp.bitmapBits + bitIdx) (decide (value = 1))) := by
        conv_lhs => rw [value_eq]
        exact bitmapSet_eq ..
      obtain ⟨mem', run, bits, frame⟩ :=
        ih rest (mem.setBit (8 * btmp.bitmapBits + bitIdx) (decide (value = 1)))
      refine ⟨mem', (bind_ok first).trans run, fun index => ?_, fun query outside => ?_⟩
      · rw [bits, lastSet, bit_setBit]
        cases lastSet index calls with
        | some last => rfl
        | none =>
            by_cases same : bitIdx = index
            · rw [if_pos same.symm, if_pos same]
              rcases binary with rfl | rfl
              · exact iff_of_false (by decide) fun one =>
                  absurd (show (0 : Int) = 1 from one) (by decide)
              · exact iff_of_true rfl rfl
            · rw [if_neg (Ne.symm same), if_neg same]
              rfl
      · rw [frame query outside]
        exact Bytes.setBit_of_ne mem _ (by omega)

/-- From `bitmap_init` on, a test tells what was last written to the very bit. -/
theorem bitmapScanTest_bitmapSets (valid : BitmapCalls btmp calls) (mem : Bytes) :
    ∃ mem', bitmapSets (bitmapInit mem btmp) btmp calls = .ok mem' ∧
      (∀ bitIdx < 8 * btmp.bitmapLen, (bitmapScanTest mem' btmp bitIdx ≠ 0 ↔
        lastSet bitIdx calls = some 1)) ∧
      ∀ query, query < btmp.bitmapBits ∨ btmp.bitmapBits + btmp.bitmapLen ≤ query →
        mem' query = mem query := by
  obtain ⟨mem', run, bits, frame⟩ := bitmapSets_ok valid (bitmapInit mem btmp)
  refine ⟨mem', run, fun bitIdx inside => ?_, fun query outside => ?_⟩
  · have clear : btmp.bit (bitmapInit mem btmp) bitIdx = false := by
      apply Bytes.bit_eq_false_of_byte_zero
      exact Bytes.fill_of_inside mem 0 (by omega) (by omega)
    rw [bitmapScanTest_ne_zero, bits, clear]
    cases lastSet bitIdx calls with
    | none => decide
    | some last => exact Option.some_inj.symm
  · rw [frame query outside]
    exact Bytes.fill_of_outside mem 0 outside

/-- Two bits of one byte, the lower of them set and cleared again. -/
theorem bitmapScanTest_bitmapSets_byte :
    ∃ mem', bitmapSets (bitmapInit (fun _ => 0xff) ⟨2, 100⟩) ⟨2, 100⟩ [(3, 1), (4, 1), (3, 0)] =
      .ok mem' ∧
      (∀ bitIdx < 8 * 2, (bitmapScanTest mem' ⟨2, 100⟩ bitIdx ≠ 0 ↔
        lastSet bitIdx [(3, 1), (4, 1), (3, 0)] = some 1)) ∧
      ∀ query, query < 100 ∨ 100 + 2 ≤ query → mem' query = 0xff :=
  bitmapScanTest_bitmapSets (by simp [BitmapCalls]) fun _ => 0xff

end Runs

end Pumelo
