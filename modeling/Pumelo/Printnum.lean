import Pumelo.NumberField

/-!
# Printing numbers

`do_div` by the division instruction, and `printnum` with the `putch` that it calls.
-/

namespace Pumelo

open Foundation

/-- `divl`: a quotient that does not fit raises exception 0, from which the handler returns to the
same instruction. -/
def divl (upper low base : BitVec 32) : Except Fault (BitVec 32 × BitVec 32) :=
  let n := upper.toNat * 2 ^ 32 + low.toNat
  if base = 0 ∨ 2 ^ 32 ≤ n / base.toNat then .error .diverge
  else .ok (.ofNat 32 (n / base.toNat), .ofNat 32 (n % base.toNat))

/-- The upper word of a number, as its quotient and its rest. -/
def divHigh (high base : BitVec 32) : Except Fault (BitVec 32 × BitVec 32) :=
  if high ≠ 0 then divl 0 high base else .ok (high, high)

/-- `do_div`: the quotient that is left in `n`, and the rest. -/
def doDivl (n : BitVec 64) (base : BitVec 32) : Except Fault (BitVec 64 × BitVec 32) := do
  let (high, upper) ← divHigh (n.extractLsb' 32 32) base
  let (low, mod) ← divl upper (n.setWidth 32) base
  return (high ++ low, mod)

variable {base : BitVec 32}

theorem divl_ok (upper : BitVec 32) {low : BitVec 32} (reduced : upper.toNat < base.toNat) :
    divl upper low base =
      .ok (.ofNat 32 ((upper.toNat * 2 ^ 32 + low.toNat) / base.toNat),
        .ofNat 32 ((upper.toNat * 2 ^ 32 + low.toNat) % base.toNat)) := by
  have nonzero : base ≠ 0 := by
    rintro rfl
    exact Nat.not_lt_zero _ reduced
  have small : (upper.toNat * 2 ^ 32 + low.toNat) / base.toNat < 2 ^ 32 :=
    div_lt_word reduced low.isLt
  exact if_neg (not_or.mpr ⟨nonzero, Nat.not_le.mpr small⟩)

theorem divHigh_ok {high : BitVec 32} (positive : 0 < base.toNat) :
    divHigh high base =
      .ok (.ofNat 32 (high.toNat / base.toNat), .ofNat 32 (high.toNat % base.toNat)) := by
  have zero : (0 : BitVec 32).toNat = 0 := rfl
  unfold divHigh
  split
  · rw [divl_ok 0 positive, zero, Nat.zero_mul, Nat.zero_add]
  · next none =>
      rw [not_ne_iff.mp none, zero, Nat.zero_div, Nat.zero_mod]
      rfl

theorem toNat_words (high low : BitVec 32) :
    (high ++ low).toNat = high.toNat * 2 ^ 32 + low.toNat := by
  rw [BitVec.toNat_append, ← Nat.shiftLeft_add_eq_or_of_lt low.isLt, Nat.shiftLeft_eq]

/-- The quotient and the rest are exact, and no division raises an exception. -/
theorem doDivl_eq (n : BitVec 64) (positive : 0 < base.toNat) :
    doDivl n base = .ok (.ofNat 64 (n.toNat / base.toNat), .ofNat 32 (n.toNat % base.toNat)) := by
  let upper := n.toNat / 2 ^ 32 % base.toNat
  let rest := upper * 2 ^ 32 + n.toNat % 2 ^ 32
  have lowWord : (n.setWidth 32).toNat = n.toNat % 2 ^ 32 := BitVec.toNat_setWidth 32 n
  have highWord : (n.extractLsb' 32 32).toNat = n.toNat / 2 ^ 32 := by
    rw [BitVec.extractLsb'_toNat, Nat.shiftRight_eq_div_pow]
    exact Nat.mod_eq_of_lt (Nat.div_lt_of_lt_mul n.isLt)
  have less : upper < base.toNat := Nat.mod_lt _ positive
  have upperWord : (BitVec.ofNat 32 upper).toNat = upper :=
    Nat.mod_eq_of_lt (Nat.lt_trans less base.isLt)
  have run : doDivl n base =
      .ok (BitVec.ofNat 32 (n.toNat / 2 ^ 32 / base.toNat) ++ BitVec.ofNat 32 (rest / base.toNat),
        BitVec.ofNat 32 (rest % base.toNat)) := by
    rw [doDivl, divHigh_ok positive, highWord]
    dsimp only [bind, Except.bind]
    rw [divl_ok (BitVec.ofNat 32 upper) (upperWord.symm ▸ less), lowWord, upperWord]
    rfl
  have small : n.toNat / 2 ^ 32 / base.toNat < 2 ^ 32 :=
    Nat.lt_of_le_of_lt (Nat.div_le_self _ _) (Nat.div_lt_of_lt_mul n.isLt)
  have quotient : n.toNat / base.toNat =
      n.toNat / 2 ^ 32 / base.toNat * 2 ^ 32 + rest / base.toNat := div_words _ positive _
  have word : BitVec.ofNat 32 (n.toNat / 2 ^ 32 / base.toNat) ++
    BitVec.ofNat 32 (rest / base.toNat) =
      BitVec.ofNat 64 (n.toNat / base.toNat) := by
    apply BitVec.eq_of_toNat_eq
    have restSmall : rest / base.toNat < 2 ^ 32 := div_lt_word less (Nat.mod_lt _ (by decide))
    rw [toNat_words, BitVec.toNat_ofNat, BitVec.toNat_ofNat, BitVec.toNat_ofNat,
      Nat.mod_eq_of_lt small, Nat.mod_eq_of_lt restSmall, ← quotient]
    exact (Nat.mod_eq_of_lt (Nat.lt_of_le_of_lt (Nat.div_le_self _ _) n.isLt)).symm
  rw [run, word, ← mod_words]

variable {σ : Type} (putch : BitVec 32 → σ → σ)

/-- `putch` with one character after the other. -/
def putAll (text : List (BitVec 32)) (s : σ) : σ := text.foldl (fun s ch => putch ch s) s

@[simp] theorem putAll_nil (s : σ) : putAll putch [] s = s := rfl

@[simp] theorem putAll_cons (ch : BitVec 32) (text : List (BitVec 32)) (s : σ) :
    putAll putch (ch :: text) s = putAll putch text (putch ch s) := rfl

@[simp] theorem putAll_append (first second : List (BitVec 32)) (s : σ) :
    putAll putch (first ++ second) s = putAll putch second (putAll putch first s) :=
  List.foldl_append

namespace Putch

/-- A loop that counts a width down to 0 and pads. -/
def pads (padc : BitVec 32) : (width : Nat) → σ → σ
  | 0, s => s
  | width + 1, s => pads padc width (putch padc s)

/-- `printnum`. A number of 64 bits has no more than 64 digits; with base 1 the recursion does not
end. -/
def printnumFrom (base : BitVec 32) (padc : BitVec 32) :
    (depth : Nat) → (num : BitVec 64) → (width : Int) → σ → Except Fault σ
  | 0, _, _, _ => .error .diverge
  | depth + 1, num, width, s => do
      let (result, mod) ← doDivl num base
      let s ← (
        if base.setWidth 64 ≤ num then printnumFrom base padc depth result (int32 (width - 1)) s
        -- `while (-- width > 0)` pads as often as the width is once counted down
        else .ok (pads putch padc (int32 (width - 1)).toNat s))
      return putch (digitChar mod.toNat) s

def printnum (num : BitVec 64) (base : BitVec 32) (width : Int) (padc : BitVec 32) (s : σ) :
    Except Fault σ :=
  printnumFrom putch base padc 64 num width s

theorem pads_eq (padc : BitVec 32) (width : Nat) (s : σ) :
    pads putch padc width s = putAll putch (List.replicate width padc) s := by
  induction width generalizing s with
  | zero => rfl
  | succ width ih => exact ih (putch padc s)

/-- Enough levels of the recursion print what the numeral has. -/
theorem printnumFrom_eq (two : 2 ≤ base.toNat) (padc : BitVec 32) {depth : Nat} {num : BitVec 64}
    (enough : num.toNat < base.toNat ^ depth) (positive : depth ≠ 0) (width : Int) (s : σ) :
    printnumFrom putch base padc depth num width s =
      .ok (putAll putch (Pumelo.printnum num.toNat base.toNat width padc) s) := by
  induction depth generalizing num width s with
  | zero => exact absurd rfl positive
  | succ depth ih =>
      have nonzero : 0 < base.toNat := Nat.lt_of_lt_of_le Nat.two_pos two
      have same : base.setWidth 64 ≤ num ↔ base.toNat ≤ num.toNat := by
        rw [BitVec.le_def, BitVec.toNat_setWidth, Nat.mod_eq_of_lt (by omega)]
      have quotient : (BitVec.ofNat 64 (num.toNat / base.toNat)).toNat = num.toNat / base.toNat :=
        Nat.mod_eq_of_lt (Nat.lt_of_le_of_lt (Nat.div_le_self _ _) num.isLt)
      have rest : (BitVec.ofNat 32 (num.toNat % base.toNat)).toNat = num.toNat % base.toNat :=
        Nat.mod_eq_of_lt (Nat.lt_trans (Nat.mod_lt _ nonzero) base.isLt)
      rw [printnumFrom, doDivl_eq num nonzero, Pumelo.printnum, doDiv_eq _ nonzero]
      dsimp only [bind, Except.bind]
      rw [rest]
      by_cases more : base.toNat ≤ num.toNat
      · have deeper : depth ≠ 0 := by
          rintro rfl
          rw [Nat.zero_add, Nat.pow_one] at enough
          exact Nat.not_le_of_lt enough more
        have left : (BitVec.ofNat 64 (num.toNat / base.toNat)).toNat < base.toNat ^ depth := by
          rw [quotient]
          exact Nat.div_lt_of_lt_mul (by rwa [Nat.pow_succ'] at enough)
        rw [if_pos (same.mpr more), ih left deeper, quotient, dif_pos ⟨more, two⟩, putAll_append]
        rfl
      · rw [if_neg fun le => more (same.mp le), dif_neg fun le => more le.1, putAll_append, pads_eq]
        rfl

/-- The characters `0` to `9` and `a` to `f`. -/
def hexDigit (digit : Nat) : BitVec 32 := .ofNat 32 (if digit < 10 then 48 + digit else 87 + digit)

theorem digitChar_eq_hexDigit : ∀ digit < 16, digitChar digit = hexDigit digit := by
  decide

theorem int32_of_fits {value : Int} (low : -2 ^ 31 ≤ value) (high : value < 2 ^ 31) :
    int32 value = value := by
  rw [int32, Int.bmod_eq_of_le] <;> omega

/-- The number is divided without an exception, and printed by its digits with the rest of the
width before them. -/
theorem printnum_prints (num : BitVec 64) (base : BitVec 32) (two : 2 ≤ base.toNat)
    (sixteen : base.toNat ≤ 16) (padc : BitVec 32) (width : Int)
    (fits : -2 ^ 31 ≤ width - (numeral base.toNat num.toNat).length ∧ width < 2 ^ 31) (s : σ) :
    (∀ n : BitVec 64, doDivl n base =
      .ok (.ofNat 64 (n.toNat / base.toNat), .ofNat 32 (n.toNat % base.toNat))) ∧
    printnum putch num base width padc s =
      .ok (putAll putch
        (List.replicate (max 0 (width - (numeral base.toNat num.toNat).length)).toNat padc ++
          (numeral base.toNat num.toNat).map hexDigit) s) := by
  refine ⟨fun n => doDivl_eq n (Nat.lt_of_lt_of_le Nat.two_pos two), ?_⟩
  have digits : num.toNat < base.toNat ^ 64 :=
    Nat.lt_of_lt_of_le num.isLt (Nat.pow_le_pow_left two 64)
  have pads : (int32 (width - (numeral base.toNat num.toNat).length)).toNat =
      (max 0 (width - (numeral base.toNat num.toNat).length)).toNat := by
    rw [int32_of_fits fits.1 (by omega)]
    omega
  have chars : (numeral base.toNat num.toNat).map digitChar =
      (numeral base.toNat num.toNat).map hexDigit := by
    apply List.map_congr_left
    intro digit member
    exact digitChar_eq_hexDigit digit (Nat.lt_of_lt_of_le (numeral_lt two digit member) sixteen)
  rw [printnum, printnumFrom_eq putch two padc digits (by decide), printnum_eq two, pads, chars]

/-- 255 in a field of 5 hexadecimal digits. -/
theorem printnum_prints_255 :
    (∀ n : BitVec 64, doDivl n 16 = .ok (.ofNat 64 (n.toNat / 16), .ofNat 32 (n.toNat % 16))) ∧
    printnum (fun ch text => text ++ [ch]) 255 16 5 32 [] = .ok [32, 32, 32, 102, 102] := by
  have prints := printnum_prints (fun ch text => text ++ [ch]) 255 16 (by decide) (by decide) 32 5
    (by decide +kernel) []
  exact ⟨prints.1, prints.2.trans (by decide +kernel)⟩

end Putch

end Pumelo
