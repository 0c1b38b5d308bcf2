import Mathlib.Data.Nat.Digits.Lemmas
import Mathlib.Tactic.Ring

/-!
# Numerals and fields

A numeral is the list of the digits of a number, the first one first; zero has one digit.  A
field has a width, and is filled up where its text is shorter.
-/

namespace Foundation

universe u

/-- A number whose upper part is reduced before it is divided with the lower one. -/
theorem words_eq (word base n : Nat) :
    n = base * (n / word / base * word) + (n / word % base * word + n % word) := by
  calc n = word * (n / word) + n % word := (Nat.div_add_mod n _).symm
    _ = word * (base * (n / word / base) + n / word % base) + n % word := by
      rw [Nat.div_add_mod (n / word) base]
    _ = _ := by ring

theorem div_words (word : Nat) {base : Nat} (positive : 0 < base) (n : Nat) :
    n / base = n / word / base * word + (n / word % base * word + n % word) / base := by
  conv_lhs => rw [words_eq word base n, Nat.mul_add_div positive]

theorem mod_words (word base n : Nat) :
    n % base = (n / word % base * word + n % word) % base := by
  conv_lhs => rw [words_eq word base n, Nat.mul_add_mod]

/-- The quotient is a word where the upper one is reduced. -/
theorem div_lt_word {word base upper low : Nat} (reduced : upper < base) (small : low < word) :
    (upper * word + low) / base < word := by
  apply Nat.div_lt_of_lt_mul
  calc upper * word + low < upper * word + word := Nat.add_lt_add_left small _
    _ = (upper + 1) * word := (Nat.succ_mul _ _).symm
    _ ≤ base * word := Nat.mul_le_mul_right _ reduced

/-- The digits of a number in a base. -/
def numeral (base n : Nat) : List Nat :=
  if n = 0 then [0] else (Nat.digits base n).reverse

variable {base n : Nat}

theorem numeral_of_lt (lt : n < base) : numeral base n = [n] := by
  unfold numeral
  split
  · next zero => rw [zero]
  · next pos => rw [Nat.digits_of_lt base n pos lt, List.reverse_singleton]

/-- The last digit is the rest of a division, and the others are those of the quotient. -/
theorem numeral_of_le (two : 2 ≤ base) (le : base ≤ n) :
    numeral base n = numeral base (n / base) ++ [n % base] := by
  have positive : 0 < n := Nat.lt_of_lt_of_le (Nat.lt_of_lt_of_le Nat.two_pos two) le
  have quotient : n / base ≠ 0 := Nat.ne_of_gt (Nat.div_pos le (Nat.lt_of_lt_of_le Nat.two_pos two))
  unfold numeral
  rw [if_neg (Nat.ne_of_gt positive), if_neg quotient, Nat.digits_def' two positive,
    List.reverse_cons]

theorem numeral_length_le (two : 2 ≤ base) {k : Nat} (positive : 0 < k) (lt : n < base ^ k) :
    (numeral base n).length ≤ k := by
  unfold numeral
  split
  · exact positive
  · rw [List.length_reverse]
    exact (Nat.digits_length_le_iff two n).mpr lt

theorem numeral_lt (two : 2 ≤ base) : ∀ digit ∈ numeral base n, digit < base := by
  intro digit member
  unfold numeral at member
  split at member
  · rw [List.mem_singleton.mp member]
    exact Nat.lt_of_lt_of_le Nat.two_pos two
  · exact Nat.digits_lt_base two (List.mem_reverse.mp member)

/-- The first digit is not zero, unless the number is. -/
theorem numeral_head (pos : n ≠ 0) : ∃ digit rest, numeral base n = digit :: rest ∧ digit ≠ 0 := by
  have nonempty : Nat.digits base n ≠ [] := Nat.digits_ne_nil_iff_ne_zero.mpr pos
  refine ⟨(Nat.digits base n).getLast nonempty, (Nat.digits base n).dropLast.reverse, ?_,
    Nat.getLast_digit_ne_zero base pos⟩
  calc numeral base n = (Nat.digits base n).reverse := if_neg pos
    _ = ((Nat.digits base n).dropLast ++ [(Nat.digits base n).getLast nonempty]).reverse := by
      rw [List.dropLast_append_getLast]
    _ = _ := by rw [List.reverse_append, List.reverse_singleton, List.singleton_append]

/-- Reading the digits one after the other gives the number back. -/
theorem numeral_foldl (two : 2 ≤ base) (n : Nat) :
    (numeral base n).foldl (fun value digit => value * base + digit) 0 = n := by
  induction n using Nat.strongRecOn with
  | ind n ih =>
      by_cases lt : n < base
      · rw [numeral_of_lt lt, List.foldl_cons, List.foldl_nil, Nat.zero_mul, Nat.zero_add]
      · have le : base ≤ n := Nat.le_of_not_lt lt
        have smaller : n / base < n := Nat.div_lt_self (by omega) two
        rw [numeral_of_le two le, List.foldl_append, ih _ smaller, List.foldl_cons, List.foldl_nil,
          Nat.div_add_mod']

variable {α : Type u}

/-- Where a field is filled up: before the sign, between it and the digits, or behind them. -/
inductive Fill where
  | left
  | inner
  | right
  deriving DecidableEq, Repr

/-- A sign and digits in a field. -/
def field (fill : Fill) (pad : α) (width : Nat) (sign digits : List α) : List α :=
  let pads := List.replicate (width - (sign.length + digits.length)) pad
  match fill with
  | .left => pads ++ sign ++ digits
  | .inner => sign ++ pads ++ digits
  | .right => sign ++ digits ++ pads

variable (fill : Fill) (pad : α) {width : Nat} {sign digits : List α}

theorem field_length :
    (field fill pad width sign digits).length = max width (sign.length + digits.length) := by
  cases fill <;> simp only [field, List.length_append, List.length_replicate] <;> omega

/-- A text that fills the field stands there alone. -/
theorem field_full (full : width ≤ sign.length + digits.length) :
    field fill pad width sign digits = sign ++ digits := by
  have none : width - (sign.length + digits.length) = 0 := Nat.sub_eq_zero_of_le full
  cases fill <;> simp only [field, none, List.replicate_zero, List.nil_append, List.append_nil]

end Foundation
