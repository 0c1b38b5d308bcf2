import Pumelo.Snprintf

/-!
# Reading numbers

`strtol` on memory, and that it reads what `snprintf` writes.
-/

namespace Pumelo

open Foundation

namespace Putch

section Functions

variable (mem : Bytes)

/-- The loop over the initial whitespace. `left` is what the address space has from `s` on. -/
def skipSpace : (left s : Nat) → Except Fault Nat
  | 0, s => .error (.outOfBounds "s" s)
  | left + 1, s => if mem s = ascii ' ' ∨ mem s = ascii '\t' then skipSpace left (s + 1) else .ok s

/-- The sign, and what is behind it. -/
def readSign (s : Nat) : Bool × Nat :=
  if mem s = ascii '+' then (false, s + 1)
  else if mem s = ascii '-' then (true, s + 1)
  else (false, s)

/-- The base by the prefix, and what is behind it. -/
def readPrefix (base : Int) (s : Nat) : Int × Nat :=
  if (base = 0 ∨ base = 16) ∧ mem s = ascii '0' ∧ mem (s + 1) = ascii 'x' then (16, s + 2)
  else if base = 0 ∧ mem s = ascii '0' then (8, s + 1)
  else if base = 0 then (10, s)
  else (base, s)

/-- The value of a digit. -/
def digitValue (ch : UInt8) : Option Nat :=
  if isDigit ch then some (ch.toNat - 48)
  else if ascii 'a' ≤ ch ∧ ch ≤ ascii 'z' then some (ch.toNat - 97 + 10)
  else if ascii 'A' ≤ ch ∧ ch ≤ ascii 'Z' then some (ch.toNat - 65 + 10)
  else none

/-- The loop over the digits. -/
def readDigits (base : Int) : (left s : Nat) → (val : BitVec 32) → Except Fault (BitVec 32 × Nat)
  | 0, s, _ => .error (.outOfBounds "s" s)
  | left + 1, s, val =>
      match digitValue (mem s) with
      | none => .ok (val, s)
      | some dig =>
          if dig ≥ base then .ok (val, s)
          else readDigits base left (s + 1) (val * .ofInt 32 base + .ofNat 32 dig)

/-- `strtol`, with what it leaves in `endptr`. -/
def strtol (s : Nat) (base : Int) : Except Fault (BitVec 32 × Nat) := do
  let s ← skipSpace mem (2 ^ 32 - s) s
  let (neg, s) := readSign mem s
  let (base, s) := readPrefix mem base s
  let (val, s) ← readDigits mem base (2 ^ 32 - s) s 0
  return (if neg then -val else val, s)

end Functions

/-- The memory has a text from an address on. -/
def Reads (mem : Bytes) (s : Nat) : List UInt8 → Prop
  | [] => True
  | ch :: text => mem s = ch ∧ Reads mem (s + 1) text

theorem reads_iff {mem : Bytes} {s : Nat} {text : List UInt8} :
    Reads mem s text ↔ ∀ i < text.length, mem (s + i) = text.getD i 0 := by
  induction text generalizing s with
  | nil => exact iff_of_true trivial fun i lt => absurd lt (Nat.not_lt_zero i)
  | cons ch text ih =>
      rw [Reads, ih]
      constructor
      · rintro ⟨first, rest⟩ i lt
        cases i with
        | zero => exact first
        | succ i =>
            rw [← Nat.add_assoc, Nat.add_right_comm]
            exact rest i (Nat.lt_of_succ_lt_succ lt)
      · intro all
        refine ⟨all 0 (Nat.succ_pos _), fun i lt => ?_⟩
        rw [Nat.add_assoc, Nat.add_comm 1]
        exact all (i + 1) (Nat.succ_lt_succ lt)

theorem reads_append {mem : Bytes} {s : Nat} {text text' : List UInt8} :
    Reads mem s (text ++ text') ↔ Reads mem s text ∧ Reads mem (s + text.length) text' := by
  induction text generalizing s with
  | nil => exact iff_of_eq (true_and _).symm
  | cons ch text ih => rw [List.cons_append, Reads, Reads, ih, and_assoc, List.length_cons,
      Nat.add_assoc,
      Nat.add_comm 1]

/-- The bytes of an output. -/
def outText (out : List (BitVec 32)) : List UInt8 := out.map fun ch => .ofBitVec (ch.setWidth 8)

/-- A buffer with room for the whole text. -/
theorem Filled.reads {mem mem' : Bytes} {str size : Nat} {out : List (BitVec 32)}
    (filled : Filled mem mem' str size out) (room : out.length < size) :
    Reads mem' str (outText out ++ [0]) := by
  have full : min out.length (size - 1) = out.length := by omega
  rw [reads_append]
  constructor
  · rw [reads_iff]
    intro i lt
    rw [outText, List.length_map] at lt
    rw [filled.text i (by omega), outText, List.getD_eq_getElem _ _ lt,
      List.getD_eq_getElem _ _ (by rwa [List.length_map]), List.getElem_map]
  · have nul := filled.nul
    rw [full] at nul
    rw [outText, List.length_map]
    exact ⟨nul, trivial⟩

/-- The character of a digit. -/
def digitByte (digit : Nat) : UInt8 := .ofNat (if digit < 10 then 48 + digit else 87 + digit)

theorem digitValue_digitByte : ∀ digit < 16, digitValue (digitByte digit) = some digit := by
  decide

theorem digitByte_ne : ∀ digit < 16, digitByte digit ≠ ascii ' ' ∧ digitByte digit ≠ ascii '\t' ∧
    digitByte digit ≠ ascii '+' ∧ digitByte digit ≠ ascii '-' ∧ digitByte digit ≠ ascii 'x' ∧
    (digitByte digit = ascii '0' → digit = 0) := by
  decide

/-- All digits are read, up to the NUL. -/
theorem readDigits_numeral {mem : Bytes} {base : Nat} (sixteen : base ≤ 16) {digits : List Nat}
    (small : ∀ digit ∈ digits, digit < base) {s : Nat}
    (reads : Reads mem s (digits.map digitByte ++ [0]))
    {left : Nat} (enough : digits.length < left) (val : BitVec 32) :
    readDigits mem base left s val =
      .ok (digits.foldl (fun val digit => val * .ofNat 32 base + .ofNat 32 digit) val,
        s + digits.length) := by
  induction digits generalizing s left val with
  | nil =>
      obtain ⟨left, rfl⟩ := Nat.exists_eq_succ_of_ne_zero (Nat.ne_of_gt enough)
      have last : digitValue (mem s) = none := by
        rw [reads.1]
        decide
      rw [readDigits, last]
      rfl
  | cons digit digits ih =>
      obtain ⟨left, rfl⟩ := Nat.exists_eq_succ_of_ne_zero (Nat.ne_zero_of_lt enough)
      obtain ⟨lt, rest⟩ := List.forall_mem_cons.mp small
      have first : digitValue (mem s) = some digit := by
        rw [reads.1]
        exact digitValue_digitByte digit (Nat.lt_of_lt_of_le lt sixteen)
      rw [readDigits, first]
      dsimp only
      rw [if_neg (by omega), ih rest reads.2 (Nat.lt_of_succ_lt_succ enough), List.foldl_cons,
        List.length_cons, Nat.add_assoc, Nat.add_comm 1, BitVec.ofInt_natCast]

theorem foldl_ofNat (base : Nat) (digits : List Nat) (val : Nat) :
    digits.foldl (fun val digit => val * .ofNat 32 base + .ofNat 32 digit) (BitVec.ofNat 32 val) =
      .ofNat 32 (digits.foldl (fun value digit => value * base + digit) val) := by
  induction digits generalizing val with
  | nil => rfl
  | cons digit digits ih =>
      rw [List.foldl_cons, List.foldl_cons, ← ih, BitVec.ofNat_add, BitVec.ofNat_mul]

theorem readDigits_value {mem : Bytes} {base : Nat} (two : 2 ≤ base) (sixteen : base ≤ 16)
    {n s : Nat}
    (reads : Reads mem s ((numeral base n).map digitByte ++ [0]))
    (inside : s + (numeral base n).length < 2 ^ 32) :
    readDigits mem base (2 ^ 32 - s) s 0 = .ok (.ofNat 32 n, s + (numeral base n).length) := by
  have enough : (numeral base n).length < 2 ^ 32 - s := by omega
  rw [readDigits_numeral sixteen (numeral_lt two) reads enough]
  have value := foldl_ofNat base (numeral base n) 0
  rw [numeral_foldl two] at value
  exact congrArg (fun val => Except.ok (val, _)) value

/-- What is behind the whitespace, the sign and the prefix. -/
theorem strtol_parts {mem : Bytes} {s s' s'' end' : Nat} {base base' : Int} {neg : Bool}
    {val : BitVec 32} (space : mem s ≠ ascii ' ' ∧ mem s ≠ ascii '\t') (inside : s < 2 ^ 32)
    (sign : readSign mem s = (neg, s')) (pre : readPrefix mem base s' = (base', s''))
    (digits : readDigits mem base' (2 ^ 32 - s'') s'' 0 = .ok (val, end')) :
    strtol mem s base = .ok (if neg then -val else val, end') := by
  obtain ⟨left, enough⟩ := Nat.exists_eq_succ_of_ne_zero (Nat.sub_ne_zero_of_lt inside)
  have skipped : skipSpace mem (2 ^ 32 - s) s = .ok s := by
    rw [enough]
    exact if_neg fun either => either.elim space.1 space.2
  rw [strtol, bind_ok skipped, sign]
  dsimp only
  rw [pre]
  exact bind_ok digits

/-- The first character of a numeral, and what is behind it. -/
theorem numeral_first {mem : Bytes} {base n s : Nat} (two : 2 ≤ base) (sixteen : base ≤ 16)
    (reads : Reads mem s ((numeral base n).map digitByte ++ [0])) :
    ∃ digit < 16, mem s = digitByte digit ∧ (digit = 0 → n = 0) ∧ mem (s + 1) ≠ ascii 'x' := by
  have small : ∀ digit ∈ numeral base n, digit < 16 :=
    fun digit member => Nat.lt_of_lt_of_le (numeral_lt two digit member) sixteen
  have second {digits : List Nat} (small : ∀ digit ∈ digits, digit < 16) {s : Nat}
      (reads : Reads mem s (digits.map digitByte ++ [0])) : mem s ≠ ascii 'x' := by
    cases digits with
    | nil =>
        rw [reads.1]
        decide
    | cons digit digits =>
        rw [reads.1]
        exact (digitByte_ne digit (List.forall_mem_cons.mp small).1).2.2.2.2.1
  have head : ∃ digit digits, numeral base n = digit :: digits ∧ (digit = 0 → n = 0) := by
    by_cases zero : n = 0
    · exact ⟨0, [], by rw [zero, numeral, if_pos rfl], fun _ => zero⟩
    · obtain ⟨digit, digits, numeral, nonzero⟩ := numeral_head zero
      exact ⟨digit, digits, numeral, fun same => absurd same nonzero⟩
  obtain ⟨digit, digits, numeral, leading⟩ := head
  rw [numeral] at reads small
  obtain ⟨lt, rest⟩ := List.forall_mem_cons.mp small
  exact ⟨digit, lt, reads.1, leading, second rest reads.2⟩

/-- Decimal digits with the base 10, or with none given. -/
theorem readPrefix_decimal {mem : Bytes} {n s : Nat}
    (reads : Reads mem s ((numeral 10 n).map digitByte ++ [0]))
    (inside : s + (numeral 10 n).length < 2 ^ 32) {base : Int} (decimal : base = 10 ∨ base = 0) :
    ∃ base' s', readPrefix mem base s = (base', s') ∧
      readDigits mem base' (2 ^ 32 - s') s' 0 = .ok (.ofNat 32 n, s + (numeral 10 n).length) := by
  have value := readDigits_value (by decide) (by decide) reads inside
  obtain ⟨digit, lt, first, leading, second⟩ := numeral_first (by decide) (by decide) reads
  have noHex : ¬ ((base = 0 ∨ base = 16) ∧ mem s = ascii '0' ∧ mem (s + 1) = ascii 'x') :=
    fun hex => second hex.2.2
  rcases decimal with rfl | rfl
  · refine ⟨10, s, ?_, value⟩
    rw [readPrefix, if_neg noHex, if_neg fun octal => absurd octal.1 (by decide),
      if_neg (by decide)]
  · by_cases zero : mem s = ascii '0'
    · -- the prefix of an octal number is all that there is
      obtain rfl : n = 0 := leading ((digitByte_ne digit lt).2.2.2.2.2 (first ▸ zero))
      have length : (numeral 10 0).length = 1 := by decide
      have nul : Reads mem (s + 1) [0] := by
        have one : numeral 10 0 = [0] := by decide
        rw [one] at reads
        exact reads.2
      refine ⟨8, s + 1, ?_, ?_⟩
      · rw [readPrefix, if_neg noHex, if_pos ⟨rfl, zero⟩]
      · rw [length] at inside ⊢
        have none : ([] : List Nat).length < 2 ^ 32 - (s + 1) := by
          rw [List.length_nil]
          omega
        have small : ∀ digit ∈ ([] : List Nat), digit < 8 := by simp
        exact readDigits_numeral (by decide) small nul none 0
    · refine ⟨10, s, ?_, value⟩
      rw [readPrefix, if_neg noHex, if_neg fun octal => zero octal.2, if_pos rfl]

theorem outText_append (out out' : List (BitVec 32)) :
    outText (out ++ out') = outText out ++ outText out' :=
  List.map_append

/-- `number` without a width. -/
theorem putNumber_text (num : BitVec 64) (base : BitVec 32) (two : 2 ≤ base.toNat)
    (sixteen : base.toNat ≤ 16) (out : List (BitVec 32)) :
    ∃ digits, putNumber collect {} num base out = .ok (out ++ digits) ∧
      outText digits = (numeral base.toNat num.toNat).map digitByte := by
  have short : (numeral base.toNat num.toNat).length ≤ 64 :=
    numeral_length_le two (by decide) (Nat.lt_of_lt_of_le num.isLt (Nat.pow_le_pow_left two 64))
  have pads : (int32 (-1 - (numeral base.toNat num.toNat).length)).toNat = 0 := by
    rw [int32_of_fits (by omega) (by omega)]
    omega
  have chars : ∀ digit < 16, UInt8.ofBitVec ((digitChar digit).setWidth 8) =
    digitByte digit := by decide
  refine ⟨(numeral base.toNat num.toNat).map digitChar, ?_, ?_⟩
  · rw [putNumber_ok collect {} num base two, putAll_collect, printnum_eq two, pads]
    rfl
  · rw [outText, List.map_map]
    apply List.map_congr_left
    intro digit member
    exact chars digit (Nat.lt_of_lt_of_le (numeral_lt two digit member) sixteen)

/-- A conversion without flags. -/
theorem vprintfmt_single {text : List UInt8} (ended : 0 ∉ text) (conv : UInt8)
    (single : pieces text = [.escape [] conv]) {ap : Stack} {put : Except Fault (List (BitVec 32))}
    (converted : convert collect (vprintfmt collect) conv {} ap [] = (do return some ([], ← put))) :
    vprintfmt collect text ap [] = put := by
  have flags : applyFlags {} ap [] = .ok ({}, ap) := by rw [applyFlags]
  rw [vprintfmt_pieces collect ended, single, runPieces, Piece.run, bind_ok flags]
  dsimp only
  rw [converted]
  cases put <;> rfl

/-- The text of `%d`. -/
def decimalText (v : BitVec 32) : List UInt8 :=
  if v.msb then ascii '-' :: (numeral 10 (-v).toNat).map digitByte
  else (numeral 10 v.toNat).map digitByte

theorem vprintfmt_decimal (v : BitVec 32) :
    ∃ out, vprintfmt collect (bytes "%d") [⟨v, []⟩] [] = .ok out ∧ outText out = decimalText v := by
  have run : vprintfmt collect (bytes "%d") [⟨v, []⟩] [] =
      putDecimal collect {} (v.signExtend 64) [] :=
    vprintfmt_single (by decide) (ascii 'd') (by decide +kernel) rfl
  have sign : (v.signExtend 64).slt 0 = v.msb := by
    calc (v.signExtend 64).slt 0 = (v.signExtend 64).msb := BitVec.slt_zero_eq_msb
      _ = v.msb := by simp [BitVec.msb_signExtend]
  have value : (v.signExtend 64).toNat =
      v.toNat % 2 ^ 64 + if v.msb then 2 ^ 64 - 2 ^ 32 else 0 := by
    rw [BitVec.toNat_signExtend, BitVec.toNat_setWidth]
  have small : v.toNat < 2 ^ 32 := v.isLt
  rw [Nat.mod_eq_of_lt (by omega)] at value
  rw [run, putDecimal, sign, decimalText]
  by_cases neg : v.msb = true
  · have magnitude : (-(v.signExtend 64)).toNat = (-v).toNat := by
      have high := BitVec.msb_eq_true_iff_two_mul_ge.mp neg
      rw [BitVec.toNat_neg, BitVec.toNat_neg, value, if_pos neg]
      omega
    obtain ⟨digits, printed, text⟩ := putNumber_text (-(v.signExtend 64)) 10 (by decide) (by decide)
      (collect (signedChar (ascii '-')) [])
    rw [magnitude] at text
    rw [if_pos neg, if_pos neg]
    refine ⟨_, printed, ?_⟩
    rw [outText_append, text]
    rfl
  · obtain ⟨digits, printed, text⟩ := putNumber_text (v.signExtend 64) 10 (by decide) (by decide) []
    rw [value, if_neg neg] at text
    rw [if_neg neg, if_neg neg]
    exact ⟨digits, printed, text⟩

theorem vprintfmt_hex (u : BitVec 32) :
    ∃ out, vprintfmt collect (bytes "%x") [⟨u, []⟩] [] = .ok out ∧
      outText out = (numeral 16 u.toNat).map digitByte := by
  have run : vprintfmt collect (bytes "%x") [⟨u, []⟩] [] =
      putNumber collect {} (u.setWidth 64) 16 [] :=
    vprintfmt_single (by decide) (ascii 'x') (by decide +kernel) rfl
  have small : u.toNat < 2 ^ 32 := u.isLt
  have value : (u.setWidth 64).toNat = u.toNat := by
    rw [BitVec.toNat_setWidth]
    exact Nat.mod_eq_of_lt (by omega)
  obtain ⟨digits, printed, text⟩ := putNumber_text (u.setWidth 64) 16 (by decide) (by decide) []
  rw [value] at text
  rw [run]
  exact ⟨digits, printed, text⟩

/-! ## Round trips -/

/-- A numeral does not begin with whitespace or a sign. -/
theorem unsigned_start {mem : Bytes} {base n s : Nat} (two : 2 ≤ base) (sixteen : base ≤ 16)
    (reads : Reads mem s ((numeral base n).map digitByte ++ [0])) :
    (mem s ≠ ascii ' ' ∧ mem s ≠ ascii '\t') ∧ readSign mem s = (false, s) := by
  obtain ⟨digit, lt, first, -, -⟩ := numeral_first two sixteen reads
  obtain ⟨space, tab, plus, minus, -, -⟩ := digitByte_ne digit lt
  rw [← first] at space tab plus minus
  exact ⟨⟨space, tab⟩, by rw [readSign, if_neg plus, if_neg minus]⟩

theorem strtol_decimal {mem : Bytes} {s : Nat} (v : BitVec 32)
    (reads : Reads mem s (decimalText v ++ [0]))
    (inside : s + (decimalText v).length < 2 ^ 32) {base : Int} (decimal : base = 10 ∨ base = 0) :
    strtol mem s base = .ok (v, s + (decimalText v).length) := by
  unfold decimalText at reads inside ⊢
  by_cases neg : v.msb = true
  · rw [if_pos neg] at reads inside ⊢
    rw [List.length_cons, List.length_map] at inside ⊢
    have first : mem s = ascii '-' := reads.1
    have sign : readSign mem s = (true, s + 1) := by
      rw [readSign, first]
      rfl
    obtain ⟨base', s', pre, digits⟩ := readPrefix_decimal reads.2 (by omega) decimal
    rw [strtol_parts (by rw [first]; decide) (by omega) sign pre digits, if_pos rfl,
      BitVec.ofNat_toNat,
      BitVec.setWidth_eq, BitVec.neg_neg, Nat.add_assoc, Nat.add_comm 1]
  · rw [if_neg neg] at reads inside ⊢
    rw [List.length_map] at inside ⊢
    obtain ⟨space, sign⟩ := unsigned_start (by decide) (by decide) reads
    obtain ⟨base', s', pre, digits⟩ := readPrefix_decimal reads inside decimal
    rw [strtol_parts space (by omega) sign pre digits, if_neg Bool.false_ne_true,
      BitVec.ofNat_toNat,
      BitVec.setWidth_eq]

theorem strtol_hex {mem : Bytes} {s : Nat} (u : BitVec 32)
    (reads : Reads mem s ((numeral 16 u.toNat).map digitByte ++ [0]))
    (inside : s + (numeral 16 u.toNat).length < 2 ^ 32) :
    strtol mem s 16 = .ok (u, s + (numeral 16 u.toNat).length) := by
  obtain ⟨space, sign⟩ := unsigned_start (by decide) (by decide) reads
  obtain ⟨digit, lt, first, leading, second⟩ := numeral_first (by decide) (by decide) reads
  have pre : readPrefix mem 16 s = (16, s) := by
    rw [readPrefix, if_neg fun hex => second hex.2.2,
      if_neg fun octal => absurd octal.1 (by decide),
      if_neg (by decide)]
  rw [strtol_parts space (by omega) sign pre
    (readDigits_value (by decide) (by decide) reads inside),
    if_neg Bool.false_ne_true, BitVec.ofNat_toNat, BitVec.setWidth_eq]

/-- The prefix `0x` in front of the digits. -/
theorem strtol_prefixed {mem : Bytes} {s : Nat} (u : BitVec 32)
    (reads : Reads mem s (bytes "0x" ++ ((numeral 16 u.toNat).map digitByte ++ [0])))
    (inside : s + 2 + (numeral 16 u.toNat).length < 2 ^ 32) :
    strtol mem s 0 = .ok (u, s + 2 + (numeral 16 u.toNat).length) := by
  have zero : mem s = ascii '0' := reads.1
  have letter : mem (s + 1) = ascii 'x' := reads.2.1
  have sign : readSign mem s = (false, s) := by
    rw [readSign, zero]
    rfl
  have pre : readPrefix mem 0 s = (16, s + 2) := if_pos ⟨.inl rfl, zero, letter⟩
  rw [strtol_parts (by rw [zero]; decide) (by omega) sign pre
    (readDigits_value (by decide) (by decide) reads.2.2 inside), if_neg Bool.false_ne_true,
    BitVec.ofNat_toNat, BitVec.setWidth_eq]

/-- `strtol` gives back a number that `snprintf` wrote with room for all of it, and ends at the
NUL. -/
structure RoundTrip (v : BitVec 32) (mem : Bytes) (str size : Nat) : Prop where
  decimal : ∃ (n : Nat) (mem' : Bytes), vsnprintf mem str size (bytes "%d") [⟨v, []⟩] =
    .ok (n, mem') ∧
    n ≤ 11 ∧ (n < size → mem' (str + n) = 0 ∧ strtol mem' str 10 = .ok (v, str + n) ∧
      strtol mem' str 0 = .ok (v, str + n))
  hex : ∃ (n : Nat) (mem' : Bytes), vsnprintf mem str size (bytes "%x") [⟨v, []⟩] = .ok (n, mem') ∧
    n ≤ 8 ∧ (n < size → mem' (str + n) = 0 ∧ strtol mem' str 16 = .ok (v, str + n) ∧
      -- the text behind `0x`, wherever that is
      ∀ (other : Bytes) s, s + 2 + n < 2 ^ 32 → other s = ascii '0' → other (s + 1) = ascii 'x' →
        (∀ i ≤ n, other (s + 2 + i) = mem' (str + i)) →
        other (s + 2 + n) = 0 ∧ strtol other s 0 = .ok (v, s + 2 + n))

theorem decimalText_length (v : BitVec 32) : (decimalText v).length ≤ 11 := by
  have short (n : BitVec 32) : (numeral 10 n.toNat).length ≤ 10 :=
    numeral_length_le (by decide) (by decide) (Nat.lt_trans n.isLt (by decide))
  unfold decimalText
  split
  · rw [List.length_cons, List.length_map]
    exact Nat.succ_le_succ (short _)
  · rw [List.length_map]
    exact Nat.le_succ_of_le (short _)

theorem reads_nul {mem : Bytes} {s : Nat} {text : List UInt8} (reads : Reads mem s (text ++ [0])) :
    mem (s + text.length) = 0 := (reads_append.mp reads).2.1

theorem strtol_snprintf (v : BitVec 32) (mem : Bytes) {str size : Nat} (object : str ≠ 0)
    (positive : 1 ≤ size) (inside : str + size ≤ 2 ^ 32) : RoundTrip v mem str size where
  decimal := by
    obtain ⟨out, run, text⟩ := vprintfmt_decimal v
    have length : out.length = (decimalText v).length := by rw [← text, outText, List.length_map]
    have short : out.length ≤ 11 := length ▸ decimalText_length v
    obtain ⟨mem', written, filled⟩ := vsnprintf_filled run (by omega) mem object positive inside
    refine ⟨out.length, mem', written, short, fun room => ?_⟩
    have reads := filled.reads room
    rw [text] at reads
    rw [length] at room ⊢
    exact ⟨reads_nul reads, strtol_decimal v reads (by omega) (.inl rfl),
      strtol_decimal v reads (by omega) (.inr rfl)⟩
  hex := by
    obtain ⟨out, run, text⟩ := vprintfmt_hex v
    have length : out.length = (numeral 16 v.toNat).length := by
      rw [← List.length_map digitByte, ← text, outText, List.length_map]
    have short : out.length ≤ 8 := length ▸ numeral_length_le (by decide) (by decide) v.isLt
    obtain ⟨mem', written, filled⟩ := vsnprintf_filled run (by omega) mem object positive inside
    refine ⟨out.length, mem', written, short, fun room => ?_⟩
    have reads := filled.reads room
    rw [text] at reads
    have nul := reads_nul reads
    rw [List.length_map, ← length] at nul
    refine ⟨nul, ?_, ?_⟩
    · rw [length]
      exact strtol_hex v reads (by omega)
    · intro other s fits zero letter same
      have moved : Reads other (s + 2) ((numeral 16 v.toNat).map digitByte ++ [0]) := by
        rw [reads_iff] at reads ⊢
        intro i lt
        rw [List.length_append, List.length_map, ← length] at lt
        rw [same i (Nat.le_of_lt_succ lt)]
        apply reads
        rwa [List.length_append, List.length_map, ← length]
      refine ⟨(same _ (Nat.le_refl _)).trans nul, ?_⟩
      rw [length] at fits ⊢
      exact strtol_prefixed v ⟨zero, letter, moved⟩ fits

/-- The most negative number, in a buffer of 16 bytes. -/
theorem strtol_snprintf_intMin : RoundTrip 0x80000000 (fun _ => 0) 0xc0100000 16 :=
  strtol_snprintf 0x80000000 _ (by decide) (by decide) (by decide)

/-- The sign of a text, and what is behind it. -/
def signOf : List UInt8 → Bool × List UInt8
  | [] => (false, [])
  | ch :: text =>
      if ch = ascii '+' then (false, text)
      else if ch = ascii '-' then (true, text)
      else (false, ch :: text)

/-- The base that a text gives by its prefix, and what is behind it. -/
def prefixOf (base : Int) (text : List UInt8) : Int × List UInt8 :=
  if (base = 0 ∨ base = 16) ∧ text.take 2 = [ascii '0', ascii 'x'] then (16, text.drop 2)
  else if base = 0 ∧ text.take 1 = [ascii '0'] then (8, text.drop 1)
  else if base = 0 then (10, text)
  else (base, text)

/-- The digits of a base that a text begins with. -/
def digitsOf (base : Int) : List UInt8 → List Nat
  | [] => []
  | ch :: text =>
      match digitValue ch with
      | none => []
      | some dig => if dig ≥ base then [] else dig :: digitsOf base text

/-- A number that a text begins with, and what is behind it. -/
structure NumberText where
  neg : Bool
  base : Int
  digits : List Nat
  left : List UInt8

/-- Blanks, a sign, a prefix, and as many digits as there are. -/
def numberText (base : Int) (text : List UInt8) : NumberText :=
  let sign := signOf (text.dropWhile fun ch => ch = ascii ' ' ∨ ch = ascii '\t')
  let pre := prefixOf base sign.2
  let digits := digitsOf pre.1 pre.2
  ⟨sign.1, pre.1, digits, pre.2.drop digits.length⟩

def NumberText.value (number : NumberText) : Int :=
  if number.neg then -Nat.ofDigits number.base number.digits.reverse
  else Nat.ofDigits number.base number.digits.reverse

/-- A string up to the NUL at a known address. -/
structure StringAt (mem : Bytes) (s : Nat) (text : List UInt8) (nul : Nat) : Prop where
  reads : Reads mem s (text ++ [0])
  ended : 0 ∉ text
  length : s + text.length = nul

section Every

variable {mem : Bytes} {s nul : Nat} {ch : UInt8} {text : List UInt8}

theorem StringAt.first (at' : StringAt mem s (ch :: text) nul) : mem s = ch := at'.reads.1

theorem StringAt.nil (at' : StringAt mem s [] nul) : mem s = 0 := at'.reads.1

theorem StringAt.tail (at' : StringAt mem s (ch :: text) nul) : StringAt mem (s + 1) text nul where
  reads := at'.reads.2
  ended := fun member => at'.ended (.tail _ member)
  length := by
    rw [← at'.length, List.length_cons]
    omega

theorem skipSpace_string (at' : StringAt mem s text nul) {left : Nat}
    (enough : text.length < left) :
    ∃ s', skipSpace mem left s = .ok s' ∧
      StringAt mem s' (text.dropWhile fun ch => ch = ascii ' ' ∨ ch = ascii '\t') nul := by
  induction text generalizing s left with
  | nil =>
      obtain ⟨left, rfl⟩ := Nat.exists_eq_succ_of_ne_zero (Nat.ne_of_gt enough)
      refine ⟨s, ?_, at'⟩
      rw [skipSpace, at'.nil]
      rfl
  | cons ch text ih =>
      obtain ⟨left, rfl⟩ := Nat.exists_eq_succ_of_ne_zero (Nat.ne_zero_of_lt enough)
      rw [skipSpace, at'.first, List.dropWhile_cons]
      by_cases blank : ch = ascii ' ' ∨ ch = ascii '\t'
      · rw [if_pos blank, if_pos (decide_eq_true blank)]
        exact ih at'.tail (Nat.lt_of_succ_lt_succ enough)
      · rw [if_neg blank, if_neg (by simpa using blank)]
        exact ⟨s, rfl, at'⟩

theorem readSign_string (at' : StringAt mem s text nul) :
    ∃ s', readSign mem s = ((signOf text).1, s') ∧ StringAt mem s' (signOf text).2 nul := by
  cases text with
  | nil =>
      refine ⟨s, ?_, at'⟩
      rw [readSign, at'.nil]
      rfl
  | cons ch text =>
      rw [readSign, at'.first, signOf]
      split
      · exact ⟨s + 1, rfl, at'.tail⟩
      · split
        · exact ⟨s + 1, rfl, at'.tail⟩
        · exact ⟨s, rfl, at'⟩

theorem StringAt.take_one (at' : StringAt mem s text nul) {zero : UInt8} (some : zero ≠ 0) :
    mem s = zero ↔ text.take 1 = [zero] := by
  cases text with
  | nil =>
      rw [at'.nil]
      exact iff_of_false (Ne.symm some) (by simp)
  | cons ch text =>
      rw [at'.first]
      simp

theorem StringAt.take_two (at' : StringAt mem s text nul) {zero letter : UInt8} (some : zero ≠ 0)
    (some' : letter ≠ 0) : mem s = zero ∧ mem (s + 1) = letter ↔ text.take 2 = [zero, letter] := by
  cases text with
  | nil =>
      rw [at'.nil]
      exact iff_of_false (fun both => some both.1.symm) (by simp)
  | cons ch text =>
      rw [at'.first, at'.tail.take_one some', List.take_succ_cons, List.cons.injEq]

theorem StringAt.drop (at' : StringAt mem s text nul) {count : Nat} (le : count ≤ text.length) :
    StringAt mem (s + count) (text.drop count) nul where
  reads := by
    have reads := at'.reads
    rw [← List.take_append_drop count text, List.append_assoc, reads_append,
      List.length_take_of_le le] at reads
    exact reads.2
  ended := fun member => at'.ended (List.mem_of_mem_drop member)
  length := by
    rw [← at'.length, List.length_drop]
    omega

theorem readPrefix_string (at' : StringAt mem s text nul) (base : Int) :
    ∃ s', readPrefix mem base s = ((prefixOf base text).1, s') ∧
      StringAt mem s' (prefixOf base text).2 nul := by
  have hex : mem s = ascii '0' ∧ mem (s + 1) = ascii 'x' ↔ text.take 2 = [ascii '0', ascii 'x'] :=
    at'.take_two (by decide) (by decide)
  have octal : mem s = ascii '0' ↔ text.take 1 = [ascii '0'] := at'.take_one (by decide)
  have long {count : Nat} {first : List UInt8} (taken : text.take count = first)
    (full : first.length = count) :
      count ≤ text.length := by
    rw [← taken, List.length_take] at full
    omega
  unfold readPrefix prefixOf
  by_cases sixteen : (base = 0 ∨ base = 16) ∧ text.take 2 = [ascii '0', ascii 'x']
  · rw [if_pos ⟨sixteen.1, hex.mpr sixteen.2⟩, if_pos sixteen]
    exact ⟨s + 2, rfl, at'.drop (long sixteen.2 rfl)⟩
  · rw [if_neg fun both => sixteen ⟨both.1, hex.mp both.2⟩, if_neg sixteen]
    by_cases eight : base = 0 ∧ text.take 1 = [ascii '0']
    · rw [if_pos ⟨eight.1, octal.mpr eight.2⟩, if_pos eight]
      exact ⟨s + 1, rfl, at'.drop (long eight.2 rfl)⟩
    · rw [if_neg fun both => eight ⟨both.1, octal.mp both.2⟩, if_neg eight]
      split <;> exact ⟨s, rfl, at'⟩

theorem readDigits_string (at' : StringAt mem s text nul) (base : Int) {left : Nat}
    (enough : text.length < left) (val : BitVec 32) :
    ∃ s', readDigits mem base left s val = .ok ((digitsOf base text).foldl
        (fun val dig => val * .ofInt 32 base + .ofNat 32 dig) val, s') ∧
      StringAt mem s' (text.drop (digitsOf base text).length) nul := by
  induction text generalizing s left val with
  | nil =>
      obtain ⟨left, rfl⟩ := Nat.exists_eq_succ_of_ne_zero (Nat.ne_of_gt enough)
      refine ⟨s, ?_, at'⟩
      rw [readDigits, at'.nil]
      rfl
  | cons ch text ih =>
      obtain ⟨left, rfl⟩ := Nat.exists_eq_succ_of_ne_zero (Nat.ne_zero_of_lt enough)
      rw [readDigits, at'.first, digitsOf]
      split
      · exact ⟨s, rfl, at'⟩
      · split
        · exact ⟨s, rfl, at'⟩
        · exact ih at'.tail (Nat.lt_of_succ_lt_succ enough) _

theorem foldl_ofInt (base : Int) (digits : List Nat) (val : Int) :
    digits.foldl (fun val dig => val * .ofInt 32 base + .ofNat 32 dig) (BitVec.ofInt 32 val) =
      .ofInt 32 (digits.foldl (fun (value : Int) (dig : Nat) => value * base + dig) val) := by
  induction digits generalizing val with
  | nil => rfl
  | cons digit digits ih =>
      rw [List.foldl_cons, List.foldl_cons, ← ih, BitVec.ofInt_add, BitVec.ofInt_mul,
        BitVec.ofInt_natCast]

theorem foldl_ofDigits (base : Int) (digits : List Nat) :
    digits.foldl (fun (value : Int) (dig : Nat) => value * base + dig) 0 =
      Nat.ofDigits base digits.reverse := by
  rw [Nat.ofDigits_eq_foldr, List.foldr_reverse]
  have step : (fun (value : Int) (dig : Nat) => value * base + dig) =
      fun (value : Int) (dig : Nat) => dig + base * value := by
    funext value dig
    ring
  rw [step]

theorem readDigits_ofDigits (at' : StringAt mem s text nul) (inside : nul < 2 ^ 32) (base : Int) :
    ∃ s', readDigits mem base (2 ^ 32 - s) s 0 =
        .ok (.ofInt 32 (Nat.ofDigits base (digitsOf base text).reverse), s') ∧
      StringAt mem s' (text.drop (digitsOf base text).length) nul := by
  have room : text.length < 2 ^ 32 - s := by
    have length := at'.length
    omega
  obtain ⟨s', read, behind⟩ := readDigits_string at' base room 0
  have value := foldl_ofInt base (digitsOf base text) 0
  rw [foldl_ofDigits] at value
  exact ⟨s', read.trans (congrArg (fun val => Except.ok (val, s')) value), behind⟩

/-- For every string and every base: the number that the string begins with, by its digits and as
far as 32 bits hold it, and the address of what is behind it. -/
theorem strtol_reads (at' : StringAt mem s text nul) (inside : nul < 2 ^ 32) (base : Int) :
    strtol mem s base =
      .ok (.ofInt 32 (numberText base text).value, nul - (numberText base text).left.length) := by
  have space : text.length < 2 ^ 32 - s := by
    have length := at'.length
    omega
  obtain ⟨s₁, skipped, at₁⟩ := skipSpace_string at' space
  obtain ⟨s₂, signed, at₂⟩ := readSign_string at₁
  obtain ⟨s₃, prefixed, at₃⟩ := readPrefix_string at₂ base
  obtain ⟨s₄, read, at₄⟩ := readDigits_ofDigits at₃ inside _
  have last : s₄ = nul - (numberText base text).left.length := Nat.eq_sub_of_add_eq at₄.length
  have sign (neg : Bool) (value : Int) :
      (if neg then -BitVec.ofInt 32 value else .ofInt 32 value) =
        BitVec.ofInt 32 (if neg then -value else value) := by
    cases neg with
    | true => exact BitVec.ofInt_neg.symm
    | false => rfl
  rw [strtol, bind_ok skipped, signed]
  dsimp only
  rw [prefixed]
  refine (bind_ok read).trans ?_
  rw [last]
  exact congrArg (fun val => Except.ok (val, _)) (sign _ _)

/-- A blank, a sign and an octal number, with a digit behind it that is none of the base. -/
theorem strtol_reads_octal :
    strtol (fun addr => (bytes " -0178").getD (addr - 0xc0100000) 0) 0xc0100000 0 =
    .ok (.ofInt 32 (-15), 0xc0100005) := by
  have at' : StringAt (fun addr => (bytes " -0178").getD (addr - 0xc0100000) 0) 0xc0100000
      (bytes " -0178") 0xc0100006 :=
    ⟨⟨rfl, rfl, rfl, rfl, rfl, rfl, rfl, trivial⟩, by decide, rfl⟩
  exact strtol_reads at' (by decide) 0

end Every

end Putch

end Pumelo
