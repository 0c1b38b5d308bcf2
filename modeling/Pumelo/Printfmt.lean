import Mathlib.Data.List.TakeWhile
import Pumelo.Console
import Pumelo.Foundation.Numeral

/-!
# Formatted printing

`printfmt.c`, and the functions of `stdio.c` that take no lock.  What is printed does not depend
on what `putch` does, so that a format gives the list of values that are passed to it.

A string stands for its bytes up to the NUL.  `char` is signed and `int` has 32 bits and wraps.
-/

namespace Pumelo

open Foundation

/-- What an `int` holds. -/
def int32 (value : Int) : Int := value.bmod (2 ^ 32)

/-- The code of a character in the source. -/
@[reducible] def ascii (c : Char) : UInt8 := .ofNat c.toNat

/-- A string of the source. -/
def bytes (text : String) : List UInt8 := text.toList.map ascii

/-- `*(unsigned char *)p` as an `int`. -/
def unsignedChar (byte : UInt8) : BitVec 32 := byte.toBitVec.setWidth 32

/-- `*p` as an `int`. -/
def signedChar (byte : UInt8) : BitVec 32 := byte.toBitVec.signExtend 32

/-- What lies on the stack behind the format: a word, or the address of a string. -/
inductive VaArg where
  | word (value : BitVec 32)
  | str (text : List UInt8)
  deriving DecidableEq, Repr

abbrev VaList := List VaArg

/-- `va_arg(ap, int)` -/
def vaInt : VaList → Except Fault (BitVec 32 × VaList)
  | .word value :: ap => .ok (value, ap)
  | _ => .error (.outOfBounds "ap" 0)

/-- `va_arg(ap, long long)` -/
def vaLongLong (ap : VaList) : Except Fault (BitVec 64 × VaList) := do
  let (low, ap) ← vaInt ap
  let (high, ap) ← vaInt ap
  return (high ++ low, ap)

/-- `va_arg(ap, char *)`, where `NULL` is none. -/
def vaString : VaList → Except Fault (Option (List UInt8) × VaList)
  | .str text :: ap => .ok (some text, ap)
  | .word 0 :: ap => .ok (none, ap)
  | _ => .error (.outOfBounds "ap" 0)

/-- The body of `getuint` and `getint`, which widen an `int` each in its way. -/
def getWidened (widen : BitVec 32 → BitVec 64) (ap : VaList) (lflag : Nat) :
    Except Fault (BitVec 64 × VaList) :=
  if lflag ≥ 2 then vaLongLong ap
  else do
    let (value, ap) ← vaInt ap
    return (widen value, ap)

/-- `getuint` -/
def getuint (ap : VaList) (lflag : Nat) : Except Fault (BitVec 64 × VaList) :=
  getWidened (·.setWidth 64) ap lflag

/-- `getint` -/
def getint (ap : VaList) (lflag : Nat) : Except Fault (BitVec 64 × VaList) :=
  getWidened (·.signExtend 64) ap lflag

/-- `do_div`: two divisions of 32 bits, the second one of the first one's rest with the low
word. -/
def doDiv (n base : Nat) : Nat × Nat :=
  let high := n / 2 ^ 32
  let low := n % 2 ^ 32
  let upper := if high ≠ 0 then high % base else high
  let high := if high ≠ 0 then high / base else high
  (high * 2 ^ 32 + (upper * 2 ^ 32 + low) / base, (upper * 2 ^ 32 + low) % base)

/-- `"0123456789abcdef"[mod]` -/
def digitChar (mod : Nat) : BitVec 32 :=
  signedChar ((bytes "0123456789abcdef").getD mod 0)

theorem doDiv_eq (n : Nat) {base : Nat} (positive : 0 < base) :
    doDiv n base = (n / base, n % base) := by
  have upper : (if n / 2 ^ 32 ≠ 0 then n / 2 ^ 32 % base else n / 2 ^ 32) = n / 2 ^ 32 % base := by
    split
    · rfl
    · next zero => rw [not_ne_iff.mp zero, Nat.zero_mod]
  have high : (if n / 2 ^ 32 ≠ 0 then n / 2 ^ 32 / base else n / 2 ^ 32) = n / 2 ^ 32 / base := by
    split
    · rfl
    · next zero => rw [not_ne_iff.mp zero, Nat.zero_div]
  simp only [doDiv, upper, high]
  rw [← div_words _ positive, ← mod_words]

/-- `printnum`. The base is 8, 10 or 16; below 2 the recursion would not end. -/
def printnum (num base : Nat) (width : Int) (padc : BitVec 32) : List (BitVec 32) :=
  let result := (doDiv num base).1
  let mod := (doDiv num base).2
  if _more : base ≤ num ∧ 2 ≤ base then
    printnum result base (int32 (width - 1)) padc ++ [digitChar mod]
  else
    -- `while (-- width > 0)` pads as often as the width is once counted down
    List.replicate (int32 (width - 1)).toNat padc ++ [digitChar mod]
termination_by num
decreasing_by
  rw [doDiv_eq num (by omega)]
  exact Nat.div_lt_self (by omega) (by omega)

/-- What the flags of an escape sequence say. -/
structure Spec where
  padc : UInt8 := ascii ' '
  width : Int := -1
  precision : Int := -1
  lflag : Nat := 0
  altflag : Bool := false
  deriving DecidableEq, Repr

/-- `process_precision` -/
def processPrecision (spec : Spec) : Spec :=
  if spec.width < 0 then { spec with width := spec.precision, precision := -1 } else spec

def isDigit (ch : UInt8) : Prop := ascii '0' ≤ ch ∧ ch ≤ ascii '9'

instance (ch : UInt8) : Decidable (isDigit ch) := inferInstanceAs (Decidable (_ ∧ _))

/-- The loop of the width field, with what it leaves of the format. -/
def widthField (precision : Int) (ch : UInt8) : (fmt : List UInt8) → Int × List UInt8
  | [] => (int32 (precision * 10 + ch.toNat - 48), [])
  | next :: fmt =>
      let precision := int32 (precision * 10 + ch.toNat - 48)
      if isDigit next then widthField precision next fmt else (precision, next :: fmt)

theorem widthField_length (precision : Int) (ch : UInt8) (fmt : List UInt8) :
    (widthField precision ch fmt).2.length ≤ fmt.length := by
  induction fmt generalizing precision ch with
  | nil => exact Nat.le_refl _
  | cons next fmt ih =>
      rw [widthField]
      split
      · exact Nat.le_succ_of_le (ih ..)
      · exact Nat.le_refl _

/-- `reswitch`: the flags up to the conversion, with what is left behind it. -/
def reswitch (spec : Spec) (ap : VaList) (fmt : List UInt8) :
    Except Fault (UInt8 × Spec × VaList × List UInt8) :=
  match fmt with
  | [] => .ok (0, spec, ap, [])
  | ch :: fmt =>
      if ch = ascii '-' then reswitch { spec with padc := ascii '-' } ap fmt
      else if ch = ascii '0' then reswitch { spec with padc := ascii '0' } ap fmt
      else if ascii '1' ≤ ch ∧ ch ≤ ascii '9' then
        let field := widthField 0 ch fmt
        reswitch (processPrecision { spec with precision := field.1 }) ap field.2
      else if ch = ascii '*' then do
        let (precision, ap) ← vaInt ap
        reswitch (processPrecision { spec with precision := precision.toInt }) ap fmt
      else if ch = ascii '.' then
        reswitch (if spec.width < 0 then { spec with width := 0 } else spec) ap fmt
      else if ch = ascii '#' then reswitch { spec with altflag := true } ap fmt
      else if ch = ascii 'l' then reswitch { spec with lflag := spec.lflag + 1 } ap fmt
      else .ok (ch, spec, ap, fmt)
termination_by fmt.length
decreasing_by
  all_goals simp only [List.length_cons]
  all_goals first
  | exact Nat.lt_succ_of_le (widthField_length ..)
  | exact Nat.lt_succ_self _

/-- `error_string`, from 1 on. -/
def errorString : List String :=
  ["unspecified error", "bad process", "invalid parameter", "out of memory", "out of processes",
    "segmentation fault"]

/-- The conversion to text. `strnlen` counts what the loop then prints. -/
def putString (spec : Spec) (text : List UInt8) : List (BitVec 32) :=
  let text := text.takeWhile (· ≠ 0)
  let shown := if spec.precision < 0 then text else text.take spec.precision.toNat
  let padded := spec.width > 0 ∧ spec.padc ≠ ascii '-'
  let lead := if padded then int32 (spec.width - shown.length) else 0
  let width := if padded then min lead 0 else spec.width
  List.replicate lead.toNat (signedChar spec.padc) ++
    (shown.map fun ch =>
      if spec.altflag ∧ (ch < ascii ' ' ∨ ascii '~' < ch) then signedChar (ascii '?')
      else signedChar ch) ++
    List.replicate (int32 (width - shown.length)).toNat (signedChar (ascii ' '))

/-- `number` -/
def putNumber (spec : Spec) (num : BitVec 64) (base : Nat) : List (BitVec 32) :=
  printnum num.toNat base spec.width (signedChar spec.padc)

/-- The sign of `d`, and the number without it. -/
def putDecimal (spec : Spec) (num : BitVec 64) : List (BitVec 32) :=
  if num.slt 0 then signedChar (ascii '-') :: putNumber spec (-num) 10 else putNumber spec num 10

/-- The text of an error code; `printfmt` of "error %d" and of "%s" without flags. -/
def putError (code : BitVec 32) : Except Fault (List (BitVec 32)) :=
  let err := if code.slt 0 then -code else code
  if err.slt 0 then .error (.outOfBounds "error_string" err.toNat)
  else
    match errorString[err.toNat - 1]? with
    | some text => if err = 0 then .ok (error err) else .ok (putString {} (bytes text))
    | none => .ok (error err)
where
  error (err : BitVec 32) : List (BitVec 32) :=
    (bytes "error ").map unsignedChar ++ putDecimal {} (err.signExtend 64)

/-- The conversions, with the arguments left; none where the sequence is not recognised. -/
def convert (ch : UInt8) (spec : Spec) (ap : VaList) :
    Except Fault (Option (List (BitVec 32) × VaList)) :=
  if ch = ascii 'c' then do
    let (value, ap) ← vaInt ap
    return some ([value], ap)
  else if ch = ascii 'e' then do
    let (code, ap) ← vaInt ap
    return some (← putError code, ap)
  else if ch = ascii 's' then do
    let (text, ap) ← vaString ap
    return some (putString spec (text.getD (bytes "(null)")), ap)
  else if ch = ascii 'd' then do
    let (num, ap) ← getint ap spec.lflag
    return some (putDecimal spec num, ap)
  else if ch = ascii 'u' then do
    let (num, ap) ← getuint ap spec.lflag
    return some (putNumber spec num 10, ap)
  else if ch = ascii 'o' then do
    let (num, ap) ← getuint ap spec.lflag
    return some (putNumber spec num 8, ap)
  else if ch = ascii 'p' then do
    let (value, ap) ← vaInt ap
    return some ([signedChar (ascii '0'), signedChar (ascii 'x')] ++
      putNumber spec (value.setWidth 64) 16, ap)
  else if ch = ascii 'x' then do
    let (num, ap) ← getuint ap spec.lflag
    return some (putNumber spec num 16, ap)
  else if ch = ascii '%' then .ok (some ([unsignedChar ch], ap))
  else .ok none

/-- `vprintfmt`, which reads at least one character of the format in each turn. -/
def vprintfmtFrom (fmt : List UInt8) (ap : VaList) : (fuel : Nat) →
    Except Fault (List (BitVec 32))
  | 0 => .error .diverge
  | fuel + 1 =>
      match fmt with
      | [] => .ok []
      | ch :: fmt =>
          if ch = 0 then .ok []
          else if ch ≠ ascii '%' then do
            return unsignedChar ch :: (← vprintfmtFrom fmt ap fuel)
          else do
            let (conv, spec, ap, left) ← reswitch {} ap fmt
            match ← convert conv spec ap with
            | some (text, ap) => return text ++ (← vprintfmtFrom left ap fuel)
            -- `fmt` goes back to the character behind the last `%`
            | none => return signedChar (ascii '%') :: (← vprintfmtFrom fmt ap fuel)

def vprintfmt (fmt : List UInt8) (ap : VaList) : Except Fault (List (BitVec 32)) :=
  vprintfmtFrom fmt ap (fmt.length + 1)

/-! ## `stdio.c` -/

/-- `kprintf`: what is passed to `cons_putc`. -/
def kprintf (fmt : List UInt8) (ap : VaList) : Except Fault (List (BitVec 32)) := vprintfmt fmt ap

/-- `kputs`: what is passed to `cons_putc`. -/
def kputs (str : List UInt8) : List (BitVec 32) :=
  (str.takeWhile (· ≠ 0)).map signedChar ++ [signedChar (ascii '\n')]

/-- The cell in which a value is shown, unless it moves the cursor. -/
def shownCell (c : BitVec 32) : BitVec 16 := (colored c).setWidth 16

/-- `kprintf(s)`, `kprintf("%s", s)` and `kputs(s)` pass the same values on, and each byte is
shown in the same cell. -/
structure PathsAgree (s : List UInt8) : Prop where
  values : ∃ text, kprintf s [] = .ok text ∧ kprintf (bytes "%s") [.str s] = .ok text ∧
    kputs s = text ++ [signedChar (ascii '\n')]
  cells : ∀ byte ∈ s, shownCell (unsignedChar byte) = shownCell (signedChar byte)

/-- A format without `%` is passed on as it is, by the unsigned values of its bytes. -/
theorem vprintfmtFrom_plain {fmt : List UInt8} (ended : 0 ∉ fmt) (plain : ascii '%' ∉ fmt)
    (ap : VaList) {fuel : Nat} (enough : fmt.length < fuel) :
    vprintfmtFrom fmt ap fuel = .ok (fmt.map unsignedChar) := by
  induction fmt generalizing fuel with
  | nil =>
      obtain ⟨fuel, rfl⟩ := Nat.exists_eq_succ_of_ne_zero (Nat.ne_of_gt enough)
      rfl
  | cons ch fmt ih =>
      obtain ⟨fuel, rfl⟩ := Nat.exists_eq_succ_of_ne_zero (Nat.ne_zero_of_lt enough)
      simp only [List.mem_cons, not_or] at ended plain
      have rest : vprintfmtFrom fmt ap fuel = .ok (fmt.map unsignedChar) :=
        ih ended.2 plain.2 (Nat.lt_of_succ_lt_succ enough)
      rw [vprintfmtFrom, if_neg (Ne.symm ended.1), if_pos (Ne.symm plain.1), rest]
      rfl

theorem kprintf_plain {s : List UInt8} (ended : 0 ∉ s) (plain : ascii '%' ∉ s) :
    kprintf s [] = .ok (s.map unsignedChar) :=
  vprintfmtFrom_plain ended plain [] (Nat.lt_succ_self _)

theorem kprintf_string (s : List UInt8) :
    kprintf (bytes "%s") [.str s] = .ok (putString {} s) := by
  have conversion : reswitch {} [.str s] [ascii 's'] = .ok (ascii 's', {}, [.str s], []) := by
    rw [reswitch]
    rfl
  have turn : vprintfmtFrom (bytes "%s") [.str s] 3 =
      (do
        let (conv, spec, ap, left) ← reswitch {} [.str s] [ascii 's']
        match ← convert conv spec ap with
        | some (text, ap) => return text ++ (← vprintfmtFrom left ap 2)
        | none => return signedChar (ascii '%') :: (← vprintfmtFrom [ascii 's'] ap 2)) := rfl
  calc kprintf (bytes "%s") [.str s] = .ok (putString {} s ++ []) := by
        rw [kprintf, vprintfmt]
        refine turn.trans ?_
        rw [conversion]
        rfl
    _ = .ok (putString {} s) := by rw [List.append_nil]

theorem takeWhile_ended {s : List UInt8} (ended : 0 ∉ s) : s.takeWhile (· ≠ 0) = s := by
  apply List.takeWhile_eq_self_iff.mpr
  intro byte member
  exact decide_eq_true (ne_of_mem_of_not_mem member ended)

/-- Without a precision and a width only the count of a very long string can pad. -/
theorem putString_plain {s : List UInt8} (ended : 0 ∉ s) :
    putString {} s = s.map signedChar ++
      List.replicate (int32 (-1 - s.length)).toNat (signedChar (ascii ' ')) := by
  have none : (int32 (0 : Int)).toNat = 0 := rfl
  simp only [putString, takeWhile_ended ended]
  rfl

theorem unsignedChar_eq_signedChar {byte : UInt8} :
    unsignedChar byte = signedChar byte ↔ byte < 0x80 := by
  obtain ⟨bits⟩ := byte
  revert bits
  decide +kernel

theorem shownCell_eq {byte : UInt8} :
    shownCell (unsignedChar byte) = shownCell (signedChar byte) ↔ byte < 0x80 := by
  obtain ⟨bits⟩ := byte
  revert bits
  decide +kernel

/-- The width, counted down from -1, does not wrap above 0. -/
theorem int32_below {length : Nat} :
    (int32 (-1 - length)).toNat = 0 ↔ length % 2 ^ 32 < 2 ^ 31 ∨ length % 2 ^ 32 = 2 ^ 32 - 1 := by
  rw [int32, Int.bmod]
  split <;> omega

/-- The paths agree on strings of ASCII, and on no other ones. -/
theorem kprintf_kputs {s : List UInt8} (ended : 0 ∉ s) (plain : ascii '%' ∉ s) :
    PathsAgree s ↔ (∀ byte ∈ s, byte < 0x80) ∧
      (s.length % 2 ^ 32 < 2 ^ 31 ∨ s.length % 2 ^ 32 = 2 ^ 32 - 1) := by
  rw [← int32_below]
  constructor
  · rintro ⟨⟨text, first, second, -⟩, cells⟩
    rw [kprintf_plain ended plain] at first
    rw [kprintf_string, putString_plain ended] at second
    cases first
    refine ⟨fun byte member => shownCell_eq.mp (cells byte member), ?_⟩
    have lengths := congrArg List.length (Except.ok.inj second)
    simp only [List.length_append, List.length_map, List.length_replicate] at lengths
    exact Nat.add_eq_left.mp lengths
  · rintro ⟨low, short⟩
    have same : s.map unsignedChar = s.map signedChar := by
      apply List.map_congr_left
      intro byte member
      exact unsignedChar_eq_signedChar.mpr (low byte member)
    refine ⟨⟨s.map unsignedChar, kprintf_plain ended plain, ?_, ?_⟩, ?_⟩
    · rw [kprintf_string, putString_plain ended, short, List.replicate_zero, List.append_nil, same]
    · rw [kputs, takeWhile_ended ended, same]
    · intro byte member
      exact shownCell_eq.mpr (low byte member)

/-- A line of `check_ide_error`. -/
theorem kprintf_kputs_line : PathsAgree (bytes "Command aborted\n") := by
  have low : ∀ byte ∈ bytes "Command aborted\n", byte < 0x80 := by decide +kernel
  have short : (bytes "Command aborted\n").length % 2 ^ 32 < 2 ^ 31 := by decide +kernel
  exact (kprintf_kputs (by decide +kernel) (by decide +kernel)).mpr ⟨low, .inl short⟩

/-- A byte from 0x80 on is an `int` of 8 bits on one path, and has all upper bits on another. -/
theorem not_kprintf_kputs : ¬ PathsAgree [0x80] ∧
    shownCell (unsignedChar 0x80) = 0x0280 ∧ shownCell (signedChar 0x80) = 0xff80 := by
  refine ⟨?_, by decide, by decide⟩
  rintro ⟨⟨text, first, second, -⟩, -⟩
  rw [kprintf_plain (by decide) (by decide)] at first
  rw [kprintf_string, putString_plain (by decide)] at second
  exact absurd (first.trans second.symm) (by decide)

end Pumelo
