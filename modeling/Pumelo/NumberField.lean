import Pumelo.Printfmt

/-!
# Numbers in fields

What `vprintfmt` prints for a number with a flag and a width, beside the number in a field of
that width.
-/

namespace Pumelo

open Foundation

/-- The flags `0` and `-`. -/
inductive PadFlag where
  | zero
  | minus
  deriving DecidableEq, Repr

/-- Nothing, `l` or `ll`. -/
inductive LongFlag where
  | int
  | long
  | longLong
  deriving DecidableEq, Repr

inductive Conversion where
  | d
  | u
  | x
  | o
  deriving DecidableEq, Repr

def PadFlag.char : PadFlag → UInt8
  | .zero => ascii '0'
  | .minus => ascii '-'

/-- How many `l` there are. -/
def LongFlag.lflag : LongFlag → Nat
  | .int => 0
  | .long => 1
  | .longLong => 2

/-- The size of the argument; `long` is as wide as `int`. -/
def LongFlag.bits : LongFlag → Nat
  | .longLong => 64
  | _ => 32

def Conversion.char : Conversion → UInt8
  | .d => ascii 'd'
  | .u => ascii 'u'
  | .x => ascii 'x'
  | .o => ascii 'o'

def Conversion.base : Conversion → Nat
  | .d | .u => 10
  | .x => 16
  | .o => 8

/-- The character of a digit in a format. -/
def digitCode (digit : Nat) : UInt8 := .ofNat (48 + digit)

/-- The width as it is written in a format, where none stands for 0. -/
def widthCode (w : Nat) : List UInt8 := if w = 0 then [] else (numeral 10 w).map digitCode

/-- The escape sequence behind its `%`. -/
def sequenceCode (flag : Option PadFlag) (w : Nat) (size : LongFlag) (conv : Conversion) :
    List UInt8 :=
  flag.toList.map PadFlag.char ++ (widthCode w ++
    (List.replicate size.lflag (ascii 'l') ++ [conv.char]))

/-- The words of an argument, the lower one first. -/
def argWords : {size : LongFlag} → BitVec size.bits → VaList
  | .int, value => [.word value]
  | .long, value => [.word value]
  | .longLong, value =>
      [.word (BitVec.extractLsb' 0 32 value), .word (BitVec.extractLsb' 32 32 value)]

/-- The number that an argument stands for. -/
def Conversion.number {size : LongFlag} (conv : Conversion) (value : BitVec size.bits) : Int :=
  if conv = .d then value.toInt else value.toNat

/-- The sign of a number. -/
def signText (v : Int) : List (BitVec 32) := if v < 0 then [signedChar (ascii '-')] else []

/-- The digits of a number without its sign. -/
def digitText (base : Nat) (v : Int) : List (BitVec 32) := (numeral base v.natAbs).map digitChar

theorem digitText_length (base : Nat) (v : Int) :
    (digitText base v).length = (numeral base v.natAbs).length := List.length_map _

def PadFlag.fill : Option PadFlag → Fill
  | none => .left
  | some .zero => .inner
  | some .minus => .right

/-- What a field is filled up with. -/
def PadFlag.pad : Option PadFlag → BitVec 32
  | some .zero => signedChar (ascii '0')
  | _ => signedChar (ascii ' ')

/-- The text that is expected of a sequence. -/
def fieldText (flag : Option PadFlag) (w base : Nat) (v : Int) : List (BitVec 32) :=
  field (PadFlag.fill flag) (PadFlag.pad flag) w (signText v) (digitText base v)

/-- What `printnum` pads with. -/
def PadFlag.padc (flag : Option PadFlag) : UInt8 := (flag.map PadFlag.char).getD (ascii ' ')

/-- The width that `vprintfmt` reads. -/
def readWidth (w : Nat) : Int := if w = 0 then -1 else int32 w

/-- The digits are those of the number, and the rest of the width goes before them. -/
theorem printnum_eq {base : Nat} (two : 2 ≤ base) (n : Nat) (width : Int) (padc : BitVec 32) :
    printnum n base width padc =
      List.replicate (int32 (width - (numeral base n).length)).toNat padc ++
        (numeral base n).map digitChar := by
  have positive : 0 < base := Nat.lt_of_lt_of_le Nat.two_pos two
  induction n using Nat.strongRecOn generalizing width with
  | ind n ih =>
      rw [printnum, doDiv_eq n positive]
      split
      · next more =>
          have last : (numeral base n).length = (numeral base (n / base)).length + 1 := by
            rw [numeral_of_le two more.1, List.length_append, List.length_singleton]
          have pads : int32 (int32 (width - 1) - (numeral base (n / base)).length) =
              int32 (width - (numeral base n).length) := by
            rw [int32, int32, int32, Int.bmod_sub_bmod, last]
            exact congrArg (Int.bmod · _) (by omega)
          rw [ih _ (Nat.div_lt_self (Nat.lt_of_lt_of_le positive more.1) two), pads,
            numeral_of_le two more.1, List.map_append, List.append_assoc]
          rfl
      · next less =>
          have lt : n < base := Nat.lt_of_not_le fun le => less ⟨le, two⟩
          rw [numeral_of_lt lt, Nat.mod_eq_of_lt lt]
          rfl

theorem digitCode_toNat {digit : Nat} (lt : digit < 10) : (digitCode digit).toNat = 48 + digit :=
  Nat.mod_eq_of_lt (by omega)

theorem digitCode_isDigit {digit : Nat} (lt : digit < 10) : isDigit (digitCode digit) := by
  have code : (digitCode digit).toNat = 48 + digit := digitCode_toNat lt
  constructor
  · exact UInt8.le_iff_toNat_le.mpr (by rw [code]; exact Nat.le_add_right ..)
  · refine UInt8.le_iff_toNat_le.mpr ?_
    rw [code]
    exact Nat.add_le_add_left (Nat.le_of_lt_succ lt) 48

/-- One round of the loop of the width field, and the wrap of `int` in it. -/
theorem int32_digit {digit : Nat} (lt : digit < 10) (value : Nat) :
    int32 (int32 value * 10 + (digitCode digit).toNat - 48) = int32 (value * 10 + digit : Nat) := by
  have sum : int32 value * 10 + ((48 + digit : Nat) : Int) - 48 =
    int32 value * 10 + digit := by omega
  rw [digitCode_toNat lt, sum, int32, int32, int32, ← Int.bmod_add_bmod, Int.bmod_mul_bmod,
    Int.bmod_add_bmod]
  rfl

theorem widthField_digits {digits : List Nat} (all : ∀ digit ∈ digits, digit < 10) {digit : Nat}
    (lt : digit < 10) (value : Nat) {left : List UInt8}
    (ends : ∀ next ∈ left.head?, ¬ isDigit next) :
    widthField (int32 value) (digitCode digit) (digits.map digitCode ++ left) =
      (int32 ((digit :: digits).foldl (fun value digit => value * 10 + digit) value : Nat),
        left) := by
  induction digits generalizing digit value with
  | nil =>
      cases left with
      | nil => rw [List.map_nil, List.nil_append, widthField, int32_digit lt]; rfl
      | cons next left =>
          have last : ¬ isDigit next := ends next rfl
          rw [List.map_nil, List.nil_append, widthField, if_neg last, int32_digit lt]
          rfl
  | cons next digits ih =>
      have first : next < 10 := all next (List.mem_cons_self ..)
      have others : ∀ digit ∈ digits, digit < 10 := fun digit member =>
        all digit (List.mem_cons_of_mem _ member)
      rw [List.map_cons, List.cons_append, widthField, if_pos (digitCode_isDigit first),
        int32_digit lt, ih others first]
      rfl

/-- The first digit of a width is none of the flags. -/
theorem digitCode_first : ∀ digit < 10, digit ≠ 0 →
    digitCode digit ≠ ascii '-' ∧ digitCode digit ≠ ascii '0' ∧
      ascii '1' ≤ digitCode digit ∧ digitCode digit ≤ ascii '9' := by
  decide

/-- The flag sets the padding. -/
theorem reswitch_flag (flag : Option PadFlag) (ap : VaList) (left : List UInt8) :
    reswitch {} ap (flag.toList.map PadFlag.char ++ left) =
      reswitch { padc := PadFlag.padc flag } ap left := by
  match flag with
  | none => rfl
  | some .zero => exact reswitch.eq_def _ _ _
  | some .minus => exact reswitch.eq_def _ _ _

theorem reswitch_width (padc : UInt8) (ap : VaList) (w : Nat) {left : List UInt8}
    (ends : ∀ next ∈ left.head?, ¬ isDigit next) :
    reswitch { padc } ap (widthCode w ++ left) =
      reswitch { padc, width := readWidth w } ap left := by
  unfold widthCode readWidth
  split
  · rfl
  · next pos =>
      obtain ⟨digit, digits, written, nonzero⟩ := @numeral_head 10 w pos
      have all : ∀ digit ∈ numeral 10 w, digit < 10 := numeral_lt (by decide)
      have value := @numeral_foldl 10 (by decide) w
      rw [written] at all value ⊢
      have lt : digit < 10 := all digit (List.mem_cons_self ..)
      have read := widthField_digits (fun d member => all d (List.mem_cons_of_mem _ member))
        lt 0 ends
      rw [value, show int32 (0 : Nat) = 0 from rfl] at read
      obtain ⟨minus, zero, low, high⟩ := digitCode_first digit lt nonzero
      have taken (precision : Int) :
          processPrecision { padc, precision } = { padc, width := precision } := rfl
      rw [List.map_cons, List.cons_append, reswitch, if_neg minus, if_neg zero,
        if_pos ⟨low, high⟩, read]
      dsimp only
      rw [taken]

/-- Each `l` is counted. -/
theorem reswitch_long (spec : Spec) (ap : VaList) (count : Nat) (left : List UInt8) :
    reswitch spec ap (List.replicate count (ascii 'l') ++ left) =
      reswitch { spec with lflag := spec.lflag + count } ap left := by
  induction count generalizing spec with
  | zero => rfl
  | succ count ih =>
      have next : reswitch spec ap (ascii 'l' :: (List.replicate count (ascii 'l') ++ left)) =
          reswitch { spec with lflag := spec.lflag + 1 } ap
            (List.replicate count (ascii 'l') ++ left) := by
        rw [reswitch]
        rfl
      rw [List.replicate_succ, List.cons_append, next, ih, Nat.add_assoc, Nat.add_comm 1 count]

theorem reswitch_conversion (spec : Spec) (ap : VaList) (conv : Conversion) :
    reswitch spec ap [conv.char] = .ok (conv.char, spec, ap, []) := by
  cases conv <;> exact reswitch.eq_def _ _ _

theorem head_notDigit (count : Nat) (conv : Conversion) :
    ∀ next ∈ (List.replicate count (ascii 'l') ++ [conv.char]).head?, ¬ isDigit next := by
  intro next member
  cases count with
  | zero =>
      obtain rfl := Option.some.inj member
      cases conv <;> decide
  | succ count =>
      obtain rfl := Option.some.inj member
      decide

/-- What `reswitch` reads of a sequence. -/
def sequenceSpec (flag : Option PadFlag) (w : Nat) (size : LongFlag) : Spec :=
  { padc := PadFlag.padc flag, width := readWidth w, lflag := size.lflag }

theorem reswitch_sequence (flag : Option PadFlag) (w : Nat) (size : LongFlag) (conv : Conversion)
    (ap : VaList) :
    reswitch {} ap (sequenceCode flag w size conv) =
      .ok (conv.char, sequenceSpec flag w size, ap, []) := by
  rw [sequenceCode, reswitch_flag, reswitch_width _ _ _ (head_notDigit _ _), reswitch_long,
    reswitch_conversion, Nat.zero_add]
  rfl

/-! ## What is printed -/

theorem vaLongLong_words (value : BitVec 64) (ap : VaList) :
    vaLongLong (.word (BitVec.extractLsb' 0 32 value) :: .word
      (BitVec.extractLsb' 32 32 value) :: ap) =
      .ok (value, ap) := by
  have whole : BitVec.extractLsb' 32 32 value ++ BitVec.extractLsb' 0 32 value = value := by
    apply BitVec.eq_of_getLsbD_eq
    intro i lt
    rw [BitVec.getLsbD_append]
    split
    · next low => simp [low]
    · next high =>
        have index : 32 + (i - 32) = i := by omega
        have inside : i - 32 < 32 := by omega
        simp [index, inside]
  rw [vaLongLong]
  refine Eq.trans ?_ (congrArg (fun value => Except.ok (value, ap)) whole)
  rfl

/-- The argument in 64 bits, for a way to widen that leaves 64 bits alone. -/
theorem getWidened_words (widen : ∀ {w : Nat}, BitVec w → BitVec 64)
    (whole : ∀ value : BitVec 64, widen value = value) {size : LongFlag}
    (value : BitVec size.bits) :
    getWidened widen (argWords value) size.lflag = .ok (widen value, []) := by
  cases size with
  | int => rfl
  | long => rfl
  | longLong =>
      rw [getWidened, if_pos (by decide)]
      exact (vaLongLong_words value []).trans
        (congrArg (fun value => Except.ok (value, [])) (whole value).symm)

theorem LongFlag.bits_le (size : LongFlag) : size.bits ≤ 64 := by
  cases size <;> decide

theorem signText_nonneg {v : Int} (nonneg : 0 ≤ v) : signText v = [] :=
  if_neg (Int.not_lt.mpr nonneg)

/-- The sign goes first, and then the number without it. -/
theorem putDecimal_eq (spec : Spec) (num : BitVec 64) :
    putDecimal spec num =
      signText num.toInt ++ printnum num.toInt.natAbs 10 spec.width (signedChar spec.padc) := by
  have zero : (0 : BitVec 64).toInt = 0 := rfl
  rw [putDecimal]
  split
  · next less =>
      have negative : num.toInt < 0 := by rwa [BitVec.slt_iff_toInt_lt, zero] at less
      have value : (-num).toNat = num.toInt.natAbs := by
        have toInt := BitVec.toInt_eq_toNat_cond num
        have lt := num.isLt
        rw [BitVec.toNat_neg]
        split at toInt <;> omega
      rw [signText, if_pos negative, putNumber, value]
      rfl
  · next more =>
      have nonneg : 0 ≤ num.toInt := by
        rwa [BitVec.slt_iff_toInt_lt, zero, Int.not_lt] at more
      have value : num.toNat = num.toInt.natAbs := by
        have toInt := BitVec.toInt_eq_toNat_cond num
        have lt := num.isLt
        split at toInt <;> omega
      rw [signText_nonneg nonneg, putNumber, value]
      rfl

theorem convert_number (flag : Option PadFlag) (w : Nat) {size : LongFlag} (conv : Conversion)
    (value : BitVec size.bits) :
    convert conv.char (sequenceSpec flag w size) (argWords value) =
      .ok (some (signText (conv.number value) ++
        printnum (conv.number value).natAbs conv.base (readWidth w)
          (signedChar (PadFlag.padc flag)), [])) := by
  have unsigned : (value.setWidth 64).toNat = value.toNat :=
    BitVec.toNat_setWidth_of_le size.bits_le
  have positive : signText (value.toNat : Int) = [] := signText_nonneg (Int.natCast_nonneg _)
  have printed (base : Nat) :
      putNumber (sequenceSpec flag w size) (value.setWidth 64) base =
        signText (value.toNat : Int) ++
          printnum (value.toNat : Int).natAbs base (readWidth w)
            (signedChar (PadFlag.padc flag)) := by
    rw [putNumber, unsigned, positive]
    rfl
  cases conv with
  | d =>
      have signed : (value.signExtend 64).toInt = value.toInt :=
        BitVec.toInt_signExtend_of_le size.bits_le
      have step : convert Conversion.d.char (sequenceSpec flag w size) (argWords value) =
          (getint (argWords value) size.lflag >>= fun read =>
            .ok (some (putDecimal (sequenceSpec flag w size) read.1, read.2))) := rfl
      rw [step, getint, getWidened_words (·.signExtend 64) BitVec.signExtend_eq]
      refine congrArg (fun text => Except.ok (some (text, []))) ?_
      rw [putDecimal_eq, signed]
      rfl
  | u =>
      have step : convert Conversion.u.char (sequenceSpec flag w size) (argWords value) =
          (getuint (argWords value) size.lflag >>= fun read =>
            .ok (some (putNumber (sequenceSpec flag w size) read.1 10, read.2))) := rfl
      rw [step, getuint, getWidened_words (·.setWidth 64) BitVec.setWidth_eq]
      exact congrArg (fun text => Except.ok (some (text, []))) (printed 10)
  | x =>
      have step : convert Conversion.x.char (sequenceSpec flag w size) (argWords value) =
          (getuint (argWords value) size.lflag >>= fun read =>
            .ok (some (putNumber (sequenceSpec flag w size) read.1 16, read.2))) := rfl
      rw [step, getuint, getWidened_words (·.setWidth 64) BitVec.setWidth_eq]
      exact congrArg (fun text => Except.ok (some (text, []))) (printed 16)
  | o =>
      have step : convert Conversion.o.char (sequenceSpec flag w size) (argWords value) =
          (getuint (argWords value) size.lflag >>= fun read =>
            .ok (some (putNumber (sequenceSpec flag w size) read.1 8, read.2))) := rfl
      rw [step, getuint, getWidened_words (·.setWidth 64) BitVec.setWidth_eq]
      exact congrArg (fun text => Except.ok (some (text, []))) (printed 8)

/-- The format of the sequence alone. -/
def numberFormat (flag : Option PadFlag) (w : Nat) (size : LongFlag) (conv : Conversion) :
    List UInt8 :=
  ascii '%' :: sequenceCode flag w size conv

theorem vprintfmtFrom_percent (left : List UInt8) (ap : VaList) (fuel : Nat) :
    vprintfmtFrom (ascii '%' :: left) ap (fuel + 1) = (do
      let (ch, spec, ap, behind) ← reswitch {} ap left
      match ← convert ch spec ap with
      | some (text, ap) => return text ++ (← vprintfmtFrom behind ap fuel)
      | none => return signedChar (ascii '%') :: (← vprintfmtFrom left ap fuel)) := rfl

/-- Both kinds of padding go between the sign and the digits, and the sign is not counted. -/
theorem kprintf_number (flag : Option PadFlag) (w : Nat) {size : LongFlag} (conv : Conversion)
    (value : BitVec size.bits) :
    kprintf (numberFormat flag w size conv) (argWords value) =
      .ok (signText (conv.number value) ++
        (List.replicate (int32 (readWidth w -
            (numeral conv.base (conv.number value).natAbs).length)).toNat
          (signedChar (PadFlag.padc flag)) ++ digitText conv.base (conv.number value))) := by
  have base : 2 ≤ conv.base := by cases conv <;> decide
  have percent : numberFormat flag w size conv = ascii '%' :: sequenceCode flag w size conv := rfl
  rw [kprintf, vprintfmt, percent, vprintfmtFrom_percent, reswitch_sequence]
  have last : vprintfmtFrom [] [] (ascii '%' :: sequenceCode flag w size conv).length = .ok [] :=
    rfl
  dsimp only [bind, Except.bind]
  rw [convert_number, printnum_eq base]
  dsimp only
  rw [last]
  exact congrArg Except.ok (List.append_nil _)

/-- The sequence prints the number in a field of the width. -/
def PrintsField (flag : Option PadFlag) (w : Nat) {size : LongFlag} (conv : Conversion)
    (value : BitVec size.bits) : Prop :=
  kprintf (numberFormat flag w size conv) (argWords value) =
    .ok (fieldText flag w conv.base (conv.number value))

/-- How many digits the number has. -/
def digitCount {size : LongFlag} (conv : Conversion) (value : BitVec size.bits) : Nat :=
  (numeral conv.base (conv.number value).natAbs).length

theorem Conversion.two_le_base (conv : Conversion) : 2 ≤ conv.base := by
  cases conv <;> decide

theorem digitCount_le {size : LongFlag} (conv : Conversion) (value : BitVec size.bits) :
    digitCount conv value ≤ 64 := by
  have bits : 2 ^ size.bits ≤ 2 ^ 64 := Nat.pow_le_pow_right Nat.two_pos size.bits_le
  have bases : 2 ^ 64 ≤ conv.base ^ 64 := Nat.pow_le_pow_left conv.two_le_base 64
  have lt : (conv.number value).natAbs < 2 ^ size.bits := by
    have unsigned := value.isLt
    have signed := BitVec.toInt_eq_toNat_cond value
    unfold Conversion.number
    split
    · split at signed <;> omega
    · exact unsigned
  exact numeral_length_le conv.two_le_base (by decide)
    (Nat.lt_of_lt_of_le lt (Nat.le_trans bits bases))

/-- The pads that `printnum` writes. -/
def padCount (w n : Nat) : Nat := (int32 (readWidth w - n)).toNat

theorem padCount_full {w n : Nat} (full : w ≤ n) (few : n ≤ 64) : padCount w n = 0 := by
  have read : -1 ≤ readWidth w ∧ readWidth w ≤ n := by
    unfold readWidth
    split
    · omega
    · rw [int32, Int.bmod]
      split <;> omega
  rw [padCount, int32, Int.bmod]
  split <;> omega

theorem padCount_more {w n : Nat} (more : n < w) :
    padCount w n = (int32 ((w - n : Nat) : Int)).toNat := by
  rw [padCount, readWidth, if_neg (Nat.ne_zero_of_lt more), int32, int32, Int.bmod_sub_bmod, int32,
    Int.ofNat_sub (Nat.le_of_lt more)]

theorem int32_eq {k : Nat} (positive : 0 < k) : (int32 k).toNat = k ↔ k < 2 ^ 31 := by
  rw [int32, Int.bmod]
  split <;> omega

/-- The sign has no place in the width. -/
theorem int32_add_one (k : Nat) : (int32 k).toNat + 1 ≠ k := by
  rw [int32, Int.bmod]
  split <;> omega

theorem digitChar_ne_space : ∀ digit < 16, digitChar digit ≠ signedChar (ascii ' ') := by
  decide

theorem space_notMem_digitText (conv : Conversion) (v : Int) :
    signedChar (ascii ' ') ∉ digitText conv.base v := by
  intro member
  obtain ⟨digit, written, equal⟩ := List.mem_map.mp member
  have lt : digit < conv.base := numeral_lt conv.two_le_base digit written
  have small : conv.base ≤ 16 := by cases conv <;> decide
  exact digitChar_ne_space digit (Nat.lt_of_lt_of_le lt small) equal

/-- The texts beside each other, from the pads that are written. -/
theorem printsField_iff (flag : Option PadFlag) (w : Nat) {size : LongFlag} (conv : Conversion)
    (value : BitVec size.bits) :
    PrintsField flag w conv value ↔
      signText (conv.number value) ++
          (List.replicate (padCount w (digitCount conv value)) (signedChar (PadFlag.padc flag)) ++
            digitText conv.base (conv.number value)) =
        fieldText flag w conv.base (conv.number value) := by
  rw [PrintsField, kprintf_number, Except.ok.injEq]
  rfl

theorem printsField_full {flag : Option PadFlag} {w : Nat} {size : LongFlag} {conv : Conversion}
    {value : BitVec size.bits} (full : w ≤ digitCount conv value) :
    PrintsField flag w conv value := by
  rw [printsField_iff, padCount_full full (digitCount_le conv value), fieldText, field_full]
  · rfl
  · rw [digitText_length]
    exact Nat.le_add_left_of_le full

/-- A negative number is one character too wide. -/
theorem not_printsField_negative {flag : Option PadFlag} {w : Nat} {size : LongFlag}
    {conv : Conversion} {value : BitVec size.bits} (more : digitCount conv value < w)
    (negative : conv.number value < 0) : ¬ PrintsField flag w conv value := by
  rw [printsField_iff, padCount_more more]
  intro same
  have sign : (signText (conv.number value)).length = 1 := by
    rw [signText, if_pos negative]
    rfl
  have digits : (digitText conv.base (conv.number value)).length = digitCount conv value :=
    digitText_length ..
  have lengths := congrArg List.length same
  rw [fieldText, field_length, List.length_append, List.length_append, List.length_replicate, sign,
    digits] at lengths
  have wide := int32_add_one (w - digitCount conv value)
  omega

/-- The flag `-` pads with itself, and before the digits. -/
theorem not_printsField_minus {w : Nat} {size : LongFlag} {conv : Conversion}
    {value : BitVec size.bits} (more : digitCount conv value < w) (nonneg : 0 ≤ conv.number value) :
    ¬ PrintsField (some .minus) w conv value := by
  rw [printsField_iff]
  intro same
  have digits : (digitText conv.base (conv.number value)).length = digitCount conv value :=
    digitText_length ..
  have pads : w - (0 + digitCount conv value) ≠ 0 := by omega
  have space : signedChar (ascii ' ') ∈
      fieldText (some .minus) w conv.base (conv.number value) := by
    rw [fieldText, signText_nonneg nonneg, field.eq_def, digits]
    exact List.mem_append_right _ (List.mem_replicate.mpr ⟨pads, rfl⟩)
  rw [← same, signText_nonneg nonneg, List.nil_append, List.mem_append] at space
  cases space with
  | inl pad => exact absurd (List.eq_of_mem_replicate pad) (by decide)
  | inr digit => exact space_notMem_digitText conv _ digit

theorem printsField_nonneg {flag : Option PadFlag} (left : flag ≠ some .minus) {w : Nat}
    {size : LongFlag} {conv : Conversion} {value : BitVec size.bits}
    (more : digitCount conv value < w) (nonneg : 0 ≤ conv.number value) :
    PrintsField flag w conv value ↔ w < 2 ^ 31 + digitCount conv value := by
  have digits : (digitText conv.base (conv.number value)).length = digitCount conv value :=
    digitText_length ..
  have text : fieldText flag w conv.base (conv.number value) =
      List.replicate (w - digitCount conv value) (signedChar (PadFlag.padc flag)) ++
        digitText conv.base (conv.number value) := by
    rw [fieldText, signText_nonneg nonneg, field.eq_def, digits, List.length_nil, Nat.zero_add]
    match flag with
    | none => exact congrArg (· ++ _) (List.append_nil _)
    | some .zero => rfl
    | some .minus => exact absurd rfl left
  rw [printsField_iff, text, signText_nonneg nonneg, List.nil_append, List.append_left_inj,
    List.replicate_inj, padCount_more more, and_iff_left (Or.inr rfl),
    int32_eq (Nat.sub_pos_of_lt more)]
  omega

/-- The field is right unless it is wider than the digits, and then for numbers without sign and
padding before the digits; the padding is counted by an `int`. -/
theorem kprintf_field (flag : Option PadFlag) (w : Nat) {size : LongFlag} (conv : Conversion)
    (value : BitVec size.bits) :
    PrintsField flag w conv value ↔
      w ≤ digitCount conv value ∨
        (0 ≤ conv.number value ∧ flag ≠ some .minus ∧ w < 2 ^ 31 + digitCount conv value) := by
  by_cases full : w ≤ digitCount conv value
  · exact iff_of_true (printsField_full full) (.inl full)
  · have more : digitCount conv value < w := Nat.lt_of_not_le full
    rw [or_iff_right full]
    by_cases nonneg : 0 ≤ conv.number value
    · by_cases minus : flag = some .minus
      · subst minus
        exact iff_of_false (not_printsField_minus more nonneg) fun condition => condition.2.1 rfl
      · rw [printsField_nonneg minus more nonneg, and_iff_right nonneg, and_iff_right minus]
    · exact iff_of_false (not_printsField_negative more (Int.lt_of_not_ge nonneg))
        fun condition => nonneg condition.1

/-- `%5d` of -3 and `%-5u` of 42. -/
theorem not_kprintf_field : ¬ @PrintsField none 5 .int .d (-3) ∧
    ¬ @PrintsField (some .minus) 5 .int .u 42 := by
  have three : @digitCount .int .d (-3) < 5 := by decide +kernel
  have fortyTwo : @digitCount .int .u 42 < 5 := by decide +kernel
  exact ⟨not_printsField_negative three (by decide), not_printsField_minus fortyTwo (by decide)⟩

end Pumelo
