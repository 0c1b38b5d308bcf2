import Pumelo.Printnum

/-!
# The formatter on its string

`vprintfmt` with the pointer into its format, the words of its arguments and the `putch` that it
calls.  What `putch` works on is of any type.
-/

namespace Pumelo

open Foundation

namespace Putch

/-- A string with a pointer into it: the bytes before it, the last one first, and those from it on
to the NUL. -/
structure Cursor where
  seen : List UInt8
  left : List UInt8
  deriving DecidableEq, Repr

/-- The start of a string. -/
def Cursor.start (text : List UInt8) : Cursor := ⟨[], text ++ [0]⟩

/-- `*fmt ++` -/
def Cursor.next : Cursor → Except Fault (UInt8 × Cursor)
  | ⟨seen, ch :: left⟩ => .ok (ch, ⟨ch :: seen, left⟩)
  | ⟨seen, []⟩ => .error (.outOfBounds "fmt" seen.length)

/-- `fmt --` -/
def Cursor.back : Cursor → Except Fault Cursor
  | ⟨ch :: seen, left⟩ => .ok ⟨seen, ch :: left⟩
  | ⟨[], left⟩ => .error (.outOfBounds "fmt" left.length)

/-- A word of the stack, and the bytes that lie where it points. -/
structure Slot where
  word : BitVec 32
  text : List UInt8
  deriving DecidableEq, Repr

/-- The words from the next argument on. -/
abbrev Stack := List Slot

/-- `va_arg(ap, int)` -/
def vaInt : Stack → Except Fault (BitVec 32 × Stack)
  | slot :: ap => .ok (slot.word, ap)
  | [] => .error (.outOfBounds "ap" 0)

/-- `va_arg(ap, long long)` -/
def vaLongLong (ap : Stack) : Except Fault (BitVec 64 × Stack) := do
  let (low, ap) ← vaInt ap
  let (high, ap) ← vaInt ap
  return (high ++ low, ap)

/-- `va_arg(ap, char *)`, where `NULL` is none. -/
def vaString : Stack → Except Fault (Option (List UInt8) × Stack)
  | slot :: ap => .ok (if slot.word = 0 then none else some slot.text, ap)
  | [] => .error (.outOfBounds "ap" 0)

/-- The body of `getuint` and `getint`, which widen an `int` each in its way. -/
def getWidened (widen : BitVec 32 → BitVec 64) (ap : Stack) (lflag : Nat) :
    Except Fault (BitVec 64 × Stack) :=
  if lflag ≥ 2 then vaLongLong ap
  else do
    let (value, ap) ← vaInt ap
    return (widen value, ap)

/-- `getuint` -/
def getuint (ap : Stack) (lflag : Nat) : Except Fault (BitVec 64 × Stack) :=
  getWidened (·.setWidth 64) ap lflag

/-- `getint` -/
def getint (ap : Stack) (lflag : Nat) : Except Fault (BitVec 64 × Stack) :=
  getWidened (·.signExtend 64) ap lflag

/-- The loop of the width field, which reads each digit before it moves behind it. -/
def widthField : (fuel : Nat) → (precision : Int) → (ch : UInt8) → Cursor →
    Except Fault (Int × Cursor)
  | 0, _, _, _ => .error .diverge
  | fuel + 1, precision, ch, fmt => do
      let precision := int32 (precision * 10 + ch.toNat - 48)
      let (ch, behind) ← fmt.next
      if isDigit ch then widthField fuel precision ch behind else return (precision, fmt)

/-- `reswitch`: the flags up to the conversion, and the pointer behind it. -/
def reswitch : (fuel : Nat) → Spec → Stack → Cursor → Except Fault (UInt8 × Spec × Stack × Cursor)
  | 0, _, _, _ => .error .diverge
  | fuel + 1, spec, ap, fmt => do
      let (ch, fmt) ← fmt.next
      if ch = ascii '-' then reswitch fuel { spec with padc := ascii '-' } ap fmt
      else if ch = ascii '0' then reswitch fuel { spec with padc := ascii '0' } ap fmt
      else if ascii '1' ≤ ch ∧ ch ≤ ascii '9' then do
        let (precision, fmt) ← widthField fuel 0 ch fmt
        reswitch fuel (processPrecision { spec with precision }) ap fmt
      else if ch = ascii '*' then do
        let (precision, ap) ← vaInt ap
        reswitch fuel (processPrecision { spec with precision := precision.toInt }) ap fmt
      else if ch = ascii '.' then
        reswitch fuel (if spec.width < 0 then { spec with width := 0 } else spec) ap fmt
      else if ch = ascii '#' then reswitch fuel { spec with altflag := true } ap fmt
      else if ch = ascii 'l' then reswitch fuel { spec with lflag := spec.lflag + 1 } ap fmt
      else return (ch, spec, ap, fmt)

/-- `for (; fmt[-1] != '%'; fmt --)` -/
def stepBack : (seen left : List UInt8) → Except Fault Cursor
  | [], left => .error (.outOfBounds "fmt" left.length)
  | ch :: seen, left => if ch = ascii '%' then .ok ⟨ch :: seen, left⟩ else stepBack seen
      (ch :: left)

variable {σ : Type} (putch : BitVec 32 → σ → σ)

/-- `strnlen` -/
def strnlen : (s : List UInt8) → (len : Nat) → Nat
  | ch :: s, len + 1 => if ch = 0 then 0 else strnlen s len + 1
  | _, _ => 0

/-- The character that is printed for one of a string. -/
def shownChar (altflag : Bool) (ch : UInt8) : BitVec 32 :=
  if altflag ∧ (ch < ascii ' ' ∨ ascii '~' < ch) then signedChar (ascii '?') else signedChar ch

/-- The loop over the characters of a string, with the width that is left. -/
def putChars (altflag : Bool) : (p : List UInt8) → (precision width : Int) → σ → Int × σ
  | [], _, width, s => (width, s)
  | ch :: p, precision, width, s =>
      if ch = 0 then (width, s)
      else if precision < 0 then
        putChars altflag p precision (int32 (width - 1)) (putch (shownChar altflag ch) s)
      else if precision - 1 ≥ 0 then
        putChars altflag p (precision - 1) (int32 (width - 1)) (putch (shownChar altflag ch) s)
      else (width, s)

/-- The conversion to text. -/
def putString (spec : Spec) (p : List UInt8) (s : σ) : σ :=
  let padded := spec.width > 0 ∧ spec.padc ≠ ascii '-'
  -- the precision is a `size_t` for `strnlen`
  let lead := int32 (spec.width - strnlen p (spec.precision % 2 ^ 32).toNat)
  let s := if padded then pads putch (signedChar spec.padc) lead.toNat s else s
  let width := if padded then min lead 0 else spec.width
  let (width, s) := putChars putch spec.altflag p spec.precision width s
  pads putch (signedChar (ascii ' ')) width.toNat s

/-- `number` -/
def putNumber (spec : Spec) (num : BitVec 64) (base : BitVec 32) (s : σ) : Except Fault σ :=
  printnum putch num base spec.width (signedChar spec.padc) s

/-- The sign of `d`, and the number without it. -/
def putDecimal (spec : Spec) (num : BitVec 64) (s : σ) : Except Fault σ :=
  if num.slt 0 then putNumber putch spec (-num) 10 (putch (signedChar (ascii '-')) s)
  else putNumber putch spec num 10 s

/-- `error_string[err]`, where none is `NULL`. The index is scaled to bytes in 32 bits, so that
-2^31 reads the first entry. -/
def errorStringAt (err : BitVec 32) : Option String :=
  match (4 * err).toNat / 4 with
  | 0 => none
  | index + 1 => errorString[index]?

/-- The text of an error code, by `printfmt`. -/
def putError (printfmt : List UInt8 → Stack → σ → Except Fault σ) (err : BitVec 32) (s : σ) :
    Except Fault σ :=
  let err := if err.slt 0 then -err else err
  let p := if (6 : BitVec 32).slt err then none else errorStringAt err
  match p with
  | none => printfmt (bytes "error %d") [⟨err, []⟩] s
  -- the address of a literal is not `NULL`
  | some p => printfmt (bytes "%s") [⟨1, bytes p⟩] s

/-- The conversions, with the arguments left; none where the sequence is not recognised. -/
def convert (printfmt : List UInt8 → Stack → σ → Except Fault σ) (ch : UInt8) (spec : Spec)
    (ap : Stack) (s : σ) : Except Fault (Option (Stack × σ)) :=
  if ch = ascii 'c' then do
    let (value, ap) ← vaInt ap
    return some (ap, putch value s)
  else if ch = ascii 'e' then do
    let (err, ap) ← vaInt ap
    return some (ap, ← putError printfmt err s)
  else if ch = ascii 's' then do
    let (p, ap) ← vaString ap
    return some (ap, putString putch spec (p.getD (bytes "(null)")) s)
  else if ch = ascii 'd' then do
    let (num, ap) ← getint ap spec.lflag
    return some (ap, ← putDecimal putch spec num s)
  else if ch = ascii 'u' then do
    let (num, ap) ← getuint ap spec.lflag
    return some (ap, ← putNumber putch spec num 10 s)
  else if ch = ascii 'o' then do
    let (num, ap) ← getuint ap spec.lflag
    return some (ap, ← putNumber putch spec num 8 s)
  else if ch = ascii 'p' then do
    let (value, ap) ← vaInt ap
    return some (ap, ← putNumber putch spec (value.setWidth 64) 16
      (putch (signedChar (ascii 'x')) (putch (signedChar (ascii '0')) s)))
  else if ch = ascii 'x' then do
    let (num, ap) ← getuint ap spec.lflag
    return some (ap, ← putNumber putch spec num 16 s)
  else if ch = ascii '%' then return some (ap, putch (unsignedChar ch) s)
  else return none

/-! ## `vprintfmt` -/

/-- `vprintfmt`. The fuel counts characters and escape sequences, and bounds the calls of
`printfmt` in it. -/
def vprintfmtFrom : (fuel : Nat) → Cursor → Stack → σ → Except Fault σ
  | 0, _, _, _ => .error .diverge
  | fuel + 1, fmt, ap, s => do
      let (ch, fmt) ← fmt.next
      if ch ≠ ascii '%' then
        if ch = 0 then return s else vprintfmtFrom fuel fmt ap (putch (unsignedChar ch) s)
      else do
        let (ch, spec, ap, fmt) ← reswitch (fmt.left.length + 1) {} ap fmt
        let printfmt text ap s := vprintfmtFrom fuel (.start text) ap s
        match ← convert putch printfmt ch spec ap s with
        | some (ap, s) => vprintfmtFrom fuel fmt ap s
        | none => do
            let fmt ← fmt.back
            let fmt ← stepBack fmt.seen fmt.left
            vprintfmtFrom fuel fmt ap (putch (signedChar (ascii '%')) s)

def vprintfmt (text : List UInt8) (ap : Stack) (s : σ) : Except Fault σ :=
  vprintfmtFrom putch (text.length + 10) (.start text) ap s

section Natural

variable {putch} {τ : Type} {putch' : BitVec 32 → τ → τ} {h : σ → τ}

/-- A conversion that takes an argument and may fail on it. -/
theorem take_map {α : Type} {read : Except Fault (α × Stack)} {put : α → Except Fault σ}
    {put' : α → Except Fault τ} (same : ∀ a, put' a = (put a).map h) :
    (do
      let (a, ap) ← read
      return some (ap, ← put' a)) =
    (do
      let (a, ap) ← read
      return some (ap, ← put a) : Except Fault _).map (Option.map (Prod.map id h)) := by
  rw [map_bind]
  refine bind_congr fun read => ?_
  obtain ⟨a, ap⟩ := read
  dsimp only
  rw [same, bind_map, map_bind]
  rfl

theorem takePure_map {α : Type} {read : Except Fault (α × Stack)} {put : α → σ} {put' : α → τ}
    (same : ∀ a, put' a = h (put a)) :
    (do
      let (a, ap) ← read
      return some (ap, put' a)) =
    (do
      let (a, ap) ← read
      return some (ap, put a) : Except Fault _).map (Option.map (Prod.map id h)) := by
  rw [map_bind]
  refine bind_congr fun read => ?_
  obtain ⟨a, ap⟩ := read
  dsimp only
  rw [same]
  rfl

theorem putError_map {printfmt : List UInt8 → Stack → σ → Except Fault σ}
    {printfmt' : List UInt8 → Stack → τ → Except Fault τ}
    (calls : ∀ text ap s, printfmt' text ap (h s) = (printfmt text ap s).map h) (err : BitVec 32)
    (s : σ) : putError printfmt' err (h s) = (putError printfmt err s).map h := by
  unfold putError
  dsimp only
  split <;> exact calls ..

variable (commutes : ∀ ch s, h (putch ch s) = putch' ch (h s))
include commutes

theorem putAll_map (text : List (BitVec 32)) (s : σ) :
    putAll putch' text (h s) = h (putAll putch text s) := by
  induction text generalizing s with
  | nil => rfl
  | cons ch text ih => rw [putAll_cons, putAll_cons, ← commutes, ih]

theorem pads_map (padc : BitVec 32) (width : Nat) (s : σ) :
    pads putch' padc width (h s) = h (pads putch padc width s) := by
  rw [pads_eq, pads_eq, putAll_map commutes]

theorem printnumFrom_map (base padc : BitVec 32) (depth : Nat) (num : BitVec 64) (width : Int)
    (s : σ) :
    printnumFrom putch' base padc depth num width (h s) =
      (printnumFrom putch base padc depth num width s).map h := by
  induction depth generalizing num width s with
  | zero => rfl
  | succ depth ih =>
      rw [printnumFrom, printnumFrom, map_bind]
      refine bind_congr fun divided => ?_
      dsimp only
      rw [map_bind]
      split
      · rw [ih, bind_map]
        exact bind_congr fun s => congrArg Except.ok (commutes _ _).symm
      · rw [pads_map commutes]
        exact congrArg Except.ok (commutes _ _).symm

theorem putChars_map (altflag : Bool) (p : List UInt8) (precision width : Int) (s : σ) :
    putChars putch' altflag p precision width (h s) =
      ((putChars putch altflag p precision width s).1,
        h (putChars putch altflag p precision width s).2) := by
  induction p generalizing precision width s with
  | nil => rfl
  | cons ch p ih =>
      simp only [putChars]
      split
      · rfl
      · split
        · rw [← commutes, ih]
        · split
          · rw [← commutes, ih]
          · rfl

theorem putString_map (spec : Spec) (p : List UInt8) (s : σ) :
    putString putch' spec p (h s) = h (putString putch spec p s) := by
  simp only [putString]
  split <;> simp only [pads_map commutes, putChars_map commutes]

theorem putNumber_map (spec : Spec) (num : BitVec 64) (base : BitVec 32) (s : σ) :
    putNumber putch' spec num base (h s) = (putNumber putch spec num base s).map h :=
  printnumFrom_map commutes ..

theorem putDecimal_map (spec : Spec) (num : BitVec 64) (s : σ) :
    putDecimal putch' spec num (h s) = (putDecimal putch spec num s).map h := by
  unfold putDecimal
  split
  · rw [← commutes, putNumber_map commutes]
  · rw [putNumber_map commutes]

theorem convert_map {printfmt : List UInt8 → Stack → σ → Except Fault σ}
    {printfmt' : List UInt8 → Stack → τ → Except Fault τ}
    (calls : ∀ text ap s, printfmt' text ap (h s) = (printfmt text ap s).map h) (ch : UInt8)
    (spec : Spec) (ap : Stack) (s : σ) :
    convert putch' printfmt' ch spec ap (h s) =
      (convert putch printfmt ch spec ap s).map (Option.map (Prod.map id h)) := by
  have address (value : BitVec 32) : putNumber putch' spec (value.setWidth 64) 16
      (putch' (signedChar (ascii 'x')) (putch' (signedChar (ascii '0')) (h s))) =
      (putNumber putch spec (value.setWidth 64) 16
        (putch (signedChar (ascii 'x')) (putch (signedChar (ascii '0')) s))).map h := by
    rw [← commutes, ← commutes, putNumber_map commutes]
  unfold convert
  refine ite_map _ (fun _ => takePure_map fun value => (commutes value s).symm) fun _ => ?_
  refine ite_map _ (fun _ => take_map fun err => putError_map calls err s) fun _ => ?_
  refine ite_map _ (fun _ => takePure_map fun (p : Option (List UInt8)) =>
    putString_map commutes spec (p.getD (bytes "(null)")) s) fun _ => ?_
  refine ite_map _ (fun _ => take_map fun num => putDecimal_map commutes spec num s) fun _ => ?_
  refine ite_map _ (fun _ => take_map fun num => putNumber_map commutes spec num 10 s) fun _ => ?_
  refine ite_map _ (fun _ => take_map fun num => putNumber_map commutes spec num 8 s) fun _ => ?_
  refine ite_map _ (fun _ => take_map address) fun _ => ?_
  refine ite_map _ (fun _ => take_map fun num => putNumber_map commutes spec num 16 s) fun _ => ?_
  refine ite_map _ (fun _ => ?_) fun _ => rfl
  rw [← commutes]
  rfl

theorem vprintfmtFrom_map (fuel : Nat) (fmt : Cursor) (ap : Stack) (s : σ) :
    vprintfmtFrom putch' fuel fmt ap (h s) = (vprintfmtFrom putch fuel fmt ap s).map h := by
  induction fuel generalizing fmt ap s with
  | zero => rfl
  | succ fuel ih =>
      rw [vprintfmtFrom, vprintfmtFrom, map_bind]
      refine bind_congr fun read => ?_
      obtain ⟨ch, fmt⟩ := read
      dsimp only
      split
      · split
        · rfl
        · rw [← commutes, ih]
      · rw [map_bind]
        refine bind_congr fun read => ?_
        obtain ⟨ch, spec, ap, fmt⟩ := read
        dsimp only
        rw [convert_map commutes fun text ap s => ih (.start text) ap s, bind_map, map_bind]
        refine bind_congr fun converted => ?_
        cases converted with
        | some result => exact ih ..
        | none =>
            dsimp only [Option.map_none]
            rw [map_bind]
            refine bind_congr fun fmt => ?_
            rw [map_bind]
            refine bind_congr fun fmt => ?_
            rw [← commutes, ih]

theorem vprintfmt_map (text : List UInt8) (ap : Stack) (s : σ) :
    vprintfmt putch' text ap (h s) = (vprintfmt putch text ap s).map h :=
  vprintfmtFrom_map commutes ..

end Natural

/-- The full output of a format. -/
def collect (ch : BitVec 32) (out : List (BitVec 32)) : List (BitVec 32) := out ++ [ch]

theorem putAll_collect (text out : List (BitVec 32)) : putAll collect text out = out ++ text := by
  induction text generalizing out with
  | nil => exact (List.append_nil out).symm
  | cons ch text ih => rw [putAll_cons, ih, collect, List.append_assoc, List.singleton_append]

/-- Any `putch` gets the characters of the full output. -/
theorem vprintfmt_collect (text : List UInt8) (ap : Stack)
    (s : σ) :
    vprintfmt putch text ap s =
      (vprintfmt collect text ap []).map fun out => putAll putch out s :=
  vprintfmt_map (fun ch out => putAll_append putch out [ch] s) text ap []

end Putch

end Pumelo
