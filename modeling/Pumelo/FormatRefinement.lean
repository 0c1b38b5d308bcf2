import Pumelo.FormatPieces

/-!
# Two models of the formatter

The formatter on lists gives a text.  The one on its string passes that text to any `putch`, for
arguments that agree on the words and on the strings.
-/

namespace Pumelo

open Foundation

namespace Putch

/-- The word in which an argument is passed. A string is shorter than half of the memory. -/
inductive PassedAs : VaArg → Slot → Prop where
  | word (value : BitVec 32) (text : List UInt8) : PassedAs (.word value) ⟨value, text⟩
  | str {address : BitVec 32} {text : List UInt8} (notNull : address ≠ 0)
      (short : text.length < 2 ^ 31) : PassedAs (.str text) ⟨address, text⟩

/-- The words in which the arguments are passed. -/
abbrev PassedOn : VaList → Stack → Prop := List.Forall₂ PassedAs

/-- What is read of the arguments is read of the words. -/
def ReadsSame {α : Type} (good : α → Prop) (read : Except Fault (α × VaList))
    (read' : Except Fault (α × Stack)) : Prop :=
  ∀ a args, read = .ok (a, args) → ∃ ap, read' = .ok (a, ap) ∧ PassedOn args ap ∧ good a

theorem ReadsSame.bind {α β : Type} {good : α → Prop} {good' : β → Prop}
    {read : Except Fault (α × VaList)} {read' : Except Fault (α × Stack)}
    (reads : ReadsSame good read read') {f : α × VaList → Except Fault (β × VaList)}
    {f' : α × Stack → Except Fault (β × Stack)}
    (rest : ∀ a args ap, PassedOn args ap → good a → ReadsSame good' (f (a, args)) (f' (a, ap))) :
    ReadsSame good' (read >>= f) (read' >>= f') := by
  intro b args run
  obtain ⟨first, run, run'⟩ := bind_eq_ok.mp run
  obtain ⟨ap, took, passed, fine⟩ := reads _ _ run
  obtain ⟨ap', took', passed', fine'⟩ := rest _ _ ap passed fine b args run'
  exact ⟨ap', (bind_ok took).trans took', passed', fine'⟩

theorem ReadsSame.ok {α : Type} {good : α → Prop} {a : α} (fine : good a) {args : VaList}
    {ap : Stack}
    (passed : PassedOn args ap) : ReadsSame good (.ok (a, args)) (.ok (a, ap)) := by
  rintro _ _ ⟨⟩
  exact ⟨ap, rfl, passed, fine⟩

variable {args : VaList} {ap : Stack}

/-- Nothing is said of a read that fails. -/
theorem ReadsSame.error {α : Type} {good : α → Prop} (fault : Fault)
    (read' : Except Fault (α × Stack)) :
    ReadsSame good (.error fault) read' := by
  intro a args read
  cases read

theorem vaInt_reads (passed : PassedOn args ap) :
    ReadsSame (fun _ => True) (Pumelo.vaInt args) (vaInt ap) := by
  cases passed with
  | nil => exact .error _ _
  | cons first rest =>
      cases first with
      | word value text => exact ReadsSame.ok trivial rest
      | str => exact .error _ _

theorem vaLongLong_reads (passed : PassedOn args ap) :
    ReadsSame (fun _ => True) (Pumelo.vaLongLong args) (vaLongLong ap) := by
  refine (vaInt_reads passed).bind fun low args ap passed _ => ?_
  refine (vaInt_reads passed).bind fun high args ap passed _ => ?_
  exact ReadsSame.ok trivial passed

/-- A string is short enough for `strnlen`. -/
def ShortText (text : Option (List UInt8)) : Prop := ∀ p ∈ text, p.length < 2 ^ 31

theorem vaString_reads (passed : PassedOn args ap) :
    ReadsSame ShortText (Pumelo.vaString args) (vaString ap) := by
  cases passed with
  | nil => exact .error _ _
  | cons first rest =>
      cases first with
      | word value text =>
          by_cases null : value = 0
          · subst null
            exact ReadsSame.ok (by simp [ShortText]) rest
          · rename_i args ap
            have fails : Pumelo.vaString (.word value :: args) = .error (.outOfBounds "ap" 0) := by
              rw [Pumelo.vaString]
              · exact fun text ap same => VaArg.noConfusion (List.cons.inj same).1
              · exact fun ap same => null (VaArg.word.inj (List.cons.inj same).1)
            rw [fails]
            exact .error _ _
      | str notNull short =>
          rw [vaString, if_neg notNull]
          exact ReadsSame.ok (by simpa [ShortText] using short) rest

theorem getWidened_reads (widen : BitVec 32 → BitVec 64) (passed : PassedOn args ap) (lflag : Nat) :
    ReadsSame (fun _ => True) (Pumelo.getWidened widen args lflag) (getWidened widen ap lflag) := by
  unfold Pumelo.getWidened getWidened
  split
  · exact vaLongLong_reads passed
  · exact (vaInt_reads passed).bind fun value args ap passed _ => ReadsSame.ok trivial passed

/-- The width and the precision are values of an `int`. -/
structure Fits (spec : Spec) : Prop where
  width : int32 spec.width = spec.width
  precision : int32 spec.precision = spec.precision

theorem int32_int32 (value : Int) : int32 (int32 value) = int32 value := Int.bmod_bmod

theorem int32_range (value : Int) : -2 ^ 31 ≤ int32 value ∧ int32 value < 2 ^ 31 :=
  ⟨Int.le_bmod (by decide), Int.bmod_lt (by decide)⟩

theorem int32_min (value : Int) : int32 (min (int32 value) 0) = min (int32 value) 0 := by
  have range := int32_range value
  exact int32_of_fits (by omega) (by omega)

theorem fits_default : Fits {} := ⟨rfl, rfl⟩

theorem Fits.processPrecision {spec : Spec} (fits : Fits spec) : Fits (processPrecision spec) := by
  unfold Pumelo.processPrecision
  split
  · exact ⟨fits.precision, rfl⟩
  · exact fits

theorem int32_widthField (precision : Int) (ch : UInt8) (fmt : List UInt8) :
    int32 (Pumelo.widthField precision ch fmt).1 = (Pumelo.widthField precision ch fmt).1 := by
  induction fmt generalizing precision ch with
  | nil => exact int32_int32 _
  | cons next fmt ih =>
      rw [Pumelo.widthField]
      split
      · exact ih ..
      · exact int32_int32 _

/-- What is behind the flags is no flag. -/
def Ends (left : List UInt8) : Prop := ∀ ch ∈ left.head?, ¬ isFlag ch

theorem widthField_append (precision : Int) (ch : UInt8) (flags : List UInt8) {left : List UInt8}
    (ends : Ends left) :
    Pumelo.widthField precision ch (flags ++ left) =
      ((Pumelo.widthField precision ch flags).1,
        (Pumelo.widthField precision ch flags).2 ++ left) := by
  induction flags generalizing precision ch with
  | nil =>
      cases left with
      | nil => rfl
      | cons next left => exact if_neg fun digit => ends next rfl (.inr (.inl digit))
  | cons next flags ih =>
      rw [List.cons_append, Pumelo.widthField, Pumelo.widthField]
      split
      · exact ih ..
      · rfl

theorem reswitch_ends (spec : Spec) (args : VaList) {left : List UInt8} (ends : Ends left) :
    Pumelo.reswitch spec args left = .ok (left.headD 0, spec, args, left.tail) := by
  cases left with
  | nil => rw [Pumelo.reswitch]; rfl
  | cons ch left =>
      have flag := ends ch rfl
      simp only [isFlag, not_or] at flag
      obtain ⟨minus, digit, star, dot, alt, long⟩ := flag
      have zero : ch ≠ ascii '0' := by
        rintro rfl
        exact digit (by decide)
      rw [Pumelo.reswitch, if_neg minus, if_neg zero,
        if_neg fun first => digit (isDigit_first first),
        if_neg star, if_neg dot, if_neg alt, if_neg long]
      rfl

/-- `reswitch` reads the flags, and leaves what is behind them. -/
theorem reswitch_reads {spec : Spec} (fits : Fits spec) (passed : PassedOn args ap)
    (flags : List UInt8) (all : ∀ ch ∈ flags, isFlag ch) {left : List UInt8} (ends : Ends left)
    {read : UInt8 × Spec × VaList × List UInt8}
    (run : Pumelo.reswitch spec args (flags ++ left) = .ok read) :
    ∃ spec' args' ap', read = (left.headD 0, spec', args', left.tail) ∧
      applyFlags spec ap flags = .ok (spec', ap') ∧ PassedOn args' ap' ∧ Fits spec' := by
  fun_induction applyFlags spec ap flags generalizing args with
  | case1 spec ap =>
      rw [List.nil_append, reswitch_ends spec args ends] at run
      cases run
      exact ⟨spec, args, ap, rfl, rfl, passed, fits⟩
  | case2 spec ap flags ih =>
      rw [List.cons_append, Pumelo.reswitch, if_pos rfl] at run
      exact ih ⟨fits.width, fits.precision⟩ passed (List.forall_mem_cons.mp all).2 run
  | case3 spec ap flags minus ih =>
      rw [List.cons_append, Pumelo.reswitch, if_neg minus, if_pos rfl] at run
      exact ih ⟨fits.width, fits.precision⟩ passed (List.forall_mem_cons.mp all).2 run
  | case4 spec ap ch flags minus zero first field =>
      rename_i ih
      obtain ⟨digits, -, split⟩ := widthField_split 0 ch flags
      have rest : ∀ ch ∈ field.2, isFlag ch := by
        intro ch member
        apply (List.forall_mem_cons.mp all).2
        rw [split]
        exact List.mem_append_right _ member
      rw [List.cons_append, Pumelo.reswitch, if_neg minus, if_neg zero, if_pos first,
        widthField_append 0 ch flags ends] at run
      exact ih (Fits.processPrecision ⟨fits.width, int32_widthField ..⟩) passed rest run
  | case5 spec ap flags minus zero first ih =>
      rw [List.cons_append, Pumelo.reswitch, if_neg minus, if_neg zero, if_neg first, if_pos rfl,
        bind_eq_ok] at run
      obtain ⟨⟨precision, rest⟩, took, run⟩ := run
      obtain ⟨ap', took', passed', -⟩ := vaInt_reads passed _ _ took
      have value : int32 precision.toInt = precision.toInt := BitVec.toInt_bmod_cancel precision
      rw [bind_ok took']
      exact ih precision ap' (Fits.processPrecision ⟨fits.width, value⟩) passed'
        (List.forall_mem_cons.mp all).2 run
  | case6 spec ap flags minus zero first star ih =>
      rw [List.cons_append, Pumelo.reswitch, if_neg minus, if_neg zero, if_neg first, if_neg star,
        if_pos rfl] at run
      rw [dite_eq_ite] at ih
      refine ih ?_ passed (List.forall_mem_cons.mp all).2 run
      split
      · exact ⟨rfl, fits.precision⟩
      · exact fits
  | case7 spec ap flags minus zero first star dot ih =>
      rw [List.cons_append, Pumelo.reswitch, if_neg minus, if_neg zero, if_neg first, if_neg star,
        if_neg dot, if_pos rfl] at run
      exact ih ⟨fits.width, fits.precision⟩ passed (List.forall_mem_cons.mp all).2 run
  | case8 spec ap ch flags minus zero first star dot alt ih =>
      have long : ch = ascii 'l' :=
        isFlag_long (List.forall_mem_cons.mp all).1 minus zero first star dot alt
      rw [List.cons_append, Pumelo.reswitch, if_neg minus, if_neg zero, if_neg first, if_neg star,
        if_neg dot, if_neg alt, if_pos long] at run
      exact ih ⟨fits.width, fits.precision⟩ passed (List.forall_mem_cons.mp all).2 run

/-- What is printed of a string. -/
def shownText (precision : Int) (p : List UInt8) : List UInt8 :=
  if precision < 0 then p.takeWhile (· ≠ 0) else (p.takeWhile (· ≠ 0)).take precision.toNat

theorem strnlen_eq (p : List UInt8) (len : Nat) :
    strnlen p len = ((p.takeWhile (· ≠ 0)).take len).length := by
  induction p generalizing len with
  | nil => simp [strnlen]
  | cons ch p ih =>
      cases len with
      | zero => rfl
      | succ len =>
          rw [strnlen, List.takeWhile_cons]
          split
          · next zero => simp [zero]
          · next letter => simp [letter, ih]

/-- As a `size_t` a negative precision is longer than any string. -/
theorem strnlen_shownText {precision : Int} (fits : int32 precision = precision) {p : List UInt8}
    (short : p.length < 2 ^ 31) :
    strnlen p (precision % 2 ^ 32).toNat = (shownText precision p).length := by
  have range := int32_range precision
  rw [fits] at range
  have shorter := (List.takeWhile_prefix (l := p) (fun ch => decide (ch ≠ 0))).length_le
  rw [strnlen_eq, shownText]
  split
  · rw [List.take_of_length_le (by omega)]
  · rw [Int.emod_eq_of_lt (by omega) (by omega)]

theorem shownText_nil (precision : Int) : shownText precision [] = [] := by
  unfold shownText
  split <;> simp

variable {σ : Type} (putch : BitVec 32 → σ → σ)

theorem putChars_eq (altflag : Bool) (p : List UInt8) (precision : Int) {width : Int}
    (fits : int32 width = width) (s : σ) :
    putChars putch altflag p precision width s =
      (int32 (width - (shownText precision p).length),
        putAll putch ((shownText precision p).map (shownChar altflag)) s) := by
  induction p generalizing precision width s with
  | nil =>
      rw [shownText_nil, putChars, List.length_nil, Int.natCast_zero, Int.sub_zero, fits]
      rfl
  | cons ch p ih =>
      have step (rest : Nat) : int32 (int32 (width - 1) - rest) =
          int32 (width - (rest + 1 : Nat)) := by
        rw [int32, int32, Int.bmod_sub_bmod]
        exact congrArg int32 (by omega)
      by_cases ended : ch = 0
      · have none : shownText precision (ch :: p) = [] := by simp [shownText, ended]
        rw [putChars, if_pos ended, none, List.length_nil, Int.natCast_zero, Int.sub_zero, fits]
        rfl
      · by_cases negative : precision < 0
        · have more : shownText precision (ch :: p) = ch :: shownText precision p := by
            simp [shownText, ended, negative]
          rw [putChars, if_neg ended, if_pos negative, ih _ (int32_int32 _), more, step]
          rfl
        · by_cases room : precision - 1 ≥ 0
          · have more : shownText precision (ch :: p) = ch :: shownText (precision - 1) p := by
              have count : precision.toNat = (precision - 1).toNat + 1 := by omega
              rw [shownText, shownText, if_neg negative, if_neg (Int.not_lt.mpr room), count,
                List.takeWhile_cons_of_pos (by simpa using ended), List.take_succ_cons]
            rw [putChars, if_neg ended, if_neg negative, if_pos room, ih _ (int32_int32 _),
              more, step]
            rfl
          · have none : shownText precision (ch :: p) = [] := by
              have zero : precision = 0 := by omega
              simp [shownText, zero]
            rw [putChars, if_neg ended, if_neg negative, if_neg room, none, List.length_nil,
              Int.natCast_zero, Int.sub_zero, fits]
            rfl

/-- The conversion to text passes its text on. -/
theorem putString_eq {spec : Spec} (fits : Fits spec) {p : List UInt8} (short : p.length < 2 ^ 31)
    (s : σ) :
    putString putch spec p s = putAll putch (Pumelo.putString spec p) s := by
  have text : Pumelo.putString spec p =
      let shown := shownText spec.precision p
      let padded := spec.width > 0 ∧ spec.padc ≠ ascii '-'
      let lead := if padded then int32 (spec.width - shown.length) else 0
      let width := if padded then min lead 0 else spec.width
      List.replicate lead.toNat (signedChar spec.padc) ++ shown.map (shownChar spec.altflag) ++
        List.replicate (int32 (width - shown.length)).toNat (signedChar (ascii ' ')) := rfl
  rw [text, putString, strnlen_shownText fits.precision short]
  by_cases padded : spec.width > 0 ∧ spec.padc ≠ ascii '-'
  · simp only [if_pos padded]
    rw [putChars_eq putch _ _ _ (int32_min _), pads_eq, pads_eq, putAll_append, putAll_append]
  · simp only [if_neg padded]
    rw [putChars_eq putch _ _ _ fits.width, pads_eq, putAll_append, putAll_append]
    rfl

/-! ## Conversions -/

/-- The index of the error codes up to the last one is not scaled out of the word. -/
theorem errorStringAt_eq {err : BitVec 32} (small : err.toNat ≤ 6) :
    errorStringAt err = if err = 0 then none else errorString[err.toNat - 1]? := by
  have index : (4 * err).toNat / 4 = err.toNat := by
    have scaled : (4 * err).toNat = 4 * err.toNat % 2 ^ 32 := BitVec.toNat_mul ..
    omega
  rw [errorStringAt, index]
  split
  · next zero => rw [if_pos (BitVec.toNat_inj.mp zero)]
  · next index more =>
      have other : err ≠ 0 := by
        rintro rfl
        cases more
      rw [if_neg other, more, Nat.succ_sub_one]

theorem slt_six {err : BitVec 32} (nonneg : ¬ err.slt 0) :
    (6 : BitVec 32).slt err ↔ 6 < err.toNat := by
  rw [BitVec.slt_iff_toInt_lt] at nonneg ⊢
  have zero : (0 : BitVec 32).toInt = 0 := rfl
  have six : (6 : BitVec 32).toInt = 6 := rfl
  have signed := BitVec.toInt_eq_toNat_cond err
  split at signed <;> omega

theorem putError_eq {code : BitVec 32} {text : List (BitVec 32)}
    (run : Pumelo.putError code = .ok text) (s : σ) :
    putError (vprintfmt putch) code s = .ok (putAll putch text s) := by
  unfold Pumelo.putError at run
  unfold putError
  dsimp only at run ⊢
  generalize (if code.slt 0 then -code else code) = err at run ⊢
  have unknown : vprintfmt putch (bytes "error %d") [⟨err, []⟩] s =
      .ok (putAll putch (putError.error err) s) := by
    refine (printfmt_error putch 9 err s).trans ?_
    rw [putDecimal_ok, putError.error, putAll_append]
  split at run
  · cases run
  · next nonneg =>
      have entries : errorString.length = 6 := rfl
      by_cases large : 6 < err.toNat
      · rw [List.getElem?_eq_none (by omega)] at run
        cases run
        rw [if_pos ((slt_six nonneg).mpr large)]
        exact unknown
      · rw [if_neg fun less => large ((slt_six nonneg).mp less),
          errorStringAt_eq (Nat.not_lt.mp large)]
        by_cases zero : err = 0
        · subst zero
          cases run
          exact unknown
        · rw [if_neg zero]
          simp only [if_neg zero] at run
          split at run
          · next found =>
              have short : ∀ text ∈ errorString, (bytes text).length < 2 ^ 31 := by decide +kernel
              cases run
              rw [found]
              refine (printfmt_text putch 3 _ s).trans ?_
              rw [putString_eq putch fits_default (short _ (List.mem_of_getElem? found))]
          · next missing =>
              cases run
              rw [missing]
              exact unknown

/-- A conversion gives a text, and the one on the words passes that text on. -/
def Prints (s : σ) (run : Except Fault (Option (List (BitVec 32) × VaList)))
    (run' : Except Fault (Option (Stack × σ))) : Prop :=
  ∀ converted, run = .ok converted →
    match converted with
    | none => run' = .ok none
    | some (text, args) => ∃ ap, run' = .ok (some (ap, putAll putch text s)) ∧ PassedOn args ap

section Prints

variable {putch} {s : σ} {run first second : Except Fault (Option (List (BitVec 32) × VaList))}
  {run' first' second' : Except Fault (Option (Stack × σ))}

theorem Prints.ite {condition : Prop} [Decidable condition]
    (pos : condition → Prints putch s first first')
    (neg : ¬ condition → Prints putch s second second') :
    Prints putch s (if condition then first else second)
      (if condition then first' else second') := by
  split
  · next holds => exact pos holds
  · next fails => exact neg fails

theorem Prints.text {text : List (BitVec 32)} (passed : PassedOn args ap)
    (ran : run' = .ok (some (ap, putAll putch text s))) :
    Prints putch s (.ok (some (text, args))) run' := by
  rintro _ ⟨⟩
  exact ⟨ap, ran, passed⟩

theorem Prints.take {α : Type} {good : α → Prop} {read : Except Fault (α × VaList)}
    {read' : Except Fault (α × Stack)} (reads : ReadsSame good read read')
    {f : α × VaList → Except Fault (Option (List (BitVec 32) × VaList))}
    {f' : α × Stack → Except Fault (Option (Stack × σ))}
    (rest : ∀ a args ap, PassedOn args ap → good a → Prints putch s (f (a, args)) (f' (a, ap))) :
    Prints putch s (read >>= f) (read' >>= f') := by
  intro converted run
  obtain ⟨taken, took, run⟩ := bind_eq_ok.mp run
  obtain ⟨ap, took', passed, fine⟩ := reads _ _ took
  rw [bind_ok took']
  exact rest _ _ ap passed fine converted run

end Prints

/-- Every conversion passes its text on. -/
theorem convert_prints {spec : Spec} (fits : Fits spec) (passed : PassedOn args ap) (conv : UInt8)
    (s : σ) :
    Prints putch s (Pumelo.convert conv spec args)
      (convert putch (vprintfmt putch) conv spec ap s) := by
  unfold Pumelo.convert convert
  refine .ite (fun _ => ?_) fun _ => .ite (fun _ => ?_) fun _ => .ite (fun _ => ?_) fun _ =>
    .ite (fun _ => ?_) fun _ => .ite (fun _ => ?_) fun _ => .ite (fun _ => ?_) fun _ =>
    .ite (fun _ => ?_) fun _ => .ite (fun _ => ?_) fun _ => .ite (fun _ => ?_) fun _ => ?_
  · exact .take (vaInt_reads passed) fun value args ap passed _ => .text passed rfl
  · refine .take (vaInt_reads passed) fun code args ap passed _ => ?_
    intro converted run
    obtain ⟨text, given, same⟩ := bind_eq_ok.mp run
    cases same
    exact ⟨ap, bind_ok (putError_eq putch given s), passed⟩
  · refine .take (vaString_reads passed) fun p args ap passed short => .text passed ?_
    have letters : (p.getD (bytes "(null)")).length < 2 ^ 31 := by
      cases p with
      | none => decide
      | some p => exact short p rfl
    exact congrArg (fun s => Except.ok (some (ap, s))) (putString_eq putch fits letters s)
  · exact .take (getWidened_reads _ passed _) fun num args ap passed _ =>
      .text passed (bind_ok (putDecimal_ok putch spec num s))
  · exact .take (getWidened_reads _ passed _) fun num args ap passed _ =>
      .text passed (bind_ok (putNumber_ok putch spec num 10 (by decide) s))
  · exact .take (getWidened_reads _ passed _) fun num args ap passed _ =>
      .text passed (bind_ok (putNumber_ok putch spec num 8 (by decide) s))
  · exact .take (vaInt_reads passed) fun value args ap passed _ =>
      .text passed (bind_ok (putNumber_ok putch spec (value.setWidth 64) 16 (by decide) _))
  · exact .take (getWidened_reads _ passed _) fun num args ap passed _ =>
      .text passed (bind_ok (putNumber_ok putch spec num 16 (by decide) s))
  · exact .text passed rfl
  · rintro _ ⟨⟩
    rfl

/-- A text without `%` in front of a format. -/
theorem vprintfmtFrom_literal {plain : List UInt8} (noNul : 0 ∉ plain)
    (noPercent : ascii '%' ∉ plain)
    {left : List UInt8} {fuel : Nat} {out : List (BitVec 32)}
    (run : Pumelo.vprintfmtFrom (plain ++ left) args fuel = .ok out) :
    ∃ fuel' out', out = plain.map unsignedChar ++ out' ∧
      Pumelo.vprintfmtFrom left args fuel' = .ok out' := by
  induction plain generalizing fuel out with
  | nil => exact ⟨fuel, out, rfl, run⟩
  | cons ch plain ih =>
      simp only [List.mem_cons, not_or] at noNul noPercent
      cases fuel with
      | zero => cases run
      | succ fuel =>
          rw [List.cons_append, Pumelo.vprintfmtFrom, if_neg (Ne.symm noNul.1),
            if_pos (Ne.symm noPercent.1), bind_eq_ok] at run
          obtain ⟨text, rest, same⟩ := run
          cases same
          obtain ⟨fuel', out', rfl, behind⟩ := ih noNul.2 noPercent.2 rest
          exact ⟨fuel', out', rfl, behind⟩

/-- What the formatter on lists does at an escape sequence. -/
theorem vprintfmtFrom_flags (passed : PassedOn args ap) {flags : List UInt8}
    (all : ∀ ch ∈ flags, isFlag ch) {left : List UInt8} (ends : Ends left) {fuel : Nat}
    {out : List (BitVec 32)}
    (run : Pumelo.vprintfmtFrom (ascii '%' :: (flags ++ left)) args fuel = .ok out) :
    ∃ fuel' spec args' ap' converted, applyFlags {} ap flags = .ok (spec, ap') ∧
      PassedOn args' ap' ∧ Fits spec ∧
      Pumelo.convert (left.headD 0) spec args' = .ok converted ∧
      match converted with
      | some (text, args) => ∃ rest, out = text ++ rest ∧
          Pumelo.vprintfmtFrom left.tail args fuel' = .ok rest
      | none => ∃ rest, out = unsignedChar (ascii '%') :: rest ∧
          Pumelo.vprintfmtFrom (flags ++ left) args' fuel' = .ok rest := by
  cases fuel with
  | zero => cases run
  | succ fuel =>
      rw [Pumelo.vprintfmtFrom_percent, bind_eq_ok] at run
      obtain ⟨read, took, run⟩ := run
      obtain ⟨spec, args', ap', rfl, flagsRead, passed', fits⟩ :=
        reswitch_reads fits_default passed flags all ends took
      obtain ⟨converted, given, run⟩ := bind_eq_ok.mp run
      refine ⟨fuel, spec, args', ap', converted, flagsRead, passed', fits, given, ?_⟩
      cases converted with
      | none =>
          obtain ⟨rest, rest', same⟩ := bind_eq_ok.mp run
          cases same
          exact ⟨rest, rfl, rest'⟩
      | some result =>
          obtain ⟨rest, rest', same⟩ := bind_eq_ok.mp run
          cases same
          exact ⟨rest, rfl, rest'⟩

/-- What the formatter on lists gives is what the pieces of the format pass on. -/
theorem runPieces_prints {text : List UInt8} (ended : 0 ∉ text) (passed : PassedOn args ap)
    {fuel : Nat}
    {out : List (BitVec 32)} (run : Pumelo.vprintfmtFrom text args fuel = .ok out) (s : σ) :
    runPieces putch (pieces text) ap s = .ok (putAll putch out s) := by
  fun_induction pieces text generalizing args ap fuel out s with
  | case1 =>
      cases fuel with
      | zero => cases run
      | succ fuel =>
          cases run
          rfl
  | case2 ch text plain ih =>
      simp only [List.mem_cons, not_or] at ended
      have noNul : 0 ∉ [ch] := by simpa using ended.1
      have noPercent : ascii '%' ∉ [ch] := by simpa using Ne.symm plain
      obtain ⟨fuel', out', rfl, rest⟩ := vprintfmtFrom_literal noNul noPercent run
      exact ih ended.2 passed rest _
  | case3 ch text percent behind =>
      obtain ⟨split, all⟩ := flags_split behind
      rw [List.append_nil] at split
      rw [← split] at all ⊢
      rw [not_ne_iff.mp percent, ← List.append_nil text] at run
      obtain ⟨fuel', spec, args', ap', converted, flagsRead, -, -, given, left⟩ :=
        vprintfmtFrom_flags passed all (by simp [Ends]) run
      obtain ⟨noNul, noPercent⟩ := notMem_flags all
      cases given
      obtain ⟨rest, rfl, literal⟩ := left
      obtain ⟨fuel'', out', rfl, done⟩ := vprintfmtFrom_literal noNul noPercent literal
      have nothing : out' = [] := by
        cases fuel'' with
        | zero => cases done
        | succ fuel =>
            cases done
            rfl
      subst nothing
      have cut : (Piece.cut text).run putch ap s =
          .ok (ap', putAll putch ((Piece.cut text).text.map unsignedChar) s) := bind_ok flagsRead
      refine (bind_ok cut).trans ?_
      rw [List.append_nil]
      rfl
  | case4 ch text percent conv after behind ih =>
      obtain ⟨split, all⟩ := flags_split behind
      have ends : ¬ isFlag conv := not_isFlag_head behind
      generalize text.takeWhile isFlag = flags at *
      subst split
      simp only [List.mem_cons, List.mem_append, not_or] at ended
      rw [not_ne_iff.mp percent] at run
      obtain ⟨fuel', spec, args', ap', converted, flagsRead, passed', fits, given, left⟩ :=
        vprintfmtFrom_flags passed all (by simpa [Ends] using ends) run
      have printed := convert_prints putch fits passed' conv s converted given
      obtain ⟨noNul, noPercent⟩ := notMem_flags all
      rw [runPieces]
      cases converted with
      | some result =>
          obtain ⟨rest, rfl, left⟩ := left
          obtain ⟨ap'', shown, passed''⟩ := printed
          have piece : (Piece.escape flags conv).run putch ap s =
              .ok (ap'', putAll putch result.1 s) := (bind_ok flagsRead).trans (bind_ok shown)
          rw [bind_ok piece, putAll_append]
          exact ih ended.2.2.2 passed'' left _
      | none =>
          obtain ⟨rest, rfl, left⟩ := left
          have noConv : conv ≠ ascii '%' := by
            rintro rfl
            cases printed
          have piece : (Piece.escape flags conv).run putch ap s =
              .ok (ap', putAll putch ((Piece.escape flags conv).text.map unsignedChar) s) :=
            (bind_ok flagsRead).trans (bind_ok printed)
          have plain : ascii '%' ∉ flags ++ [conv] := by
            simpa using ⟨noPercent, Ne.symm noConv⟩
          have noEnd : 0 ∉ flags ++ [conv] := by
            simpa using ⟨noNul, ended.2.2.1⟩
          have whole : flags ++ conv :: after = flags ++ [conv] ++ after := by
            rw [List.append_assoc, List.singleton_append]
          rw [whole] at left
          obtain ⟨fuel'', out', rfl, rest⟩ := vprintfmtFrom_literal noEnd plain left
          have shown : unsignedChar (ascii '%') :: ((flags ++ [conv]).map unsignedChar ++ out') =
              (Piece.escape flags conv).text.map unsignedChar ++ out' := rfl
          rw [bind_ok piece, shown, putAll_append]
          exact ih ended.2.2.2 passed' rest _

/-- Where the formatter on lists gives a text, the one on its string passes that text to `putch`. -/
theorem vprintfmt_refines {text : List UInt8} (ended : 0 ∉ text) (passed : PassedOn args ap)
    {out : List (BitVec 32)} (run : Pumelo.vprintfmt text args = .ok out) (s : σ) :
    vprintfmt putch text ap s = .ok (putAll putch out s) := by
  rw [vprintfmt_pieces putch ended]
  exact runPieces_prints putch ended passed run s

/-- A number in a field of five characters. -/
theorem vprintfmt_refines_number :
    ∃ out, kprintf (numberFormat none 5 .int .d) [.word 7] = .ok out ∧
    vprintfmt collect (numberFormat none 5 .int .d) [⟨7, []⟩] [] = .ok (putAll collect out []) := by
  have printed := @kprintf_number none 5 .int .d 7
  refine ⟨_, printed, ?_⟩
  have passed : PassedOn [.word 7] [⟨7, []⟩] := .cons (.word 7 []) .nil
  exact vprintfmt_refines collect (by decide +kernel) passed printed []

end Putch

end Pumelo
