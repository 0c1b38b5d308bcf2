import Pumelo.Formatter

/-!
# Formats as pieces

A format is a list of characters and escape sequences.  `vprintfmt` works through them one after
the other, and never moves its pointer out of the string.
-/

namespace Pumelo

open Foundation

namespace Putch

/-- The characters between the `%` and the conversion. -/
def isFlag (ch : UInt8) : Prop :=
  ch = ascii '-' ∨ isDigit ch ∨ ch = ascii '*' ∨ ch = ascii '.' ∨ ch = ascii '#' ∨ ch = ascii 'l'

instance (ch : UInt8) : Decidable (isFlag ch) := inferInstanceAs (Decidable (_ ∨ _))

/-- What the flags say, with the arguments behind those of the `*`. -/
def applyFlags (spec : Spec) (ap : Stack) (flags : List UInt8) : Except Fault (Spec × Stack) :=
  match flags with
  | [] => .ok (spec, ap)
  | ch :: flags =>
      if ch = ascii '-' then applyFlags { spec with padc := ascii '-' } ap flags
      else if ch = ascii '0' then applyFlags { spec with padc := ascii '0' } ap flags
      else if ascii '1' ≤ ch ∧ ch ≤ ascii '9' then
        let field := Pumelo.widthField 0 ch flags
        applyFlags (processPrecision { spec with precision := field.1 }) ap field.2
      else if ch = ascii '*' then do
        let (precision, ap) ← vaInt ap
        applyFlags (processPrecision { spec with precision := precision.toInt }) ap flags
      else if ch = ascii '.' then
        applyFlags (if spec.width < 0 then { spec with width := 0 } else spec) ap flags
      else if ch = ascii '#' then applyFlags { spec with altflag := true } ap flags
      else applyFlags { spec with lflag := spec.lflag + 1 } ap flags
termination_by flags.length
decreasing_by
  all_goals simp only [List.length_cons]
  all_goals first
  | exact Nat.lt_succ_of_le (widthField_length ..)
  | exact Nat.lt_succ_self _

/-- The digits of a width field, and what is behind them. -/
theorem widthField_split (precision : Int) (ch : UInt8) (flags : List UInt8) :
    ∃ digits, (∀ digit ∈ digits, isDigit digit) ∧
      flags = digits ++ (Pumelo.widthField precision ch flags).2 := by
  induction flags generalizing precision ch with
  | nil => exact ⟨[], by simp, rfl⟩
  | cons next flags ih =>
      rw [Pumelo.widthField]
      split
      · next digit =>
          obtain ⟨digits, all, split⟩ := ih (int32 (precision * 10 + ch.toNat - 48)) next
          exact ⟨next :: digits, by simpa [digit] using all, congrArg (next :: ·) split⟩
      · exact ⟨[], by simp, rfl⟩

/-- The loop of the width field on the string. -/
theorem widthField_cursor (precision : Int) (ch : UInt8) {flags : List UInt8} {conv : UInt8}
    (ends : ¬ isDigit conv) {fuel : Nat} (enough : flags.length < fuel) (seen after : List UInt8) :
    ∃ digits, flags = digits ++ (Pumelo.widthField precision ch flags).2 ∧
      widthField fuel precision ch ⟨seen, flags ++ conv :: after⟩ =
        .ok ((Pumelo.widthField precision ch flags).1,
          ⟨digits.reverse ++ seen, (Pumelo.widthField precision ch flags).2 ++ conv :: after⟩) := by
  induction flags generalizing precision ch fuel seen with
  | nil =>
      obtain ⟨fuel, rfl⟩ := Nat.exists_eq_succ_of_ne_zero (Nat.ne_of_gt enough)
      refine ⟨[], rfl, ?_⟩
      rw [widthField, List.nil_append, Cursor.next]
      exact if_neg ends
  | cons next flags ih =>
      obtain ⟨fuel, rfl⟩ := Nat.exists_eq_succ_of_ne_zero (Nat.ne_zero_of_lt enough)
      rw [widthField, Pumelo.widthField, List.cons_append, Cursor.next]
      dsimp only [bind, Except.bind]
      split
      · obtain ⟨digits, split, run⟩ := ih _ _ (Nat.lt_of_succ_lt_succ enough) (next :: seen)
        refine ⟨next :: digits, congrArg (next :: ·) split, ?_⟩
        rw [run, List.reverse_cons, List.append_assoc]
        rfl
      · exact ⟨[], rfl, rfl⟩

theorem isDigit_first {ch : UInt8} (first : ascii '1' ≤ ch ∧ ch ≤ ascii '9') : isDigit ch :=
  ⟨UInt8.le_trans (by decide) first.1, first.2⟩

/-- One round of `reswitch`. -/
theorem reswitch_cons (fuel : Nat) (spec : Spec) (ap : Stack) (seen : List UInt8) (ch : UInt8)
    (left : List UInt8) :
    reswitch (fuel + 1) spec ap ⟨seen, ch :: left⟩ =
      if ch = ascii '-' then reswitch fuel { spec with padc := ascii '-' } ap ⟨ch :: seen, left⟩
      else if ch = ascii '0' then reswitch fuel { spec with padc := ascii '0' } ap
        ⟨ch :: seen, left⟩
      else if ascii '1' ≤ ch ∧ ch ≤ ascii '9' then do
        let (precision, fmt) ← widthField fuel 0 ch ⟨ch :: seen, left⟩
        reswitch fuel (processPrecision { spec with precision }) ap fmt
      else if ch = ascii '*' then do
        let (precision, ap) ← vaInt ap
        reswitch fuel (processPrecision { spec with precision := precision.toInt }) ap
          ⟨ch :: seen, left⟩
      else if ch = ascii '.' then
        reswitch fuel (if spec.width < 0 then { spec with width := 0 } else spec) ap
          ⟨ch :: seen, left⟩
      else if ch = ascii '#' then reswitch fuel { spec with altflag := true } ap ⟨ch :: seen, left⟩
      else if ch = ascii 'l' then
        reswitch fuel { spec with lflag := spec.lflag + 1 } ap ⟨ch :: seen, left⟩
      else .ok (ch, spec, ap, ⟨ch :: seen, left⟩) := rfl

theorem reswitch_conv {conv : UInt8} (ends : ¬ isFlag conv) (fuel : Nat) (spec : Spec) (ap : Stack)
    (seen after : List UInt8) :
    reswitch (fuel + 1) spec ap ⟨seen, conv :: after⟩ =
      .ok (conv, spec, ap, ⟨conv :: seen, after⟩) := by
  simp only [isFlag, not_or] at ends
  obtain ⟨minus, digit, star, dot, alt, long⟩ := ends
  have zero : conv ≠ ascii '0' := by
    rintro rfl
    exact digit (by decide)
  rw [reswitch_cons, if_neg minus, if_neg zero, if_neg fun first => digit (isDigit_first first),
    if_neg star, if_neg dot, if_neg alt, if_neg long]

/-- The last of the flags, where it is none of the others. -/
theorem isFlag_long {ch : UInt8} (flag : isFlag ch) (minus : ch ≠ ascii '-') (zero : ch ≠ ascii '0')
    (first : ¬ (ascii '1' ≤ ch ∧ ch ≤ ascii '9')) (star : ch ≠ ascii '*') (dot : ch ≠ ascii '.')
    (alt : ch ≠ ascii '#') : ch = ascii 'l' := by
  rcases flag with flag | digit | flag | flag | flag | flag
  · exact absurd flag minus
  · have low : 48 ≤ ch.toNat := UInt8.le_iff_toNat_le.mp digit.1
    have different : ch.toNat ≠ 48 := fun same => zero (UInt8.toNat_inj.mp same)
    have one : ascii '1' ≤ ch := UInt8.le_iff_toNat_le.mpr (Nat.lt_of_le_of_ne low different.symm)
    exact absurd ⟨one, digit.2⟩ first
  · exact absurd flag star
  · exact absurd flag dot
  · exact absurd flag alt
  · exact flag

/-- What is read behind the flags, with the pointer behind them. -/
def Cursor.behind (seen flags : List UInt8) (conv : UInt8) (after : List UInt8)
    (read : Spec × Stack) : UInt8 × Spec × Stack × Cursor :=
  (conv, read.1, read.2, ⟨conv :: (flags.reverse ++ seen), after⟩)

theorem Cursor.behind_append (seen first second : List UInt8) (conv : UInt8) (after : List UInt8) :
    Cursor.behind (first.reverse ++ seen) second conv after =
      Cursor.behind seen (first ++ second) conv after := by
  funext read
  rw [Cursor.behind, Cursor.behind, List.reverse_append, List.append_assoc]

theorem Cursor.behind_cons (seen : List UInt8) (ch : UInt8) (flags : List UInt8) (conv : UInt8)
    (after : List UInt8) :
    Cursor.behind (ch :: seen) flags conv after = Cursor.behind seen (ch :: flags) conv after :=
  Cursor.behind_append seen [ch] flags conv after

/-- `reswitch` reads the flags, and stops behind the first character that is none. -/
theorem reswitch_flags {conv : UInt8} (ends : ¬ isFlag conv) (spec : Spec) (ap : Stack)
    (flags : List UInt8) (all : ∀ ch ∈ flags, isFlag ch) {fuel : Nat} (enough : flags.length ≤ fuel)
    (seen after : List UInt8) :
    reswitch (fuel + 1) spec ap ⟨seen, flags ++ conv :: after⟩ =
      (applyFlags spec ap flags).map (Cursor.behind seen flags conv after) := by
  fun_induction applyFlags spec ap flags generalizing fuel seen with
  | case1 spec ap => exact reswitch_conv ends ..
  | case2 spec ap flags ih =>
      obtain ⟨fuel, rfl⟩ := Nat.exists_eq_add_of_lt enough
      rw [List.cons_append, reswitch_cons, if_pos rfl,
        ih (List.forall_mem_cons.mp all).2 (by omega),
        Cursor.behind_cons]
  | case3 spec ap flags minus ih =>
      obtain ⟨fuel, rfl⟩ := Nat.exists_eq_add_of_lt enough
      rw [List.cons_append, reswitch_cons, if_neg minus, if_pos rfl,
        ih (List.forall_mem_cons.mp all).2 (by omega), Cursor.behind_cons]
  | case4 spec ap ch flags minus zero first field ih =>
      have notDigit : ¬ isDigit conv := fun digit => ends (.inr (.inl digit))
      obtain ⟨digits, split, run⟩ := widthField_cursor 0 ch notDigit
        enough (ch :: seen) after
      have rest : ∀ ch ∈ field.2, isFlag ch := by
        intro ch member
        apply (List.forall_mem_cons.mp all).2
        rw [split]
        exact List.mem_append_right _ member
      have shorter : field.2.length ≤ flags.length := widthField_length ..
      obtain ⟨fuel, rfl⟩ := Nat.exists_eq_add_of_lt enough
      rw [List.cons_append, reswitch_cons, if_neg minus, if_neg zero, if_pos first, run]
      refine (ih rest (by omega) (digits.reverse ++ ch :: seen)).trans ?_
      rw [Cursor.behind_append, ← split, Cursor.behind_cons]
  | case5 spec ap flags minus zero first ih =>
      obtain ⟨fuel, rfl⟩ := Nat.exists_eq_add_of_lt enough
      rw [List.cons_append, reswitch_cons, if_neg minus, if_neg zero, if_neg first, if_pos rfl,
        map_bind]
      refine bind_congr fun read => ?_
      obtain ⟨precision, ap⟩ := read
      dsimp only
      rw [ih precision ap (List.forall_mem_cons.mp all).2 (by omega), Cursor.behind_cons]
  | case6 spec ap flags minus zero first star ih =>
      obtain ⟨fuel, rfl⟩ := Nat.exists_eq_add_of_lt enough
      rw [List.cons_append, reswitch_cons, if_neg minus, if_neg zero, if_neg first, if_neg star,
        if_pos rfl]
      rw [dite_eq_ite] at ih
      rw [ih (List.forall_mem_cons.mp all).2 (by omega), Cursor.behind_cons]
  | case7 spec ap flags minus zero first star dot ih =>
      obtain ⟨fuel, rfl⟩ := Nat.exists_eq_add_of_lt enough
      rw [List.cons_append, reswitch_cons, if_neg minus, if_neg zero, if_neg first, if_neg star,
        if_neg dot, if_pos rfl, ih (List.forall_mem_cons.mp all).2 (by omega), Cursor.behind_cons]
  | case8 spec ap ch flags minus zero first star dot alt ih =>
      obtain ⟨fuel, rfl⟩ := Nat.exists_eq_add_of_lt enough
      have long : ch = ascii 'l' :=
        isFlag_long (List.forall_mem_cons.mp all).1 minus zero first star dot alt
      rw [List.cons_append, reswitch_cons, if_neg minus, if_neg zero, if_neg first, if_neg star,
        if_neg dot, if_neg alt, if_pos long, ih (List.forall_mem_cons.mp all).2 (by omega),
        Cursor.behind_cons]

theorem processPrecision_lflag (spec : Spec) : (processPrecision spec).lflag = spec.lflag := by
  unfold processPrecision
  split <;> rfl

theorem count_digits {digits : List UInt8} (all : ∀ digit ∈ digits, isDigit digit) {ch : UInt8}
    (other : ¬ isDigit ch) : digits.count ch = 0 :=
  List.count_eq_zero.mpr fun member => other (all ch member)

/-- The arguments of the `*` are taken, and the `l` are counted. -/
theorem applyFlags_front (spec : Spec) (front : Stack) (flags : List UInt8)
    (all : ∀ ch ∈ flags, isFlag ch) (stars : front.length = flags.count (ascii '*')) :
    ∃ spec', spec'.lflag = spec.lflag + flags.count (ascii 'l') ∧
      ∀ ap, applyFlags spec (front ++ ap) flags = .ok (spec', ap) := by
  fun_induction applyFlags spec front flags with
  | case1 spec front =>
      obtain rfl := List.eq_nil_of_length_eq_zero stars
      exact ⟨spec, rfl, fun ap => by rw [applyFlags]; rfl⟩
  | case2 spec front flags ih =>
      obtain ⟨spec', long, run⟩ := ih (List.forall_mem_cons.mp all).2 stars
      refine ⟨spec', long, fun ap => ?_⟩
      rw [applyFlags, if_pos rfl, run]
  | case3 spec front flags minus ih =>
      obtain ⟨spec', long, run⟩ := ih (List.forall_mem_cons.mp all).2 stars
      refine ⟨spec', long, fun ap => ?_⟩
      rw [applyFlags, if_neg minus, if_pos rfl, run]
  | case4 spec front ch flags minus zero first field ih =>
      obtain ⟨digits, digit, split⟩ := widthField_split 0 ch flags
      have behind : ∀ ch ∈ field.2, isFlag ch := by
        intro ch member
        apply (List.forall_mem_cons.mp all).2
        rw [split]
        exact List.mem_append_right _ member
      have count {other : UInt8} (letter : ¬ isDigit other) :
          (ch :: flags).count other = field.2.count other := by
        have different : ch ≠ other := fun same => letter (same ▸ isDigit_first first)
        calc (ch :: flags).count other = flags.count other := List.count_cons_of_ne different
          _ = (digits ++ field.2).count other := congrArg (List.count other) split
          _ = field.2.count other := by
            rw [List.count_append, count_digits digit letter, Nat.zero_add]
      obtain ⟨spec', long, run⟩ := ih behind (stars.trans (count (by decide)))
      refine ⟨spec', ?_, fun ap => ?_⟩
      · rw [long, processPrecision_lflag, count (by decide)]
      · rw [applyFlags, if_neg minus, if_neg zero, if_pos first, run]
  | case5 spec front flags minus zero first ih =>
      rw [List.count_cons_self] at stars
      obtain ⟨slot, front, rfl⟩ := List.exists_cons_of_length_eq_add_one stars
      obtain ⟨spec', long, run⟩ :=
        ih slot.word front (List.forall_mem_cons.mp all).2 (Nat.succ.inj stars)
      refine ⟨spec', ?_, fun ap => ?_⟩
      · exact long.trans (congrArg (· + _) (processPrecision_lflag _))
      · rw [applyFlags, if_neg minus, if_neg zero, if_neg first, if_pos rfl]
        exact run ap
  | case6 spec front flags minus zero first star ih =>
      rw [dite_eq_ite] at ih
      obtain ⟨spec', long, run⟩ := ih (List.forall_mem_cons.mp all).2 stars
      refine ⟨spec', ?_, fun ap => ?_⟩
      · exact long.trans (congrArg (· + _) (by split <;> rfl))
      · rw [applyFlags, if_neg minus, if_neg zero, if_neg first, if_neg star, if_pos rfl, run]
  | case7 spec front flags minus zero first star dot ih =>
      obtain ⟨spec', long, run⟩ := ih (List.forall_mem_cons.mp all).2 stars
      refine ⟨spec', long, fun ap => ?_⟩
      rw [applyFlags, if_neg minus, if_neg zero, if_neg first, if_neg star, if_neg dot, if_pos rfl,
        run]
  | case8 spec front ch flags minus zero first star dot alt ih =>
      have last : ch = ascii 'l' :=
        isFlag_long (List.forall_mem_cons.mp all).1 minus zero first star dot alt
      rw [List.count_cons_of_ne star] at stars
      obtain ⟨spec', long, run⟩ := ih (List.forall_mem_cons.mp all).2 stars
      refine ⟨spec', ?_, fun ap => ?_⟩
      · rw [long, last, List.count_cons_self, Nat.add_assoc, Nat.add_comm 1]
      · rw [applyFlags, if_neg minus, if_neg zero, if_neg first, if_neg star, if_neg dot,
          if_neg alt,
          run]

variable {σ : Type} (putch : BitVec 32 → σ → σ)

/-- The pointer goes back over the flags to the `%`. -/
theorem stepBack_flags {flags : List UInt8} (all : ∀ ch ∈ flags, isFlag ch)
    (seen left : List UInt8) :
    stepBack (flags.reverse ++ ascii '%' :: seen) left =
      .ok ⟨ascii '%' :: seen, flags ++ left⟩ := by
  induction flags using List.reverseRecOn generalizing left with
  | nil => exact if_pos rfl
  | append_singleton flags ch ih =>
      have different : ch ≠ ascii '%' := by
        rintro rfl
        exact absurd (all _ (List.mem_append_right _ (List.mem_singleton_self _))) (by decide)
      rw [List.reverse_append, List.append_assoc, List.append_assoc]
      refine (if_neg different).trans ?_
      exact ih (fun ch member => all ch (List.mem_append_left _ member)) (ch :: left)

/-- Characters that are no `%` are passed on. -/
theorem vprintfmtFrom_plain (text : List UInt8) (ended : 0 ∉ text) (plain : ascii '%' ∉ text)
    (fuel : Nat) (seen left : List UInt8) (ap : Stack) (s : σ) :
    vprintfmtFrom putch (fuel + text.length) ⟨seen, text ++ left⟩ ap s =
      vprintfmtFrom putch fuel ⟨text.reverse ++ seen, left⟩ ap
        (putAll putch (text.map unsignedChar) s) := by
  induction text generalizing seen s with
  | nil => rfl
  | cons ch text ih =>
      simp only [List.mem_cons, not_or] at ended plain
      have turn : vprintfmtFrom putch (fuel + text.length + 1) ⟨seen, ch :: (text ++ left)⟩ ap s =
          if ch ≠ ascii '%' then
            if ch = 0 then .ok s
            else vprintfmtFrom putch (fuel + text.length) ⟨ch :: seen, text ++ left⟩ ap
              (putch (unsignedChar ch) s)
          else _ := rfl
      rw [List.length_cons, ← Nat.add_assoc, List.cons_append, turn, if_pos (Ne.symm plain.1),
        if_neg (Ne.symm ended.1), ih ended.2 plain.2, List.reverse_cons, List.append_assoc]
      rfl

theorem vprintfmtFrom_percent (fuel : Nat) (seen left : List UInt8) (ap : Stack) (s : σ) :
    vprintfmtFrom putch (fuel + 1) ⟨seen, ascii '%' :: left⟩ ap s = (do
      let (ch, spec, ap, fmt) ← reswitch (left.length + 1) {} ap ⟨ascii '%' :: seen, left⟩
      match ← convert putch (fun text ap s => vprintfmtFrom putch fuel (.start text) ap s) ch spec
        ap s with
      | some (ap, s) => vprintfmtFrom putch fuel fmt ap s
      | none => do
          let fmt ← fmt.back
          let fmt ← stepBack fmt.seen fmt.left
          vprintfmtFrom putch fuel fmt ap (putch (signedChar (ascii '%')) s)) := rfl

/-- An escape sequence that is not recognised leaves the pointer behind its `%`. -/
theorem vprintfmtFrom_escape {flags : List UInt8} (all : ∀ ch ∈ flags, isFlag ch) {conv : UInt8}
    (ends : ¬ isFlag conv) (fuel : Nat) (seen after : List UInt8) (ap : Stack) (s : σ) :
    vprintfmtFrom putch (fuel + 1) ⟨seen, ascii '%' :: (flags ++ conv :: after)⟩ ap s = (do
      let (spec, ap) ← applyFlags {} ap flags
      match ← convert putch (fun text ap s => vprintfmtFrom putch fuel (.start text) ap s) conv spec
        ap s with
      | some (ap, s) =>
          vprintfmtFrom putch fuel ⟨conv :: (flags.reverse ++ ascii '%' :: seen), after⟩ ap s
      | none =>
          vprintfmtFrom putch fuel ⟨ascii '%' :: seen, flags ++ conv :: after⟩ ap
            (putch (signedChar (ascii '%')) s)) := by
  have enough : flags.length ≤ (flags ++ conv :: after).length := by
    rw [List.length_append]
    exact Nat.le_add_right ..
  rw [vprintfmtFrom_percent, reswitch_flags ends {} ap flags all enough, bind_map]
  refine bind_congr fun read => ?_
  obtain ⟨spec, ap⟩ := read
  refine bind_congr fun converted => ?_
  cases converted with
  | some result => rfl
  | none =>
      refine (bind_ok (stepBack_flags all seen (conv :: after))).trans ?_
      rfl

/-- `printfmt` of the text for an unknown error code. -/
theorem printfmt_error (fuel : Nat) (err : BitVec 32) (s : σ) :
    vprintfmtFrom putch (fuel + 9) (.start (bytes "error %d")) [⟨err, []⟩] s =
      putDecimal putch {} (err.signExtend 64)
        (putAll putch ((bytes "error ").map unsignedChar) s) := by
  have text : bytes "error %d" ++ [0] = bytes "error " ++ ascii '%' :: ([] ++ [ascii 'd', 0]) := by
    decide
  have flags : applyFlags {} [⟨err, []⟩] [] = .ok ({}, [⟨err, []⟩]) := by rw [applyFlags]
  rw [Cursor.start, text]
  refine (vprintfmtFrom_plain putch (bytes "error ") (by decide) (by decide) (fuel + 3)
    ..).trans ?_
  generalize putAll putch ((bytes "error ").map unsignedChar) s = s
  have converted (printfmt) : convert putch printfmt (ascii 'd') {} [⟨err, []⟩] s = (do
      return some ([], ← putDecimal putch {} (err.signExtend 64) s)) := rfl
  rw [vprintfmtFrom_escape putch (by simp) (by decide), bind_ok flags]
  dsimp only
  rw [converted]
  cases putDecimal putch {} (err.signExtend 64) s <;> rfl

/-- `printfmt` of the text of an error code. -/
theorem printfmt_text (fuel : Nat) (p : List UInt8) (s : σ) :
    vprintfmtFrom putch (fuel + 9) (.start (bytes "%s")) [⟨1, p⟩] s =
      .ok (putString putch {} p s) :=
  rfl

theorem putError_fuel (fuel : Nat) (err : BitVec 32) (s : σ) :
    putError (fun text ap s => vprintfmtFrom putch (fuel + 9) (.start text) ap s) err s =
      putError (vprintfmt putch) err s := by
  unfold putError
  dsimp only
  split
  · exact (printfmt_error putch fuel _ s).trans (printfmt_error putch 9 _ s).symm
  · exact (printfmt_text putch fuel _ s).trans (printfmt_text putch 3 _ s).symm

/-- Conversions only call for texts of errors. -/
theorem convert_fuel (fuel : Nat) (ch : UInt8) (spec : Spec) (ap : Stack) (s : σ) :
    convert putch (fun text ap s => vprintfmtFrom putch (fuel + 9) (.start text) ap s) ch
      spec ap s =
      convert putch (vprintfmt putch) ch spec ap s := by
  simp only [convert, putError_fuel]

/-- The characters of the conversions. -/
def conversions : List UInt8 := bytes "cesduopx%"

theorem convert_unknown {conv : UInt8} (unknown : conv ∉ conversions)
    (printfmt : List UInt8 → Stack → σ → Except Fault σ) (spec : Spec) (ap : Stack) (s : σ) :
    convert putch printfmt conv spec ap s = .ok none := by
  have list : conversions = [ascii 'c', ascii 'e', ascii 's', ascii 'd', ascii 'u', ascii 'o',
    ascii 'p',
    ascii 'x', ascii '%'] := rfl
  simp only [list, List.mem_cons, List.not_mem_nil, or_false, not_or] at unknown
  obtain ⟨c, e, str, d, u, o, p, x, percent⟩ := unknown
  rw [convert, if_neg c, if_neg e, if_neg str, if_neg d, if_neg u, if_neg o, if_neg p, if_neg x,
    if_neg percent]
  rfl

section Conversions

variable (printfmt : List UInt8 → Stack → σ → Except Fault σ) (spec : Spec) (slot : Slot)
  (ap : Stack)
  (s : σ)

theorem convert_e :
    convert putch printfmt (ascii 'e') spec (slot :: ap) s = (do
      return some (ap, ← putError printfmt slot.word s)) := rfl

theorem convert_s :
    convert putch printfmt (ascii 's') spec (slot :: ap) s =
      .ok (some (ap, putString putch spec
        ((if slot.word = 0 then none else some slot.text).getD (bytes "(null)")) s)) := rfl

theorem convert_d :
    convert putch printfmt (ascii 'd') spec ap s = (do
      let (num, ap) ← getint ap spec.lflag
      return some (ap, ← putDecimal putch spec num s)) := rfl

theorem convert_u :
    convert putch printfmt (ascii 'u') spec ap s = (do
      let (num, ap) ← getuint ap spec.lflag
      return some (ap, ← putNumber putch spec num 10 s)) := rfl

theorem convert_o :
    convert putch printfmt (ascii 'o') spec ap s = (do
      let (num, ap) ← getuint ap spec.lflag
      return some (ap, ← putNumber putch spec num 8 s)) := rfl

theorem convert_p :
    convert putch printfmt (ascii 'p') spec (slot :: ap) s = (do
      return some (ap, ← putNumber putch spec (slot.word.setWidth 64) 16
        (putch (signedChar (ascii 'x')) (putch (signedChar (ascii '0')) s)))) := rfl

theorem convert_x :
    convert putch printfmt (ascii 'x') spec ap s = (do
      let (num, ap) ← getuint ap spec.lflag
      return some (ap, ← putNumber putch spec num 16 s)) := rfl

theorem convert_percent :
    convert putch printfmt (ascii '%') spec ap s =
      .ok (some (ap, putch (unsignedChar (ascii '%')) s)) :=
  rfl

end Conversions

/-! ## Pieces -/

/-- A character, an escape sequence, or one that the end of the string cuts off. -/
inductive Piece where
  | char (ch : UInt8)
  | escape (flags : List UInt8) (conv : UInt8)
  | cut (flags : List UInt8)
  deriving DecidableEq, Repr

/-- The bytes of a piece. -/
def Piece.text : Piece → List UInt8
  | .char ch => [ch]
  | .escape flags conv => ascii '%' :: (flags ++ [conv])
  | .cut flags => ascii '%' :: flags

/-- The pieces of a format. -/
def pieces : List UInt8 → List Piece
  | [] => []
  | ch :: text =>
      if ch ≠ ascii '%' then .char ch :: pieces text
      else
        match _left : text.dropWhile isFlag with
        | [] => [.cut (text.takeWhile isFlag)]
        | conv :: after => .escape (text.takeWhile isFlag) conv :: pieces after
termination_by text => text.length
decreasing_by
  · exact Nat.lt_succ_self _
  · have shorter := List.length_dropWhile_le (fun ch => decide (isFlag ch)) text
    rw [_left] at shorter
    exact Nat.lt_succ_of_lt shorter

/-- What a piece prints, with the arguments behind those that it takes. -/
def Piece.run (piece : Piece) (ap : Stack) (s : σ) : Except Fault (Stack × σ) :=
  match piece with
  | .char ch => .ok (ap, putch (unsignedChar ch) s)
  | .escape flags conv => do
      let (spec, ap) ← applyFlags {} ap flags
      match ← convert putch (vprintfmt putch) conv spec ap s with
      | some (ap, s) => return (ap, s)
      | none => return (ap, putAll putch ((Piece.escape flags conv).text.map unsignedChar) s)
  | .cut flags => do
      let (_, ap) ← applyFlags {} ap flags
      return (ap, putAll putch ((Piece.cut flags).text.map unsignedChar) s)

def runPieces : List Piece → Stack → σ → Except Fault σ
  | [], _, s => .ok s
  | piece :: pieces, ap, s => do
      let (ap, s) ← piece.run putch ap s
      runPieces pieces ap s

/-- What the flags behind a `%` leave of the format. -/
theorem flags_split {text : List UInt8} {left : List UInt8}
    (behind : text.dropWhile isFlag = left) :
    text = text.takeWhile isFlag ++ left ∧ ∀ ch ∈ text.takeWhile isFlag, isFlag ch := by
  constructor
  · rw [← behind, List.takeWhile_append_dropWhile]
  · intro ch member
    have flag := List.mem_takeWhile_imp (p := fun ch => decide (isFlag ch)) member
    exact of_decide_eq_true flag

theorem not_isFlag_head {text after : List UInt8} {conv : UInt8}
    (behind : text.dropWhile isFlag = conv :: after) : ¬ isFlag conv := by
  have first := List.head?_dropWhile_not (fun ch => decide (isFlag ch)) text
  rw [behind] at first
  exact of_decide_eq_false first

/-- The pieces are the whole format. -/
theorem pieces_text (text : List UInt8) : (pieces text).flatMap Piece.text = text := by
  fun_induction pieces text with
  | case1 => rfl
  | case2 ch text plain ih => exact congrArg (ch :: ·) ih
  | case3 ch text percent behind =>
      have split := (flags_split behind).1
      rw [List.append_nil] at split
      rw [List.flatMap_singleton, Piece.text, ← split, not_ne_iff.mp percent]
  | case4 ch text percent conv after behind ih =>
      rw [List.flatMap_cons, ih, Piece.text, not_ne_iff.mp percent, List.cons_append,
        List.append_assoc, List.singleton_append, ← (flags_split behind).1]

theorem notMem_flags {flags : List UInt8} (all : ∀ ch ∈ flags, isFlag ch) :
    0 ∉ flags ∧ ascii '%' ∉ flags :=
  ⟨fun member => absurd (all _ member) (by decide), fun member => absurd (all _ member) (by decide)⟩

/-- Flags up to the end of the string are printed as they are. -/
theorem vprintfmtFrom_cut {flags : List UInt8} (all : ∀ ch ∈ flags, isFlag ch) (fuel : Nat)
    (seen : List UInt8) (ap : Stack) (s : σ) :
    vprintfmtFrom putch (fuel + 1 + flags.length + 1) ⟨seen, ascii '%' :: (flags ++ [0])⟩ ap s =
      (Piece.cut flags).run putch ap s >>= fun left => .ok left.2 := by
  obtain ⟨noNul, noPercent⟩ := notMem_flags all
  rw [vprintfmtFrom_escape putch all (by decide), Piece.run]
  cases applyFlags {} ap flags with
  | error fault => rfl
  | ok read =>
      dsimp only [bind, Except.bind]
      rw [convert_unknown putch (by decide)]
      dsimp only
      rw [vprintfmtFrom_plain putch flags noNul noPercent]
      rfl

/-- An escape sequence in front of a string for which the run is known. -/
theorem vprintfmtFrom_sequence {flags : List UInt8} (all : ∀ ch ∈ flags, isFlag ch) {conv : UInt8}
    (ends : ¬ isFlag conv) (ended : conv ≠ 0) {least : Nat} {after : List UInt8}
    {rest : Stack → σ → Except Fault σ}
    (known : ∀ fuel seen ap s, vprintfmtFrom putch (least + fuel) ⟨seen, after⟩ ap s = rest ap s)
    (fuel : Nat) (nested : 9 ≤ least) (seen : List UInt8) (ap : Stack) (s : σ) :
    vprintfmtFrom putch (least + fuel + (flags ++ [conv]).length + 1)
        ⟨seen, ascii '%' :: (flags ++ conv :: after)⟩ ap s =
      (Piece.escape flags conv).run putch ap s >>= fun left => rest left.1 left.2 := by
  obtain ⟨least, rfl⟩ := Nat.exists_eq_add_of_le' nested
  have calls : least + 9 + fuel + (flags ++ [conv]).length =
      least + fuel + (flags ++ [conv]).length + 9 := by omega
  obtain ⟨noNul, noPercent⟩ := notMem_flags all
  rw [vprintfmtFrom_escape putch all ends, Piece.run]
  cases applyFlags {} ap flags with
  | error fault => rfl
  | ok read =>
      dsimp only [bind, Except.bind]
      rw [calls, convert_fuel]
      cases converted : convert putch (vprintfmt putch) conv read.1 read.2 s with
      | error fault => rfl
      | ok printed =>
          cases printed with
          | some left =>
              dsimp only
              rw [← calls, Nat.add_assoc, known]
              rfl
          | none =>
              have noConv : conv ≠ ascii '%' := by
                rintro rfl
                rw [convert_percent] at converted
                cases converted
              have plain : ascii '%' ∉ flags ++ [conv] := by
                simpa using ⟨noPercent, Ne.symm noConv⟩
              have noEnd : 0 ∉ flags ++ [conv] := by
                simpa using ⟨noNul, Ne.symm ended⟩
              have left : flags ++ conv :: after = flags ++ [conv] ++ after := by
                rw [List.append_assoc, List.singleton_append]
              dsimp only
              rw [← calls, left, vprintfmtFrom_plain putch (flags ++ [conv]) noEnd plain, known]
              rfl

/-- Pieces are worked through one after the other, with fuel for each byte. -/
theorem vprintfmtFrom_pieces {text : List UInt8} (ended : 0 ∉ text) (fuel : Nat) (seen : List UInt8)
    (ap : Stack) (s : σ) :
    vprintfmtFrom putch (text.length + 10 + fuel) ⟨seen, text ++ [0]⟩ ap s =
      runPieces putch (pieces text) ap s := by
  fun_induction pieces text generalizing fuel seen ap s with
  | case1 =>
      rw [List.length_nil, Nat.zero_add, Nat.add_comm]
      rfl
  | case2 ch text plain ih =>
      simp only [List.mem_cons, not_or] at ended
      have turn := vprintfmtFrom_plain putch [ch] (by simpa using ended.1)
        (by simpa using Ne.symm plain) (text.length + 10 + fuel) seen (text ++ [0]) ap s
      have length : (ch :: text).length + 10 + fuel = text.length + 10 + fuel + [ch].length := by
        rw [List.length_cons, List.length_singleton]
        omega
      rw [length]
      exact turn.trans (ih ended.2 ..)
  | case3 ch text percent behind =>
      obtain ⟨split, all⟩ := flags_split behind
      rw [List.append_nil] at split
      rw [← split] at all ⊢
      have length : (ch :: text).length + 10 + fuel = fuel + 9 + 1 + text.length + 1 := by
        rw [List.length_cons]
        omega
      rw [length, not_ne_iff.mp percent, List.cons_append, vprintfmtFrom_cut putch all]
      rfl
  | case4 ch text percent conv after behind ih =>
      obtain ⟨split, all⟩ := flags_split behind
      have ends : ¬ isFlag conv := not_isFlag_head behind
      generalize text.takeWhile isFlag = flags at *
      subst split
      simp only [List.mem_cons, List.mem_append, not_or] at ended
      have length : (ch :: (flags ++ conv :: after)).length + 10 + fuel =
          after.length + 10 + fuel + (flags ++ [conv]).length + 1 := by
        simp only [List.length_cons, List.length_append, List.length_nil]
        omega
      have run := vprintfmtFrom_sequence putch all ends (Ne.symm ended.2.2.1) (ih ended.2.2.2) fuel
        (by omega) seen ap s
      rw [length, not_ne_iff.mp percent, List.cons_append, List.append_assoc]
      exact run

theorem vprintfmt_pieces {text : List UInt8} (ended : 0 ∉ text) (ap : Stack) (s : σ) :
    vprintfmt putch text ap s = runPieces putch (pieces text) ap s :=
  vprintfmtFrom_pieces putch ended 0 [] ap s

/-- The words that a conversion takes. -/
def convWords (lflag : Nat) (conv : UInt8) : Nat :=
  if conv ∈ bytes "cesp" then 1
  else if conv ∈ bytes "duox" then if lflag ≥ 2 then 2 else 1
  else 0

theorem convWords_unknown {conv : UInt8} (unknown : conv ∉ conversions) (lflag : Nat) :
    convWords lflag conv = 0 := by
  have words : ∀ ch ∈ bytes "cesp", ch ∈ conversions := by decide +kernel
  have numbers : ∀ ch ∈ bytes "duox", ch ∈ conversions := by decide +kernel
  rw [convWords, if_neg fun member => unknown (words conv member),
    if_neg fun member => unknown (numbers conv member)]

/-- The words that a piece takes. -/
def Piece.words : Piece → Nat
  | .char _ => 0
  | .escape flags conv => flags.count (ascii '*') + convWords (flags.count (ascii 'l')) conv
  | .cut flags => flags.count (ascii '*')

/-- The words that a format takes. -/
def wordsTaken (text : List UInt8) : Nat := ((pieces text).map Piece.words).sum

theorem putNumber_ok (spec : Spec) (num : BitVec 64) (base : BitVec 32) (two : 2 ≤ base.toNat)
    (s : σ) :
    putNumber putch spec num base s = .ok (putAll putch
      (Pumelo.printnum num.toNat base.toNat spec.width (signedChar spec.padc)) s) := by
  have digits : num.toNat < base.toNat ^ 64 :=
    Nat.lt_of_lt_of_le num.isLt (Nat.pow_le_pow_left two 64)
  exact printnumFrom_eq putch two _ digits (by decide) _ s

theorem putDecimal_ok (spec : Spec) (num : BitVec 64) (s : σ) :
    putDecimal putch spec num s = .ok (putAll putch (Pumelo.putDecimal spec num) s) := by
  unfold putDecimal Pumelo.putDecimal
  split <;> exact putNumber_ok putch spec _ _ (by decide) _

theorem putError_ok (err : BitVec 32) (s : σ) :
    ∃ s', putError (vprintfmt putch) err s = .ok s' := by
  unfold putError
  dsimp only
  split
  · exact ⟨_, (printfmt_error putch 9 _ s).trans (putDecimal_ok putch {} _ _)⟩
  · exact ⟨_, printfmt_text putch 3 _ s⟩

theorem getWidened_front (widen : BitVec 32 → BitVec 64) {lflag : Nat} {front : Stack}
    (length : front.length = if lflag ≥ 2 then 2 else 1) :
    ∃ num, ∀ ap, getWidened widen (front ++ ap) lflag = .ok (num, ap) := by
  unfold getWidened
  split at length
  · next long =>
      obtain ⟨low, high, rfl⟩ := List.length_eq_two.mp length
      exact ⟨_, fun ap => if_pos long⟩
  · next short =>
      obtain ⟨word, rfl⟩ := List.length_eq_one_iff.mp length
      exact ⟨_, fun ap => if_neg short⟩

/-- Conversions take their words and print. -/
theorem convert_ok {conv : UInt8} (known : conv ∈ conversions) {spec : Spec} {front : Stack}
    (length : front.length = convWords spec.lflag conv) (s : σ) :
    ∃ s', ∀ ap, convert putch (vprintfmt putch) conv spec (front ++ ap) s =
      .ok (some (ap, s')) := by
  have list : conversions = [ascii 'c', ascii 'e', ascii 's', ascii 'd', ascii 'u', ascii 'o',
    ascii 'p',
    ascii 'x', ascii '%'] := rfl
  simp only [list, List.mem_cons, List.not_mem_nil, or_false] at known
  rcases known with rfl | rfl | rfl | rfl | rfl | rfl | rfl | rfl | rfl
  · obtain ⟨slot, rfl⟩ := List.length_eq_one_iff.mp length
    exact ⟨_, fun ap => rfl⟩
  · obtain ⟨slot, rfl⟩ := List.length_eq_one_iff.mp length
    obtain ⟨s', run⟩ := putError_ok putch slot.word s
    exact ⟨s', fun ap => bind_ok run⟩
  · obtain ⟨slot, rfl⟩ := List.length_eq_one_iff.mp length
    exact ⟨_, fun ap => rfl⟩
  · obtain ⟨num, taken⟩ := getWidened_front (·.signExtend 64) length
    have run := putDecimal_ok putch spec num s
    exact ⟨_, fun ap => (bind_ok (taken ap)).trans (bind_ok run)⟩
  · obtain ⟨num, taken⟩ := getWidened_front (·.setWidth 64) length
    have run := putNumber_ok putch spec num 10 (by decide) s
    exact ⟨_, fun ap => (bind_ok (taken ap)).trans (bind_ok run)⟩
  · obtain ⟨num, taken⟩ := getWidened_front (·.setWidth 64) length
    have run := putNumber_ok putch spec num 8 (by decide) s
    exact ⟨_, fun ap => (bind_ok (taken ap)).trans (bind_ok run)⟩
  · obtain ⟨slot, rfl⟩ := List.length_eq_one_iff.mp length
    have run := putNumber_ok putch spec (slot.word.setWidth 64) 16 (by decide)
      (putch (signedChar (ascii 'x')) (putch (signedChar (ascii '0')) s))
    exact ⟨_, fun ap => bind_ok run⟩
  · obtain ⟨num, taken⟩ := getWidened_front (·.setWidth 64) length
    have run := putNumber_ok putch spec num 16 (by decide) s
    exact ⟨_, fun ap => (bind_ok (taken ap)).trans (bind_ok run)⟩
  · obtain rfl := List.eq_nil_of_length_eq_zero length
    exact ⟨_, fun ap => rfl⟩

/-- The first words of a stack that holds enough of them. -/
theorem split_words {count : Nat} {ap : Stack} (supplied : count ≤ ap.length) :
    ∃ front left, ap = front ++ left ∧ front.length = count :=
  ⟨_, _, (List.take_append_drop count ap).symm, List.length_take_of_le supplied⟩

/-- A piece takes its words and prints. -/
def Piece.Wellformed : Piece → Prop
  | .char _ => True
  | .escape flags _ | .cut flags => ∀ ch ∈ flags, isFlag ch

theorem pieces_wellformed (text : List UInt8) : ∀ piece ∈ pieces text, piece.Wellformed := by
  fun_induction pieces text with
  | case1 => simp
  | case2 ch text plain ih => exact List.forall_mem_cons.mpr ⟨trivial, ih⟩
  | case3 ch text percent behind => simpa [Piece.Wellformed] using (flags_split behind).2
  | case4 ch text percent conv after behind ih =>
      exact List.forall_mem_cons.mpr ⟨(flags_split behind).2, ih⟩

/-- A sequence that is not recognised is printed as it stands. -/
theorem Piece.run_unknown {flags : List UInt8} (all : ∀ ch ∈ flags, isFlag ch) {conv : UInt8}
    (unknown : conv ∉ conversions) {front : Stack} (length : front.length = flags.count (ascii '*'))
    (ap : Stack) (s : σ) :
    (Piece.escape flags conv).run putch (front ++ ap) s =
      .ok (ap, putAll putch ((Piece.escape flags conv).text.map unsignedChar) s) := by
  obtain ⟨spec, -, read⟩ := applyFlags_front {} front flags all length
  rw [Piece.run]
  refine (bind_ok (read ap)).trans ?_
  exact bind_ok (convert_unknown putch unknown ..)

theorem Piece.run_cut {flags : List UInt8} (all : ∀ ch ∈ flags, isFlag ch) {front : Stack}
    (length : front.length = flags.count (ascii '*')) (ap : Stack) (s : σ) :
    (Piece.cut flags).run putch (front ++ ap) s =
      .ok (ap, putAll putch ((Piece.cut flags).text.map unsignedChar) s) := by
  obtain ⟨spec, -, read⟩ := applyFlags_front {} front flags all length
  rw [Piece.run]
  exact bind_ok (read ap)

theorem Piece.run_ok {piece : Piece} (wellformed : piece.Wellformed) {front : Stack}
    (length : front.length = piece.words) (s : σ) :
    ∃ s', ∀ ap, piece.run putch (front ++ ap) s = .ok (ap, s') := by
  match piece with
  | .char ch =>
      obtain rfl := List.eq_nil_of_length_eq_zero length
      exact ⟨_, fun ap => rfl⟩
  | .cut flags => exact ⟨_, fun ap => Piece.run_cut putch wellformed length ap s⟩
  | .escape flags conv =>
      by_cases known : conv ∈ conversions
      · rw [Piece.words] at length
        obtain ⟨front, taken, rfl, stars⟩ := split_words (Nat.le_of_add_right_le length.ge)
        obtain ⟨spec, long, read⟩ := applyFlags_front {} _ flags wellformed stars
        have words : taken.length = convWords spec.lflag conv := by
          rw [List.length_append, stars] at length
          rw [long, Nat.zero_add]
          exact Nat.add_left_cancel length
        obtain ⟨s', run⟩ := convert_ok putch known words s
        refine ⟨s', fun ap => ?_⟩
        rw [Piece.run, List.append_assoc]
        exact (bind_ok (read _)).trans (bind_ok (run ap))
      · rw [Piece.words, convWords_unknown known] at length
        exact ⟨_, fun ap => Piece.run_unknown putch wellformed known length ap s⟩

theorem runPieces_ok {all : List Piece} (wellformed : ∀ piece ∈ all, piece.Wellformed) {ap : Stack}
    (supplied : (all.map Piece.words).sum ≤ ap.length) (s : σ) :
    ∃ s', runPieces putch all ap s = .ok s' := by
  induction all generalizing ap s with
  | nil => exact ⟨s, rfl⟩
  | cons piece all ih =>
      rw [List.map_cons, List.sum_cons] at supplied
      obtain ⟨front, ap, rfl, own⟩ := split_words (Nat.le_of_add_right_le supplied)
      rw [List.length_append, own] at supplied
      have left : (all.map Piece.words).sum ≤ ap.length := Nat.le_of_add_le_add_left supplied
      obtain ⟨s', first⟩ := Piece.run_ok putch (List.forall_mem_cons.mp wellformed).1 own s
      obtain ⟨s'', rest⟩ := ih (List.forall_mem_cons.mp wellformed).2 left s'
      exact ⟨s'', (bind_ok (first ap)).trans rest⟩

/-- `vprintfmt` comes to the end of the string without leaving it, by the pieces of the string one
after the other, and prints what it does not recognise as it stands. -/
structure FormatsSafely (text : List UInt8) (ap : Stack) (s : σ) : Prop where
  ends : ∃ s', vprintfmt putch text ap s = .ok s'
  whole : (pieces text).flatMap Piece.text = text
  inOrder : vprintfmt putch text ap s = runPieces putch (pieces text) ap s
  literal : ∀ flags conv, .escape flags conv ∈ pieces text → conv ∉ conversions →
    ∀ front left s, front.length = flags.count (ascii '*') →
      (Piece.escape flags conv).run putch (front ++ left) s =
        .ok (left, putAll putch ((Piece.escape flags conv).text.map unsignedChar) s)
  cutOff : ∀ flags, .cut flags ∈ pieces text →
    ∀ front left s, front.length = flags.count (ascii '*') →
    (Piece.cut flags).run putch (front ++ left) s =
      .ok (left, putAll putch ((Piece.cut flags).text.map unsignedChar) s)

theorem vprintfmt_safe {text : List UInt8} (ended : 0 ∉ text) {ap : Stack}
    (supplied : wordsTaken text ≤ ap.length) (s : σ) : FormatsSafely putch text ap s where
  ends := by
    rw [vprintfmt_pieces putch ended]
    exact runPieces_ok putch (pieces_wellformed text) supplied s
  whole := pieces_text text
  inOrder := vprintfmt_pieces putch ended ap s
  literal := by
    intro flags conv member unknown front left s length
    exact Piece.run_unknown putch (pieces_wellformed text _ member) unknown length left s
  cutOff := by
    intro flags member front left s length
    exact Piece.run_cut putch (pieces_wellformed text _ member) length left s

/-- `%*q` and a `%` at the end. -/
theorem vprintfmt_safe_literal :
    FormatsSafely (fun ch out => out ++ [ch]) (bytes "%*q %") [⟨5, []⟩] [] :=
  vprintfmt_safe _ (by decide) (by decide +kernel) []

end Putch

end Pumelo
