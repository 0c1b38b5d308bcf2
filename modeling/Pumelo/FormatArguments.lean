import Pumelo.FormatPieces

/-!
# Formats and their arguments

What a format prints depends on its arguments by each of its pieces.
-/

namespace Pumelo

open Foundation

namespace Putch

theorem Piece.run_map {σ τ : Type} {putch : BitVec 32 → σ → σ} {putch' : BitVec 32 → τ → τ}
    {h : σ → τ}
    (commutes : ∀ ch s, h (putch ch s) = putch' ch (h s)) (piece : Piece) (ap : Stack) (s : σ) :
    piece.run putch' ap (h s) = (piece.run putch ap s).map (Prod.map id h) := by
  match piece with
  | .char ch => exact congrArg (fun s => Except.ok (ap, s)) (commutes _ s).symm
  | .cut flags =>
      rw [Piece.run, Piece.run, map_bind]
      refine bind_congr fun read => ?_
      obtain ⟨spec, ap⟩ := read
      exact congrArg (fun s => Except.ok (ap, s)) (putAll_map commutes _ s)
  | .escape flags conv =>
      rw [Piece.run, Piece.run, map_bind]
      refine bind_congr fun read => ?_
      obtain ⟨spec, ap⟩ := read
      dsimp only
      rw [convert_map commutes (vprintfmt_map commutes), bind_map, map_bind]
      refine bind_congr fun converted => ?_
      cases converted with
      | some left => rfl
      | none => exact congrArg (fun s => Except.ok (ap, s)) (putAll_map commutes _ s)

theorem Piece.run_collect (piece : Piece) (ap : Stack) (out : List (BitVec 32)) :
    piece.run collect ap out = (piece.run collect ap []).map (Prod.map id (out ++ ·)) := by
  have commutes (ch : BitVec 32) (text : List (BitVec 32)) :
      out ++ collect ch text = collect ch (out ++ text) := (List.append_assoc ..).symm
  have run := Piece.run_map commutes piece ap []
  rwa [List.append_nil] at run

/-- What a piece prints for its own words. -/
def Piece.shown (piece : Piece) (front : Stack) : List (BitVec 32) :=
  match piece.run collect front [] with
  | .ok (_, out) => out
  | .error _ => []

theorem Piece.run_shown {piece : Piece} (wellformed : piece.Wellformed) {front : Stack}
    (length : front.length = piece.words) (ap : Stack) (out : List (BitVec 32)) :
    piece.run collect (front ++ ap) out = .ok (ap, out ++ piece.shown front) := by
  obtain ⟨text, run⟩ := Piece.run_ok collect wellformed length []
  have own : piece.shown front = text := by
    have alone := run []
    rw [List.append_nil] at alone
    rw [Piece.shown, alone]
  rw [Piece.run_collect, run, own]
  rfl

/-- What pieces print for the words of a stack. -/
def shownAll : List Piece → Stack → List (BitVec 32)
  | [], _ => []
  | piece :: pieces, ap => piece.shown (ap.take piece.words) ++
      shownAll pieces (ap.drop piece.words)

theorem shownAll_cons {piece : Piece} {front : Stack} (length : front.length = piece.words)
    (all : List Piece) (ap : Stack) :
    shownAll (piece :: all) (front ++ ap) = piece.shown front ++ shownAll all ap := by
  rw [shownAll, ← length, List.take_left, List.drop_left]

theorem runPieces_shown {all : List Piece} (wellformed : ∀ piece ∈ all, piece.Wellformed)
    {ap : Stack}
    (supplied : (all.map Piece.words).sum ≤ ap.length) (out : List (BitVec 32)) :
    runPieces collect all ap out = .ok (out ++ shownAll all ap) := by
  induction all generalizing ap out with
  | nil => exact congrArg Except.ok (List.append_nil out).symm
  | cons piece all ih =>
      rw [List.map_cons, List.sum_cons] at supplied
      obtain ⟨front, ap, rfl, own⟩ := split_words (Nat.le_of_add_right_le supplied)
      rw [List.length_append, own] at supplied
      have left : (all.map Piece.words).sum ≤ ap.length := Nat.le_of_add_le_add_left supplied
      refine (bind_ok (Piece.run_shown (List.forall_mem_cons.mp wellformed).1 own ap out)).trans ?_
      dsimp only
      rw [ih (List.forall_mem_cons.mp wellformed).2 left, shownAll_cons own, List.append_assoc]

/-- What is printed does not depend on the words. -/
def Piece.Constant (piece : Piece) : Prop :=
  ∀ front other : Stack, front.length = piece.words → other.length = piece.words →
    piece.shown front = piece.shown other

/-- A stack with any words. -/
def anyWords (count : Nat) : Stack := List.replicate count ⟨0, []⟩

@[simp] theorem anyWords_length (count : Nat) : (anyWords count).length = count :=
  List.length_replicate

/-- Pieces print the same for all words if each of them does. -/
theorem shownAll_constant (all : List Piece) :
    (∀ ap other : Stack, (all.map Piece.words).sum ≤ ap.length →
      (all.map Piece.words).sum ≤ other.length →
      shownAll all ap = shownAll all other) ↔ ∀ piece ∈ all, piece.Constant := by
  induction all with
  | nil => exact iff_of_true (fun _ _ _ _ => rfl) (by simp)
  | cons piece all ih =>
      rw [List.forall_mem_cons, ← ih, List.map_cons, List.sum_cons]
      constructor
      · intro constant
        constructor
        · intro front other length length'
          have same := constant (front ++ anyWords (all.map Piece.words).sum)
            (other ++ anyWords (all.map Piece.words).sum) (by simp [length]) (by simp [length'])
          rw [shownAll_cons length, shownAll_cons length'] at same
          exact List.append_cancel_right same
        · intro ap other enough enough'
          have length := anyWords_length piece.words
          have same := constant (anyWords piece.words ++ ap) (anyWords piece.words ++ other)
            (by simpa using enough) (by simpa using enough')
          rw [shownAll_cons length, shownAll_cons length] at same
          exact List.append_cancel_left same
      · rintro ⟨first, rest⟩ ap other enough enough'
        obtain ⟨front, ap, rfl, own⟩ := split_words (Nat.le_of_add_right_le enough)
        obtain ⟨front', other, rfl, own'⟩ := split_words (Nat.le_of_add_right_le enough')
        rw [List.length_append, own] at enough
        rw [List.length_append, own'] at enough'
        rw [shownAll_cons own, shownAll_cons own', first front front' own own']
        exact congrArg (piece.shown front' ++ ·)
          (rest ap other (Nat.le_of_add_le_add_left enough) (Nat.le_of_add_le_add_left enough'))

/-- Two lists of words for which a conversion prints different texts. -/
def Differs (conv : UInt8) (spec : Spec) : Prop :=
  ∃ front other out out', front.length = convWords spec.lflag conv ∧
    other.length = convWords spec.lflag conv ∧
    convert collect (vprintfmt collect) conv spec front [] = .ok (some ([], out)) ∧
    convert collect (vprintfmt collect) conv spec other [] = .ok (some ([], out')) ∧ out ≠ out'

/-- 0 and 1 differ in their digit. -/
theorem printnum_ne {base : Nat} (two : 2 ≤ base) (width : Int) (padc : BitVec 32) :
    Pumelo.printnum 0 base width padc ≠ Pumelo.printnum 1 base width padc := by
  rw [printnum_eq two, printnum_eq two, numeral_of_lt (by omega), numeral_of_lt (by omega)]
  intro same
  have digits := List.append_cancel_left same
  exact absurd digits (by decide)

/-- The words of a small number. -/
def smallWords (lflag : Nat) (value : BitVec 32) : Stack :=
  if lflag ≥ 2 then [⟨value, []⟩, ⟨0, []⟩] else [⟨value, []⟩]

theorem smallWords_length (lflag : Nat) (value : BitVec 32) :
    (smallWords lflag value).length = if lflag ≥ 2 then 2 else 1 := by
  unfold smallWords
  split <;> rfl

theorem getWidened_small {widen : BitVec 32 → BitVec 64} (lflag : Nat) {value : BitVec 32}
    (small : value = 0 ∨ value = 1) (widened : widen value = value.setWidth 64) :
    getWidened widen (smallWords lflag value) lflag = .ok (value.setWidth 64, []) := by
  unfold getWidened smallWords
  split
  · rcases small with rfl | rfl <;> rfl
  · exact congrArg (fun num => Except.ok (num, [])) widened

theorem differs_number {conv : UInt8} {spec : Spec} (base : BitVec 32) (two : 2 ≤ base.toNat)
    (words : convWords spec.lflag conv = if spec.lflag ≥ 2 then 2 else 1)
    (prints : ∀ value, value = 0 ∨ value = 1 →
      convert collect (vprintfmt collect) conv spec (smallWords spec.lflag value) [] = (do
        return some ([], ← putNumber collect spec (value.setWidth 64) base []))) :
    Differs conv spec := by
  have shown (value : BitVec 32) (small : value = 0 ∨ value = 1) :
      convert collect (vprintfmt collect) conv spec (smallWords spec.lflag value) [] =
        .ok (some ([], Pumelo.printnum (value.setWidth 64).toNat base.toNat spec.width
          (signedChar spec.padc))) := by
    rw [prints value small, putNumber_ok collect spec _ _ two, putAll_collect]
    rfl
  refine ⟨_, _, _, _, ?_, ?_, shown 0 (.inl rfl), shown 1 (.inr rfl), printnum_ne two _ _⟩
  · rw [smallWords_length, words]
  · rw [smallWords_length, words]

theorem putError_known (err : BitVec 32) (nonneg : err.slt 0 = false)
    (small : (6 : BitVec 32).slt err = false) (p : String) (found : errorStringAt err = some p)
    (s : List (BitVec 32)) :
    putError (vprintfmt collect) err s = .ok (putString collect {} (bytes p) s) := by
  rw [putError, nonneg, if_neg Bool.false_ne_true, small, if_neg Bool.false_ne_true, found]
  exact printfmt_text collect 3 _ s

theorem differs_error (spec : Spec) : Differs (ascii 'e') spec := by
  have first := putError_known 1 (by decide) (by decide) "unspecified error" (by decide) []
  have second := putError_known 2 (by decide) (by decide) "bad process" (by decide) []
  have texts : putString collect {} (bytes "unspecified error") [] ≠
      putString collect {} (bytes "bad process") [] := by decide +kernel
  refine ⟨[⟨1, []⟩], [⟨2, []⟩], _, _, rfl, rfl, ?_, ?_, texts⟩
  · rw [convert_e, first]
    rfl
  · rw [convert_e, second]
    rfl

theorem differs_of_mem {conv : UInt8} (member : conv ∈ bytes "ceduopx") (spec : Spec) :
    Differs conv spec := by
  have list : bytes "ceduopx" = [ascii 'c', ascii 'e', ascii 'd', ascii 'u', ascii 'o', ascii 'p',
    ascii 'x'] := rfl
  simp only [list, List.mem_cons, List.not_mem_nil, or_false] at member
  rcases member with rfl | rfl | rfl | rfl | rfl | rfl | rfl
  · exact ⟨[⟨0, []⟩], [⟨1, []⟩], _, _, rfl, rfl, rfl, rfl, by decide⟩
  · exact differs_error spec
  · refine differs_number 10 (by decide) rfl ?_
    intro value small
    have positive : (value.setWidth 64).slt 0 = false := by
      rcases small with rfl | rfl <;> decide
    have widened : value.signExtend 64 = value.setWidth 64 := by
      rcases small with rfl | rfl <;> decide
    rw [convert_d, getint, bind_ok (getWidened_small spec.lflag small widened)]
    dsimp only
    rw [putDecimal, positive, if_neg Bool.false_ne_true]
  · refine differs_number 10 (by decide) rfl ?_
    intro value small
    rw [convert_u, getuint, bind_ok (getWidened_small spec.lflag small rfl)]
  · refine differs_number 8 (by decide) rfl ?_
    intro value small
    rw [convert_o, getuint, bind_ok (getWidened_small spec.lflag small rfl)]
  · have shown (value : BitVec 32) :
        convert collect (vprintfmt collect) (ascii 'p') spec [⟨value, []⟩] [] =
          .ok (some ([], [signedChar (ascii '0'), signedChar (ascii 'x')] ++
            Pumelo.printnum (value.setWidth 64).toNat 16 spec.width (signedChar spec.padc))) := by
      rw [convert_p, putNumber_ok collect spec _ 16 (by decide), putAll_collect]
      rfl
    refine ⟨[⟨0, []⟩], [⟨1, []⟩], _, _, rfl, rfl, shown 0, shown 1, ?_⟩
    intro same
    exact printnum_ne (by decide) _ _ (List.append_cancel_left same)
  · refine differs_number 16 (by decide) rfl ?_
    intro value small
    rw [convert_x, getuint, bind_ok (getWidened_small spec.lflag small rfl)]

/-- A string of one character is that character between pads, whatever lies behind its end. -/
theorem putString_letter {spec : Spec} (some : spec.precision ≠ 0) :
    ∃ before behind, ∀ (ch : UInt8) (rest : List UInt8), ch ≠ 0 →
      putString collect spec (ch :: 0 :: rest) [] =
        before ++ shownChar spec.altflag ch :: behind := by
  have count (ch : UInt8) (rest : List UInt8) (letter : ch ≠ 0) (len : Nat) :
      strnlen (ch :: 0 :: rest) len = strnlen [1] len := by
    match len with
    | 0 => rfl
    | 1 => exact if_neg letter
    | len + 2 => exact if_neg letter
  have chars (ch : UInt8) (rest : List UInt8) (letter : ch ≠ 0) (width : Int)
    (s : List (BitVec 32)) :
      putChars collect spec.altflag (ch :: 0 :: rest) spec.precision width s =
        (int32 (width - 1), s ++ [shownChar spec.altflag ch]) := by
    rw [putChars, if_neg letter]
    split
    · rfl
    · rw [if_pos (by omega)]
      rfl
  have blanks (padc : BitVec 32) (width : Nat) (s : List (BitVec 32)) :
      pads collect padc width s = s ++ List.replicate width padc := by
    rw [pads_eq, putAll_collect]
  by_cases padded : spec.width > 0 ∧ spec.padc ≠ ascii '-'
  · let lead := int32 (spec.width - strnlen [1] (spec.precision % 2 ^ 32).toNat)
    refine ⟨List.replicate lead.toNat (signedChar spec.padc),
      List.replicate (int32 (min lead 0 - 1)).toNat (signedChar (ascii ' ')),
        fun ch rest letter => ?_⟩
    rw [putString, if_pos padded, if_pos padded, count ch rest letter, chars ch rest letter]
    dsimp only
    rw [blanks, blanks]
    exact List.append_assoc _ [shownChar spec.altflag ch] _
  · refine ⟨[], List.replicate (int32 (spec.width - 1)).toNat (signedChar (ascii ' ')),
      fun ch rest letter => ?_⟩
    rw [putString, if_neg padded, if_neg padded, chars ch rest letter]
    dsimp only
    rw [blanks]
    rfl

theorem differs_string {spec : Spec} (some : spec.precision ≠ 0) : Differs (ascii 's') spec := by
  obtain ⟨before, behind, text⟩ := putString_letter some
  have letters : shownChar spec.altflag (ascii 'x') ≠ shownChar spec.altflag (ascii 'y') := by
    cases spec.altflag <;> decide
  have shown (ch : UInt8) (letter : ch ≠ 0) :
      convert collect (vprintfmt collect) (ascii 's') spec [⟨1, [ch, 0]⟩] [] =
        .ok (Option.some ([], before ++ shownChar spec.altflag ch :: behind)) := by
    rw [convert_s, if_neg (by simp), Option.getD_some, text ch [] letter]
  refine ⟨_, _, _, _, rfl, rfl, shown (ascii 'x') (by decide), shown (ascii 'y') (by decide), ?_⟩
  intro same
  exact letters (List.cons.inj (List.append_cancel_left same)).1

/-- Without precision no character of a string is printed. -/
theorem putString_none {spec : Spec} (none : spec.precision = 0) (p : List UInt8) :
    putString collect spec p [] = putString collect spec [] [] := by
  have count : strnlen p 0 = 0 := by cases p <;> rfl
  have chars (width : Int) (s : List (BitVec 32)) :
      putChars collect spec.altflag p 0 width s = (width, s) := by
    cases p with
    | nil => rfl
    | cons ch p =>
        rw [putChars]
        split <;> rfl
  rw [putString, putString, none, Int.zero_emod, Int.toNat_zero, count]
  simp only [chars]
  rfl

/-! ## Pieces that do not depend on their words -/

/-- An escape sequence on the words of its flags and those of its conversion. -/
theorem Piece.shown_escape {flags : List UInt8} {conv : UInt8} {front : Stack} {spec : Spec}
    (read : ∀ ap, applyFlags {} (front ++ ap) flags = .ok (spec, ap)) {words : Stack}
    {out : List (BitVec 32)}
    (run : convert collect (vprintfmt collect) conv spec words [] = .ok (some ([], out))) :
    (Piece.escape flags conv).shown (front ++ words) = out := by
  have whole : (Piece.escape flags conv).run collect (front ++ words) [] = .ok ([], out) := by
    rw [Piece.run]
    exact (bind_ok (read words)).trans (bind_ok run)
  rw [Piece.shown, whole]

/-- A conversion that shows its words. -/
theorem Piece.not_constant {flags : List UInt8} {conv : UInt8} {front : Stack} {spec : Spec}
    (stars : front.length = flags.count (ascii '*')) (long : spec.lflag = flags.count (ascii 'l'))
    (read : ∀ ap, applyFlags {} (front ++ ap) flags = .ok (spec, ap))
    (differs : Differs conv spec) :
    ¬ (Piece.escape flags conv).Constant := by
  obtain ⟨words, words', out, out', length, length', run, run', different⟩ := differs
  intro constant
  have count {words : Stack} (length : words.length = convWords spec.lflag conv) :
      (front ++ words).length = (Piece.escape flags conv).words := by
    rw [List.length_append, stars, length, long, Piece.words]
  have same := constant _ _ (count length) (count length')
  rw [Piece.shown_escape read run, Piece.shown_escape read run'] at same
  exact different same

/-- The pieces that do not depend on their words: all that takes none, and a string of which no
character is printed, if its pads are the same whatever the ints of its flags. -/
def Piece.Indifferent : Piece → Prop
  | .char _ | .cut _ => True
  | .escape flags conv =>
      conv ∉ conversions ∨ conv = ascii '%' ∨
        conv = ascii 's' ∧ ∃ blanks, ∀ front spec, front.length = flags.count (ascii '*') →
          applyFlags {} front flags = .ok (spec, []) →
          spec.precision = 0 ∧ putString collect spec [] [] = blanks

theorem Piece.shown_unknown {flags : List UInt8} (all : ∀ ch ∈ flags, isFlag ch) {conv : UInt8}
    (unknown : conv ∉ conversions) {front : Stack}
    (length : front.length = flags.count (ascii '*')) :
    (Piece.escape flags conv).shown front = (Piece.escape flags conv).text.map unsignedChar := by
  have run := Piece.run_unknown collect all unknown length [] []
  rw [List.append_nil, putAll_collect] at run
  rw [Piece.shown, run]
  rfl

theorem Piece.shown_cut {flags : List UInt8} (all : ∀ ch ∈ flags, isFlag ch) {front : Stack}
    (length : front.length = flags.count (ascii '*')) :
    (Piece.cut flags).shown front = (Piece.cut flags).text.map unsignedChar := by
  have run := Piece.run_cut collect all length [] []
  rw [List.append_nil, putAll_collect] at run
  rw [Piece.shown, run]
  rfl

theorem Piece.shown_percent {flags : List UInt8} (all : ∀ ch ∈ flags, isFlag ch) {front : Stack}
    (length : front.length = flags.count (ascii '*')) :
    (Piece.escape flags (ascii '%')).shown front = [unsignedChar (ascii '%')] := by
  obtain ⟨spec, -, read⟩ := applyFlags_front {} front flags all length
  have shown := Piece.shown_escape read (convert_percent collect (vprintfmt collect) spec [] [])
  rwa [List.append_nil] at shown

/-- A string of which no character is printed. -/
theorem Piece.shown_string {flags : List UInt8} {front : Stack} {spec : Spec}
    (read : ∀ ap, applyFlags {} (front ++ ap) flags = .ok (spec, ap)) (none : spec.precision = 0)
    (slot : Slot) :
    (Piece.escape flags (ascii 's')).shown (front ++ [slot]) = putString collect spec [] [] := by
  apply Piece.shown_escape read
  rw [convert_s, putString_none none]

theorem Piece.constant_string {flags : List UInt8} (all : ∀ ch ∈ flags, isFlag ch) :
    (Piece.escape flags (ascii 's')).Constant ↔
      ∃ blanks, ∀ front spec, front.length = flags.count (ascii '*') →
        applyFlags {} front flags = .ok (spec, []) →
        spec.precision = 0 ∧ putString collect spec [] [] = blanks := by
  have words : (Piece.escape flags (ascii 's')).words = flags.count (ascii '*') + 1 := rfl
  have reads {front : Stack} (stars : front.length = flags.count (ascii '*')) :
      ∃ spec, spec.lflag = flags.count (ascii 'l') ∧
        applyFlags {} front flags = .ok (spec, []) ∧
        ∀ ap, applyFlags {} (front ++ ap) flags = .ok (spec, ap) := by
    obtain ⟨spec, long, read⟩ := applyFlags_front {} front flags all stars
    have own := read []
    rw [List.append_nil] at own
    exact ⟨spec, by rw [long, Nat.zero_add], own, read⟩
  constructor
  · intro constant
    refine ⟨(Piece.escape flags (ascii 's')).shown (anyWords (flags.count (ascii '*') + 1)), ?_⟩
    intro front spec stars own
    obtain ⟨spec', long, own', read⟩ := reads stars
    obtain rfl : spec' = spec := congrArg Prod.fst (Except.ok.inj (own'.symm.trans own))
    have none : spec'.precision = 0 :=
      not_not.mp fun some => Piece.not_constant stars long read (differs_string some) constant
    refine ⟨none, ?_⟩
    rw [← Piece.shown_string read none ⟨0, []⟩]
    apply constant
    · rw [words, List.length_append, stars]
      rfl
    · rw [words, anyWords_length]
  · rintro ⟨blanks, fixed⟩
    have shown (front : Stack) (length : front.length = (Piece.escape flags (ascii 's')).words) :
        (Piece.escape flags (ascii 's')).shown front = blanks := by
      rw [words] at length
      obtain ⟨front, slot, rfl⟩ := List.eq_nil_or_concat front |>.resolve_left
        (List.ne_nil_of_length_eq_add_one length)
      rw [List.length_concat] at length
      obtain ⟨spec, -, own, read⟩ := reads (Nat.succ.inj length)
      obtain ⟨none, same⟩ := fixed front spec (Nat.succ.inj length) own
      rw [List.concat_eq_append, Piece.shown_string read none, same]
    intro front other length length'
    rw [shown front length, shown other length']

/-- Exactly these pieces print the same for all words. -/
theorem Piece.constant_iff {piece : Piece} (wellformed : piece.Wellformed) :
    piece.Constant ↔ piece.Indifferent := by
  match piece with
  | .char ch =>
      refine iff_of_true ?_ trivial
      intro front other length length'
      rfl
  | .cut flags =>
      refine iff_of_true ?_ trivial
      intro front other length length'
      rw [Piece.shown_cut wellformed length, Piece.shown_cut wellformed length']
  | .escape flags conv =>
      by_cases known : conv ∈ conversions
      · by_cases percent : conv = ascii '%'
        · refine iff_of_true ?_ (.inr (.inl percent))
          subst percent
          intro front other length length'
          rw [Piece.shown_percent wellformed length, Piece.shown_percent wellformed length']
        · by_cases string : conv = ascii 's'
          · subst string
            rw [Piece.constant_string wellformed]
            exact ⟨fun fixed => .inr (.inr ⟨rfl, fixed⟩), fun indifferent =>
              (indifferent.resolve_left (not_not_intro known)).resolve_left percent |>.2⟩
          · have others : ∀ ch ∈ conversions, ch = ascii '%' ∨ ch = ascii 's' ∨
                ch ∈ bytes "ceduopx" := by
              decide +kernel
            have number := ((others conv known).resolve_left percent).resolve_left string
            obtain ⟨spec, long, read⟩ :=
              applyFlags_front {} (anyWords (flags.count (ascii '*'))) flags
              wellformed (anyWords_length _)
            refine iff_of_false
              (Piece.not_constant (anyWords_length _) (by rw [long, Nat.zero_add]) read
              (differs_of_mem number spec)) ?_
            rintro (unknown | same | ⟨same, -⟩)
            · exact unknown known
            · exact percent same
            · exact string same
      · refine iff_of_true ?_ (.inl known)
        intro front other length length'
        rw [Piece.words, convWords_unknown known] at length length'
        rw [Piece.shown_unknown wellformed known length,
          Piece.shown_unknown wellformed known length']

/-- The words of a stack. -/
def erase (ap : Stack) : Stack := ap.map fun slot => ⟨slot.word, []⟩

@[simp] theorem erase_length (ap : Stack) : (erase ap).length = ap.length := List.length_map ..

theorem erase_append (front ap : Stack) : erase (front ++ ap) = erase front ++ erase ap :=
  List.map_append

theorem vaInt_erase (ap : Stack) : vaInt (erase ap) = (vaInt ap).map (Prod.map id erase) := by
  cases ap <;> rfl

theorem vaLongLong_erase (ap : Stack) :
    vaLongLong (erase ap) = (vaLongLong ap).map (Prod.map id erase) := by
  rw [vaLongLong, vaLongLong, vaInt_erase, bind_map, map_bind]
  refine bind_congr fun read => ?_
  obtain ⟨low, ap⟩ := read
  dsimp only [Prod.map]
  rw [vaInt_erase, bind_map, map_bind]
  rfl

theorem getWidened_erase (widen : BitVec 32 → BitVec 64) (ap : Stack) (lflag : Nat) :
    getWidened widen (erase ap) lflag = (getWidened widen ap lflag).map (Prod.map id erase) := by
  unfold getWidened
  refine ite_map _ (fun _ => vaLongLong_erase ap) fun _ => ?_
  rw [vaInt_erase, bind_map, map_bind]
  rfl

theorem applyFlags_erase (spec : Spec) (ap : Stack) (flags : List UInt8) :
    applyFlags spec (erase ap) flags = (applyFlags spec ap flags).map (Prod.map id erase) := by
  fun_induction applyFlags spec ap flags with
  | case1 spec ap =>
      rw [applyFlags]
      rfl
  | case2 spec ap flags ih => rw [applyFlags, if_pos rfl, ih]
  | case3 spec ap flags minus ih => rw [applyFlags, if_neg minus, if_pos rfl, ih]
  | case4 spec ap ch flags minus zero first field ih =>
      rw [applyFlags, if_neg minus, if_neg zero, if_pos first, ih]
  | case5 spec ap flags minus zero first ih =>
      rw [applyFlags, if_neg minus, if_neg zero, if_neg first, if_pos rfl, vaInt_erase, bind_map,
        map_bind]
      exact bind_congr fun read => ih read.1 read.2
  | case6 spec ap flags minus zero first star ih =>
      rw [applyFlags, if_neg minus, if_neg zero, if_neg first, if_neg star, if_pos rfl]
      rw [dite_eq_ite] at ih
      exact ih
  | case7 spec ap flags minus zero first star dot ih =>
      rw [applyFlags, if_neg minus, if_neg zero, if_neg first, if_neg star, if_neg dot,
        if_pos rfl, ih]
  | case8 spec ap ch flags minus zero first star dot alt ih =>
      rw [applyFlags, if_neg minus, if_neg zero, if_neg first, if_neg star, if_neg dot,
        if_neg alt, ih]

/-- A conversion that only reads words. -/
theorem take_erase {σ α : Type} {read read' : Except Fault (α × Stack)}
    (same : read' = read.map (Prod.map id erase)) (put : α → Except Fault σ) :
    (do
      let (a, ap) ← read'
      return some (ap, ← put a)) =
    (do
      let (a, ap) ← read
      return some (ap, ← put a) : Except Fault _).map (Option.map (Prod.map erase id)) := by
  rw [same, bind_map, map_bind]
  refine bind_congr fun read => ?_
  obtain ⟨a, ap⟩ := read
  dsimp only [Prod.map]
  rw [map_bind]
  rfl

theorem convert_erase {σ : Type} (putch : BitVec 32 → σ → σ)
    (printfmt : List UInt8 → Stack → σ → Except Fault σ) {conv : UInt8} (number : conv ≠ ascii 's')
    (spec : Spec) (ap : Stack) (s : σ) :
    convert putch printfmt conv spec (erase ap) s =
      (convert putch printfmt conv spec ap s).map (Option.map (Prod.map erase id)) := by
  unfold convert
  refine ite_map _ (fun _ => take_erase (vaInt_erase ap) fun value => .ok (putch value s)) fun _ =>
    ?_
  refine ite_map _ (fun _ => take_erase (vaInt_erase ap) fun err => putError printfmt err s)
    fun _ => ?_
  rw [if_neg number, if_neg number]
  refine ite_map _ (fun _ => take_erase (getWidened_erase _ ap _) fun num => putDecimal putch
    spec num s)
    fun _ => ?_
  refine ite_map _ (fun _ => take_erase (getWidened_erase _ ap _) fun num => putNumber putch spec
    num 10 s)
    fun _ => ?_
  refine ite_map _ (fun _ => take_erase (getWidened_erase _ ap _) fun num => putNumber putch
    spec num 8 s)
    fun _ => ?_
  refine ite_map _ (fun _ => take_erase (vaInt_erase ap) fun value =>
    putNumber putch spec (value.setWidth 64) 16
      (putch (signedChar (ascii 'x')) (putch (signedChar (ascii '0')) s))) fun _ => ?_
  refine ite_map _ (fun _ => take_erase (getWidened_erase _ ap _) fun num => putNumber putch spec
    num 16 s)
    fun _ => ?_
  exact ite_map _ (fun _ => rfl) fun _ => rfl

/-- What is printed depends on the words only, not on what they point to. -/
def Piece.Blind (piece : Piece) : Prop :=
  ∀ front : Stack, front.length = piece.words → piece.shown (erase front) = piece.shown front

/-- A piece that is no string. -/
theorem Piece.blind_of_ne {flags : List UInt8} {conv : UInt8} (number : conv ≠ ascii 's') :
    (Piece.escape flags conv).Blind := by
  intro front _
  have run : (Piece.escape flags conv).run collect (erase front) [] =
      ((Piece.escape flags conv).run collect front []).map (Prod.map erase id) := by
    rw [Piece.run, Piece.run, applyFlags_erase, bind_map, map_bind]
    refine bind_congr fun read => ?_
    obtain ⟨spec, ap⟩ := read
    dsimp only [Prod.map]
    rw [convert_erase collect _ number, bind_map, map_bind]
    refine bind_congr fun converted => ?_
    cases converted <;> rfl
  rw [Piece.shown, Piece.shown, run]
  cases (Piece.escape flags conv).run collect front [] <;> rfl

theorem Piece.Constant.blind {piece : Piece} (constant : piece.Constant) : piece.Blind := by
  intro front length
  apply constant _ _ _ length
  rw [erase_length, length]

/-- A string of which no character is printed. -/
theorem Piece.blind_of_precision {flags : List UInt8} (all : ∀ ch ∈ flags, isFlag ch)
    (none : ∀ front spec, front.length = flags.count (ascii '*') →
      applyFlags {} front flags = .ok (spec, []) → spec.precision = 0) :
    (Piece.escape flags (ascii 's')).Blind := by
  intro front length
  obtain ⟨front, slot, rfl⟩ := List.eq_nil_or_concat front |>.resolve_left
    (List.ne_nil_of_length_eq_add_one length)
  rw [List.length_concat] at length
  have stars : front.length = flags.count (ascii '*') := Nat.succ.inj length
  obtain ⟨spec, -, read⟩ := applyFlags_front {} front flags all stars
  obtain ⟨spec', -, read'⟩ :=
    applyFlags_front {} (erase front) flags all (by rw [erase_length, stars])
  have own : applyFlags {} front flags = .ok (spec, []) := by
    have own := read []
    rwa [List.append_nil] at own
  obtain rfl : spec' = spec := by
    have own' := read' []
    rw [List.append_nil, applyFlags_erase, own] at own'
    exact (congrArg Prod.fst (Except.ok.inj own')).symm
  have zero := none front spec' stars own
  rw [List.concat_eq_append, erase_append, Piece.shown_string read zero]
  exact Piece.shown_string read' zero _

theorem shownAll_erase {all : List Piece} (blind : ∀ piece ∈ all, piece.Blind) {ap : Stack}
    (supplied : (all.map Piece.words).sum ≤ ap.length) :
    shownAll all (erase ap) = shownAll all ap := by
  induction all generalizing ap with
  | nil => rfl
  | cons piece all ih =>
      rw [List.map_cons, List.sum_cons] at supplied
      obtain ⟨front, ap, rfl, own⟩ := split_words (Nat.le_of_add_right_le supplied)
      rw [List.length_append, own] at supplied
      have left : (all.map Piece.words).sum ≤ ap.length := Nat.le_of_add_le_add_left supplied
      have erased : (erase front).length = piece.words := (erase_length front).trans own
      rw [erase_append, shownAll_cons erased, shownAll_cons own,
        ih (List.forall_mem_cons.mp blind).2 left,
        (List.forall_mem_cons.mp blind).1 front own]

theorem shownAll_append {before : List Piece} {front : Stack}
    (length : front.length = (before.map Piece.words).sum) (all : List Piece) (ap : Stack) :
    shownAll (before ++ all) (front ++ ap) = shownAll before front ++ shownAll all ap := by
  induction before generalizing front with
  | nil =>
      obtain rfl := List.eq_nil_of_length_eq_zero length
      rfl
  | cons piece before ih =>
      rw [List.map_cons, List.sum_cons] at length
      obtain ⟨front, behind, rfl, own⟩ := split_words (Nat.le_of_add_right_le length.ge)
      rw [List.length_append, own] at length
      have left : behind.length = (before.map Piece.words).sum := Nat.add_left_cancel length
      rw [List.append_assoc, List.cons_append, shownAll_cons own, shownAll_cons own, ih left,
        List.append_assoc]

end Putch

end Pumelo
