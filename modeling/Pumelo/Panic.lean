import Pumelo.FormatArguments

/-!
# Panics and warnings

`__panic` and `__warn` with `kprintf` and `kvprintf`.  A function with variable arguments that is
given a `va_list` for them finds its address as the first of its own.
-/

namespace Pumelo

open Foundation

namespace Putch

/-- What lies from an address on in a memory that has these bytes from `base` on. -/
def textAt (base : Nat) (mem : List UInt8) (address : BitVec 32) : List UInt8 :=
  if base ≤ address.toNat then mem.drop (address.toNat - base) else []

/-- The words of a stack, where the memory has these bytes from each address on. -/
def stackOf (texts : BitVec 32 → List UInt8) (words : List (BitVec 32)) : Stack :=
  words.map fun word => ⟨word, texts word⟩

/-- The bytes of words on the stack, the lowest one first. -/
def wordBytes (words : List (BitVec 32)) : List UInt8 :=
  words.flatMap fun word => (List.range 4).map fun i => .ofBitVec (word.extractLsb' (8 * i) 8)

/-- Pieces print the same for all arguments and for the address of these arguments. -/
def SameByAddress (all : List Piece) : Prop :=
  ∀ base mem args ap beyond behind, ap ≠ 0 → textAt base mem ap = wordBytes args ++ behind →
    (all.map Piece.words).sum ≤ args.length → (all.map Piece.words).sum ≤ beyond.length →
      shownAll all (stackOf (textAt base mem) args) =
        shownAll all (stackOf (textAt base mem) (ap :: beyond))

section ByAddress

variable {texts : BitVec 32 → List UInt8}

@[simp] theorem stackOf_length (words : List (BitVec 32)) :
    (stackOf texts words).length = words.length :=
  List.length_map ..

theorem stackOf_append (words words' : List (BitVec 32)) :
    stackOf texts (words ++ words') = stackOf texts words ++ stackOf texts words' := List.map_append

theorem stackOf_null (null : texts 0 = []) (count : Nat) :
    stackOf texts (List.replicate count 0) = anyWords count := by
  rw [stackOf, List.map_replicate, null, anyWords]

theorem erase_stackOf (ap : Stack) : erase (stackOf texts (ap.map Slot.word)) = erase ap := by
  rw [erase, erase, stackOf, List.map_map, List.map_map]
  rfl

/-- A string that is printed shows when its address is passed on in place of it. -/
theorem SameByAddress.precision {before after : List Piece} {flags : List UInt8}
    (same : SameByAddress (before ++ .escape flags (ascii 's') :: after))
    (all : ∀ ch ∈ flags, isFlag ch) {front : Stack} {spec : Spec}
    (stars : front.length = flags.count (ascii '*'))
    (own : applyFlags {} front flags = .ok (spec, [])) :
    spec.precision = 0 := by
  by_contra some
  obtain ⟨lead, trail, text⟩ := putString_letter some
  let zeros (pieces : List Piece) : List (BitVec 32) :=
    List.replicate (pieces.map Piece.words).sum 0
  let args := zeros before ++ (front.map Slot.word ++ 1 :: zeros after)
  let texts (ch : UInt8) := textAt 1 (ch :: 0 :: wordBytes args)
  have null (ch : UInt8) (count : Nat) : stackOf (texts ch) (List.replicate count 0) =
      anyWords count :=
    stackOf_null rfl count
  -- the memory differs in the character that the word 1 points to
  have shown (ch : UInt8) (letter : ch ≠ 0) :
      shownAll (before ++ .escape flags (ascii 's') :: after) (stackOf (texts ch) args) =
        shownAll before (anyWords (before.map Piece.words).sum) ++
          (lead ++ shownChar spec.altflag ch :: trail ++
            shownAll after (anyWords (after.map Piece.words).sum)) := by
    have split : stackOf (texts ch) args = anyWords (before.map Piece.words).sum ++
        (stackOf (texts ch) (front.map Slot.word) ++ [⟨1, ch :: 0 :: wordBytes args⟩] ++
          anyWords (after.map Piece.words).sum) := by
      rw [stackOf_append, stackOf_append, List.append_assoc, ← null ch (before.map Piece.words).sum,
        ← null ch (after.map Piece.words).sum]
      rfl
    obtain ⟨spec', -, read⟩ :=
      applyFlags_front {} (stackOf (texts ch) (front.map Slot.word)) flags all
      (by rw [stackOf_length, List.length_map, stars])
    obtain rfl : spec' = spec := by
      have own' := read []
      rw [List.append_nil] at own'
      have words := applyFlags_erase {} (stackOf (texts ch) (front.map Slot.word)) flags
      rw [erase_stackOf, applyFlags_erase, own, own'] at words
      exact (congrArg Prod.fst (Except.ok.inj words)).symm
    have run : convert collect (vprintfmt collect) (ascii 's') spec'
      [⟨1, ch :: 0 :: wordBytes args⟩] [] =
        .ok (Option.some ([], lead ++ shownChar spec'.altflag ch :: trail)) := by
      have object : (1 : BitVec 32) ≠ 0 := by decide
      rw [convert_s, if_neg object, Option.getD_some, text ch _ letter]
    rw [split, shownAll_append (anyWords_length _), shownAll_cons, Piece.shown_escape read run]
    rw [List.length_append, stackOf_length, List.length_map, stars]
    rfl
  have address (ch : UInt8) :
      shownAll (before ++ .escape flags (ascii 's') :: after) (stackOf (texts ch) args) =
        shownAll (before ++ .escape flags (ascii 's') :: after)
          (⟨3, wordBytes args⟩ :: anyWords
            (zeros (before ++ .escape flags (ascii 's') :: after)).length) := by
    have enough : ((before ++ .escape flags (ascii 's') :: after).map Piece.words).sum ≤
        args.length := by
      have words : (Piece.escape flags (ascii 's')).words = flags.count (ascii '*') + 1 := rfl
      simp only [args, zeros, List.map_append, List.map_cons, List.sum_append, List.sum_cons, words,
        List.length_append, List.length_cons, List.length_replicate, List.length_map, stars]
      omega
    have passed := same 1 (ch :: 0 :: wordBytes args) args 3
      (zeros (before ++ .escape flags (ascii 's') :: after)) [] (by decide) (List.append_nil _).symm
      enough (Nat.le_of_eq (List.length_replicate ..).symm)
    rw [passed, List.length_replicate, ← null ch]
    rfl
  have equal := (address (ascii 'x')).trans (address (ascii 'y')).symm
  rw [shown (ascii 'x') (by decide), shown (ascii 'y') (by decide)] at equal
  have printed := List.append_cancel_right (List.append_cancel_left equal)
  have letters : shownChar spec.altflag (ascii 'x') ≠ shownChar spec.altflag (ascii 'y') := by
    cases spec.altflag <;> decide
  exact letters (List.cons.inj (List.append_cancel_left printed)).1

theorem SameByAddress.blind {all : List Piece} (same : SameByAddress all)
    (wellformed : ∀ piece ∈ all, piece.Wellformed) : ∀ piece ∈ all, piece.Blind := by
  intro piece member
  match piece with
  | .char ch => exact fun front _ => rfl
  | .cut flags => exact ((Piece.constant_iff (wellformed _ member)).mpr trivial).blind
  | .escape flags conv =>
      by_cases string : conv = ascii 's'
      · subst string
        obtain ⟨before, after, rfl⟩ := List.append_of_mem member
        exact Piece.blind_of_precision (wellformed _ member) fun front spec stars own =>
          same.precision (wellformed _ member) stars own
      · exact Piece.blind_of_ne string

/-- Exactly the pieces that do not depend on their words print the same. -/
theorem sameByAddress_iff {all : List Piece} (wellformed : ∀ piece ∈ all, piece.Wellformed) :
    SameByAddress all ↔ ∀ piece ∈ all, piece.Indifferent := by
  have constant : (∀ piece ∈ all, piece.Indifferent) ↔ ∀ piece ∈ all, piece.Constant :=
    forall₂_congr fun piece member => (Piece.constant_iff (wellformed piece member)).symm
  rw [constant, ← shownAll_constant]
  constructor
  · intro same
    have blind := same.blind wellformed
    let beyond := List.replicate (all.map Piece.words).sum (0 : BitVec 32)
    have fixed (ap : Stack) (enough : (all.map Piece.words).sum ≤ ap.length) :
        shownAll all ap = shownAll all (⟨1, []⟩ :: anyWords (all.map Piece.words).sum) := by
      let texts := textAt 1 (wordBytes (ap.map Slot.word))
      have long : (all.map Piece.words).sum ≤ (ap.map Slot.word).length := by rwa [List.length_map]
      have behind : (all.map Piece.words).sum ≤ beyond.length :=
        Nat.le_of_eq (List.length_replicate ..).symm
      have words : erase (stackOf texts (1 :: beyond)) =
          ⟨1, []⟩ :: anyWords (all.map Piece.words).sum := by
        have null : stackOf texts beyond = anyWords (all.map Piece.words).sum := stackOf_null rfl _
        rw [stackOf, List.map_cons, erase, List.map_cons]
        congr 1
        refine (congrArg erase null).trans ?_
        exact List.map_replicate
      calc shownAll all ap = shownAll all (erase ap) := (shownAll_erase blind enough).symm
        _ = shownAll all (erase (stackOf texts (ap.map Slot.word))) := by rw [erase_stackOf]
        _ = shownAll all (stackOf texts (ap.map Slot.word)) :=
          shownAll_erase blind (by rwa [stackOf_length])
        _ = shownAll all (stackOf texts (1 :: beyond)) :=
          same 1 _ _ 1 beyond [] (by decide) (List.append_nil _).symm long behind
        _ = shownAll all (erase (stackOf texts (1 :: beyond))) :=
          (shownAll_erase blind (by rw [stackOf_length]; exact Nat.le_succ_of_le behind)).symm
        _ = shownAll all (⟨1, []⟩ :: anyWords (all.map Piece.words).sum) := by rw [words]
    intro ap other enough enough'
    rw [fixed ap enough, fixed other enough']
  · intro same base mem args ap beyond behind _ _ enough enough'
    apply same
    · rwa [stackOf_length]
    · rw [stackOf_length]
      exact Nat.le_succ_of_le enough'

end ByAddress

/-- What `cputch` counts, and the characters that went to `cons_putc`. -/
structure Printed where
  cnt : Int
  out : List (BitVec 32)

/-- `cputch` -/
def cputch (c : BitVec 32) (s : Printed) : Printed := ⟨int32 (s.cnt + 1), s.out ++ [c]⟩

/-- `kvprintf` -/
def kvprintf (fmt : List UInt8) (ap : Stack) (out : List (BitVec 32)) :
    Except Fault (Int × List (BitVec 32)) := do
  let s ← vprintfmt cputch fmt ap ⟨0, out⟩
  return (s.cnt, s.out)

/-- `kprintf`, with the stack behind `fmt`. -/
def kprintf (fmt : List UInt8) (behind : Stack) (out : List (BitVec 32)) :
    Except Fault (Int × List (BitVec 32)) := kvprintf fmt behind out

variable (texts : BitVec 32 → List UInt8) (file line func : BitVec 32) (fmt : List UInt8)

/-- `__warn` -/
def warn (args : List (BitVec 32)) (out : List (BitVec 32)) : Except Fault (List (BitVec 32)) := do
  let (_, out) ← kprintf (bytes "kernel warning at %s:%d:%s\n")
    (stackOf texts [file, line, func]) out
  let (_, out) ← kvprintf fmt (stackOf texts args) out
  let (_, out) ← kprintf (bytes "\n") [] out
  return out

/-- `__panic` up to its loop, with the address `ap` of its arguments and the words that `kprintf`
finds behind it. -/
def panic (isPanic : Bool) (ap : BitVec 32) (beyond : List (BitVec 32)) (out : List (BitVec 32)) :
    Except Fault (Bool × List (BitVec 32)) :=
  if isPanic then .ok (isPanic, out)
  else do
    let (_, out) ← kprintf (bytes "kernel panic at %s:%d:%s\n")
      (stackOf texts [file, line, func]) out
    let (_, out) ← kprintf fmt (stackOf texts (ap :: beyond)) out
    let (_, out) ← kprintf (bytes "\n") [] out
    return (true, out)

/-- The characters of a text. -/
def chars (text : String) : List (BitVec 32) := (bytes text).map unsignedChar

/-- For all arguments the first panic prints what a warning does, but for the one word. -/
def SameTexts (fmt : List UInt8) : Prop :=
  ∀ base mem file line func args ap beyond behind out, ap ≠ 0 →
    textAt base mem ap = wordBytes args ++ behind →
      wordsTaken fmt ≤ args.length → wordsTaken fmt ≤ beyond.length →
        ∃ text, warn (textAt base mem) file line func fmt args out =
            .ok (out ++ (chars "kernel warning at " ++ text)) ∧
          panic (textAt base mem) file line func fmt false ap beyond out =
            .ok (true, out ++ (chars "kernel panic at " ++ text))

/-! ## Texts by pieces -/

theorem kvprintf_shown {fmt : List UInt8} (ended : 0 ∉ fmt) (ap : Stack)
    (supplied : wordsTaken fmt ≤ ap.length) (out : List (BitVec 32)) :
    ∃ cnt, kvprintf fmt ap out = .ok (cnt, out ++ shownAll (pieces fmt) ap) := by
  have printed :=
    vprintfmt_map (fun ch s => show Printed.out (cputch ch s) = collect ch s.out from rfl)
    fmt ap ⟨0, out⟩
  rw [vprintfmt_pieces collect ended, runPieces_shown (pieces_wellformed fmt) supplied] at printed
  obtain ⟨s, run, text⟩ := map_eq_ok.mp printed.symm
  exact ⟨s.cnt, by rw [kvprintf, bind_ok run, text]; rfl⟩

theorem pieces_plain (text after : List UInt8) (plain : ascii '%' ∉ text) :
    pieces (text ++ after) = text.map Piece.char ++ pieces after := by
  induction text with
  | nil => rfl
  | cons ch text ih =>
      simp only [List.mem_cons, not_or] at plain
      rw [List.cons_append, pieces, if_pos (Ne.symm plain.1), ih plain.2]
      rfl

theorem shownAll_plain (text : List UInt8) (all : List Piece) (ap : Stack) :
    shownAll (text.map Piece.char ++ all) ap = text.map unsignedChar ++ shownAll all ap := by
  induction text with
  | nil => rfl
  | cons ch text ih =>
      rw [List.map_cons, List.cons_append, shownAll]
      exact congrArg (unsignedChar ch :: ·) ih

/-- The place in the source, behind a title. -/
theorem kprintf_place (title : String) (plain : ascii '%' ∉ bytes title) (ended : 0 ∉ bytes title)
    (out : List (BitVec 32)) :
    ∃ cnt, kprintf (bytes title ++ bytes "%s:%d:%s\n") (stackOf texts [file, line, func]) out =
      .ok (cnt, out ++ (chars title ++
        shownAll (pieces (bytes "%s:%d:%s\n")) (stackOf texts [file, line, func]))) := by
  have words : wordsTaken (bytes title ++ bytes "%s:%d:%s\n") = 3 := by
    have none : ((bytes title).map Piece.char).map Piece.words = (bytes title).map fun _ => 0 :=
      List.map_map ..
    rw [wordsTaken, pieces_plain _ _ plain, List.map_append, List.sum_append, none, List.map_const',
      List.sum_replicate_nat, Nat.mul_zero, Nat.zero_add]
    decide +kernel
  have whole : 0 ∉ bytes title ++ bytes "%s:%d:%s\n" := by
    rw [List.mem_append, not_or]
    exact ⟨ended, by decide⟩
  obtain ⟨cnt, run⟩ :=
    kvprintf_shown whole (stackOf texts [file, line, func]) (Nat.le_of_eq words) out
  rw [pieces_plain _ _ plain, shownAll_plain] at run
  exact ⟨cnt, run⟩

/-- The place, with the text of the format behind it and the end of the line. -/
def placed (out : List (BitVec 32)) : List (BitVec 32) :=
  shownAll (pieces (bytes "%s:%d:%s\n")) (stackOf texts [file, line, func]) ++ (out ++ chars "\n")

theorem kprintf_newline (out : List (BitVec 32)) :
    ∃ cnt, kprintf (bytes "\n") [] out = .ok (cnt, out ++ chars "\n") := by
  have shown : shownAll (pieces (bytes "\n")) [] = chars "\n" := by decide +kernel
  have ended : 0 ∉ bytes "\n" := by decide
  have none : wordsTaken (bytes "\n") = 0 := by decide +kernel
  obtain ⟨cnt, run⟩ := kvprintf_shown ended [] (Nat.le_of_eq none) out
  rw [shown] at run
  exact ⟨cnt, run⟩

section Texts

variable {fmt : List UInt8} (ended : 0 ∉ fmt)
include ended

theorem warn_shown (args : List (BitVec 32)) (supplied : wordsTaken fmt ≤ args.length)
    (out : List (BitVec 32)) :
    warn texts file line func fmt args out =
      .ok (out ++ (chars "kernel warning at " ++
        placed texts file line func (shownAll (pieces fmt) (stackOf texts args)))) := by
  obtain ⟨_, place⟩ :=
    kprintf_place texts file line func "kernel warning at " (by decide) (by decide) out
  obtain ⟨_, text⟩ := kvprintf_shown ended (stackOf texts args) (by rwa [stackOf_length]) _
  obtain ⟨_, newline⟩ := kprintf_newline _
  rw [warn]
  refine (bind_ok place).trans ((bind_ok text).trans ((bind_ok newline).trans ?_))
  rw [placed]
  simp only [List.append_assoc]
  rfl

theorem panic_shown (ap : BitVec 32) (beyond : List (BitVec 32))
    (supplied : wordsTaken fmt ≤ beyond.length) (out : List (BitVec 32)) :
    panic texts file line func fmt false ap beyond out =
      .ok (true, out ++ (chars "kernel panic at " ++
        placed texts file line func (shownAll (pieces fmt) (stackOf texts (ap :: beyond))))) := by
  have enough : wordsTaken fmt ≤ (stackOf texts (ap :: beyond)).length := by
    rw [stackOf_length]
    exact Nat.le_succ_of_le supplied
  obtain ⟨_, place⟩ :=
    kprintf_place texts file line func "kernel panic at " (by decide) (by decide) out
  obtain ⟨_, text⟩ := kvprintf_shown ended _ enough _
  obtain ⟨_, newline⟩ := kprintf_newline _
  rw [panic, if_neg Bool.false_ne_true]
  refine (bind_ok place).trans ((bind_ok text).trans ((bind_ok newline).trans ?_))
  rw [placed]
  simp only [List.append_assoc]
  rfl

theorem sameTexts_iff_byAddress : SameTexts fmt ↔ SameByAddress (pieces fmt) := by
  constructor
  · intro same base mem args ap beyond behind object passed enough enough'
    obtain ⟨text, warning, panicking⟩ :=
      same base mem 0 0 0 args ap beyond behind [] object passed enough enough'
    rw [warn_shown (textAt base mem) 0 0 0 ended args enough] at warning
    rw [panic_shown (textAt base mem) 0 0 0 ended ap beyond enough'] at panicking
    have first := List.append_cancel_left (List.append_cancel_left (Except.ok.inj warning))
    have second := List.append_cancel_left (List.append_cancel_left
      (congrArg Prod.snd (Except.ok.inj panicking)))
    exact List.append_cancel_right (List.append_cancel_left (first.trans second.symm))
  · intro same base mem file line func args ap beyond behind out object passed enough enough'
    refine ⟨_, warn_shown (textAt base mem) file line func ended args enough out, ?_⟩
    rw [panic_shown (textAt base mem) file line func ended ap beyond enough',
      same base mem args ap beyond behind object passed enough enough']

/-- The texts are the same for exactly the formats that show none of their arguments. -/
theorem sameTexts_iff : SameTexts fmt ↔ ∀ piece ∈ pieces fmt, piece.Indifferent :=
  (sameTexts_iff_byAddress ended).trans (sameByAddress_iff (pieces_wellformed fmt))

end Texts

/-- `%%` and a sequence that is not recognised. -/
theorem sameTexts_iff_literal :
    SameTexts (bytes "100%% %q") ↔ ∀ piece ∈ pieces (bytes "100%% %q"), piece.Indifferent :=
  sameTexts_iff (by decide)

/-- The texts of a failed `assert(list_empty(elem))` in `f` of `a.c`. -/
def assertTexts : List UInt8 :=
  bytes "a.c" ++ List.replicate 13 0 ++ bytes "f" ++ List.replicate 15 0 ++
    bytes "list_empty(elem)" ++ [0]

/-- These lie at 0xc0010010, and the address of the condition is an argument at 0xc009ef80. -/
def assertMemory : List UInt8 :=
  assertTexts ++ List.replicate (0x8ef70 - assertTexts.length) 0 ++ wordBytes [0xc0010030]

theorem assertMemory_argument :
    textAt 0xc0010010 assertMemory 0xc009ef80 = wordBytes [0xc0010030] := by
  have lower : 0xc0010010 ≤ (0xc009ef80 : BitVec 32).toNat := by decide
  have offset : (0xc009ef80 : BitVec 32).toNat - 0xc0010010 = 0x8ef70 := by decide
  have front : assertTexts.length = 49 := by decide
  have before : (assertTexts ++ List.replicate (0x8ef70 - assertTexts.length) 0).length =
      0x8ef70 := by
    rw [List.length_append, List.length_replicate, front]
  rw [textAt, if_pos lower, offset, assertMemory]
  exact List.drop_left' before

/-- A failed assert prints the bytes of the address of its condition. -/
theorem not_sameTexts_assert :
    warn (textAt 0xc0010010 assertMemory) 0xc0010010 7 0xc0010020 (bytes "assertion failed: %s")
          [0xc0010030] [] =
        .ok (chars "kernel warning at a.c:7:f\nassertion failed: list_empty(elem)\n") ∧
      panic (textAt 0xc0010010 assertMemory) 0xc0010010 7 0xc0010020
        (bytes "assertion failed: %s") false
          0xc009ef80 [0] [] =
        .ok (true, chars "kernel panic at a.c:7:f\nassertion failed: 0\n") ∧
      ¬ SameTexts (bytes "assertion failed: %s") := by
  have ended : 0 ∉ bytes "assertion failed: %s" := by decide
  have one : wordsTaken (bytes "assertion failed: %s") = 1 := by decide +kernel
  have supplied : wordsTaken (bytes "assertion failed: %s") ≤ 1 := Nat.le_of_eq one
  have passed : stackOf (textAt 0xc0010010 assertMemory) [0xc009ef80, 0] =
      [⟨0xc009ef80, wordBytes [0xc0010030]⟩, ⟨0, []⟩] := by
    rw [stackOf, List.map_cons, assertMemory_argument]
    rfl
  refine ⟨?_, ?_, ?_⟩
  · refine (warn_shown _ 0xc0010010 7 0xc0010020 ended [0xc0010030] supplied []).trans ?_
    exact congrArg Except.ok (by decide +kernel)
  · refine (panic_shown _ 0xc0010010 7 0xc0010020 ended 0xc009ef80 [0] supplied []).trans ?_
    rw [passed]
    exact congrArg (fun out => Except.ok (true, out)) (by decide +kernel)
  · intro same
    have shown := (sameTexts_iff_byAddress ended).mp same 0xc0010010 assertMemory
      [0xc0010030] 0xc009ef80 [0]
      [] (by decide) (assertMemory_argument.trans (List.append_nil _).symm) supplied supplied
    rw [passed] at shown
    exact absurd shown (by decide +kernel)

end Putch

end Pumelo
