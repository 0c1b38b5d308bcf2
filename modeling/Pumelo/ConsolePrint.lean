import Pumelo.FormatRefinement

/-!
# Formats on the console

`kvprintf` with the screen that its characters reach.  Formats that are joined print what they print
one after the other, so that a text of which the `%` are doubled is printed as it is within any
format.
-/

namespace Pumelo

open Foundation

namespace Putch

/-- Every escape sequence of the format has its conversion. -/
def Whole (text : List UInt8) : Prop := ∀ flags, .cut flags ∉ pieces text

theorem pieces_escape {flags : List UInt8} (all : ∀ ch ∈ flags, isFlag ch) {conv : UInt8}
    (ends : ¬ isFlag conv) (after : List UInt8) :
    pieces (ascii '%' :: (flags ++ conv :: after)) = .escape flags conv :: pieces after := by
  have taken : (flags ++ conv :: after).takeWhile isFlag = flags := by
    rw [List.takeWhile_append_of_pos (by simpa using all),
      List.takeWhile_cons_of_neg (by simpa using ends),
      List.append_nil]
  have behind : (flags ++ conv :: after).dropWhile isFlag = conv :: after := by
    rw [List.dropWhile_append_of_pos (by simpa using all),
      List.dropWhile_cons_of_neg (by simpa using ends)]
  rw [pieces, if_neg (by simp), taken]
  split
  · next nothing =>
      rw [behind] at nothing
      cases nothing
  · next found =>
      rw [behind] at found
      cases found
      rfl

theorem pieces_append {text : List UInt8} (whole : Whole text) (more : List UInt8) :
    pieces (text ++ more) = pieces text ++ pieces more := by
  unfold Whole at whole
  fun_induction pieces text with
  | case1 => rfl
  | case2 ch text plain ih =>
      rw [List.cons_append, pieces, if_pos plain,
        ih fun flags member => whole flags (.tail _ member)]
      rfl
  | case3 ch text percent behind => exact absurd (List.mem_singleton.mpr rfl) (whole _)
  | case4 ch text percent conv after behind ih =>
      obtain ⟨split, all⟩ := flags_split behind
      have ends : ¬ isFlag conv := not_isFlag_head behind
      generalize text.takeWhile isFlag = flags at *
      subst split
      rw [not_ne_iff.mp percent, List.cons_append, List.append_assoc, List.cons_append,
        pieces_escape all ends, ih fun flags member => whole flags (.tail _ member)]
      rfl

variable {σ : Type} (putch : BitVec 32 → σ → σ)

theorem runPieces_append {first : List Piece} (wellformed : ∀ piece ∈ first, piece.Wellformed)
    {front : Stack} (length : front.length = (first.map Piece.words).sum) (second : List Piece)
    (ap : Stack) (s : σ) :
    runPieces putch (first ++ second) (front ++ ap) s =
      runPieces putch first front s >>= runPieces putch second ap := by
  induction first generalizing front s with
  | nil =>
      obtain rfl := List.eq_nil_of_length_eq_zero length
      rfl
  | cons piece first ih =>
      rw [List.map_cons, List.sum_cons] at length
      obtain ⟨front, behind, rfl, own⟩ := split_words (Nat.le_of_add_right_le length.ge)
      rw [List.length_append, own] at length
      obtain ⟨s', run⟩ := Piece.run_ok putch (List.forall_mem_cons.mp wellformed).1 own s
      rw [List.append_assoc, List.cons_append, runPieces, runPieces, bind_ok (run _),
        bind_ok (run _)]
      exact ih (List.forall_mem_cons.mp wellformed).2 (Nat.add_left_cancel length) s'

/-- A format in front of another one takes its own words. -/
theorem vprintfmt_append {text more : List UInt8} (ended : 0 ∉ text ++ more) (whole : Whole text)
    {front : Stack} (length : front.length = wordsTaken text) (ap : Stack) (s : σ) :
    vprintfmt putch (text ++ more) (front ++ ap) s =
      vprintfmt putch text front s >>= vprintfmt putch more ap := by
  rw [List.mem_append, not_or] at ended
  have later (s : σ) : vprintfmt putch more ap s = runPieces putch (pieces more) ap s :=
    vprintfmt_pieces putch ended.2 ap s
  rw [vprintfmt_pieces putch (by simpa using ended), pieces_append whole,
    runPieces_append putch (pieces_wellformed text) length, vprintfmt_pieces putch ended.1]
  exact bind_congr fun s => (later s).symm

/-- `%d` has its conversion. -/
theorem whole_decimal : Whole (bytes "%d ") := by
  have list : pieces (bytes "%d ") =
    [.escape [] (ascii 'd'), .char (ascii ' ')] := by decide +kernel
  intro flags member
  rw [list] at member
  simp at member

theorem vprintfmt_append_numbers :
    vprintfmt collect (bytes "%d " ++ bytes "%x") ([⟨5, []⟩] ++ [⟨6, []⟩]) [] =
      vprintfmt collect (bytes "%d ") [⟨5, []⟩] [] >>= vprintfmt collect (bytes "%x") [⟨6, []⟩] :=
  vprintfmt_append collect (by decide +kernel) whole_decimal (by decide +kernel) _ _

/-- A text with its `%` doubled. -/
def quote (text : List UInt8) : List UInt8 :=
  text.flatMap fun ch => if ch = ascii '%' then [ascii '%', ascii '%'] else [ch]

/-- The piece that prints a character. -/
def quotedPiece (ch : UInt8) : Piece := if ch = ascii '%' then .escape [] (ascii '%') else .char ch

theorem pieces_quote (text : List UInt8) : pieces (quote text) = text.map quotedPiece := by
  induction text with
  | nil =>
      rw [quote, List.flatMap_nil, pieces]
      rfl
  | cons ch text ih =>
      rw [quote, List.flatMap_cons, List.map_cons, ← ih, quotedPiece]
      split
      · have ends : ¬ isFlag (ascii '%') := by decide
        exact pieces_escape (List.forall_mem_nil _) ends (quote text)
      · next plain =>
          rw [List.singleton_append, pieces, if_pos plain]
          rfl

theorem quote_whole (text : List UInt8) : Whole (quote text) := by
  intro flags member
  rw [pieces_quote, List.mem_map] at member
  obtain ⟨ch, -, same⟩ := member
  unfold quotedPiece at same
  split at same <;> cases same

theorem wordsTaken_quote (text : List UInt8) : wordsTaken (quote text) = 0 := by
  rw [wordsTaken, pieces_quote, List.map_map]
  refine List.sum_eq_zero fun count member => ?_
  obtain ⟨ch, -, rfl⟩ := List.mem_map.mp member
  rw [Function.comp, quotedPiece]
  split <;> rfl

theorem notMem_quote {text : List UInt8} (ended : 0 ∉ text) : 0 ∉ quote text := by
  rw [quote, List.mem_flatMap]
  rintro ⟨ch, member, zero⟩
  split at zero
  · simp at zero
  · exact ended (List.mem_singleton.mp zero ▸ member)

theorem runPieces_quote (text : List UInt8) (ap : Stack) (s : σ) :
    runPieces putch (text.map quotedPiece) ap s = .ok (putAll putch (text.map unsignedChar) s) := by
  induction text generalizing s with
  | nil => rfl
  | cons ch text ih =>
      have one : (quotedPiece ch).run putch ap s = .ok (ap, putch (unsignedChar ch) s) := by
        unfold quotedPiece
        split
        · next percent =>
            subst percent
            have flags : applyFlags {} ap [] = .ok ({}, ap) := by rw [applyFlags]
            exact bind_ok flags
        · rfl
      rw [List.map_cons, runPieces, bind_ok one]
      exact ih _

/-- A quoted text between two formats is printed as it is, and takes none of their arguments. -/
theorem vprintfmt_quote {before text after : List UInt8} (ended : 0 ∉ before ++ text ++ after)
    (whole : Whole before) {front : Stack} (length : front.length = wordsTaken before) (ap : Stack)
    (s : σ) :
    vprintfmt putch (before ++ quote text ++ after) (front ++ ap) s = (do
      let s ← vprintfmt putch before front s
      vprintfmt putch after ap (putAll putch (text.map unsignedChar) s)) := by
  simp only [List.mem_append, not_or] at ended
  obtain ⟨⟨endedBefore, endedText⟩, endedAfter⟩ := ended
  have quoted := notMem_quote endedText
  have later (s : σ) : runPieces putch (pieces (quote text) ++ pieces after) ap s =
      vprintfmt putch after ap (putAll putch (text.map unsignedChar) s) := by
    have empty : ([] : Stack).length = wordsTaken (quote text) := (wordsTaken_quote text).symm
    have printed :=
      runPieces_append putch (pieces_wellformed (quote text)) empty (pieces after) ap s
    rw [List.nil_append, pieces_quote, runPieces_quote] at printed
    rw [pieces_quote, printed, vprintfmt_pieces putch endedAfter]
    rfl
  rw [List.append_assoc, vprintfmt_pieces putch (by simp [endedBefore, quoted, endedAfter]),
    pieces_append whole, pieces_append (quote_whole text),
    runPieces_append putch (pieces_wellformed before) length, ← vprintfmt_pieces putch endedBefore]
  exact bind_congr later

/-- A quoted text with a `%` that would else take an argument. -/
theorem vprintfmt_quote_percent :
    vprintfmt collect (bytes "%d " ++ quote (bytes "50%d") ++ bytes "\n") ([⟨5, []⟩] ++ []) [] = (do
      let s ← vprintfmt collect (bytes "%d ") [⟨5, []⟩] []
      vprintfmt collect (bytes "\n") [] (putAll collect ((bytes "50%d").map unsignedChar) s)) :=
  vprintfmt_quote collect (by decide +kernel) whole_decimal (by decide +kernel) _ _

/-- `cputch`: a character on the screen, which is counted. -/
def putShown (c : BitVec 32) (s : Except Fault (Console × Int)) : Except Fault (Console × Int) := do
  let (console, cnt) ← s
  let console ← consPutc console c
  return (console, int32 (cnt + 1))

/-- `kvprintf` -/
def kvprintfShown (console : Console) (fmt : List UInt8) (ap : Stack) :
    Except Fault (Console × Int) := do
  let s ← vprintfmt putShown fmt ap (.ok (console, 0))
  s

theorem putAll_putShown (text : List (BitVec 32)) {console : Console}
    (lt : console.crtPos < crtSize)
    (cnt : Int) :
    ∃ shown, consPuts console text = .ok shown ∧
      putAll putShown text (.ok (console, int32 cnt)) = .ok (shown, int32 (cnt + text.length)) := by
  induction text generalizing console cnt with
  | nil => exact ⟨console, rfl, by simp⟩
  | cons c text ih =>
      obtain ⟨next, put, lt', -⟩ := vgaPutc_ok lt c
      obtain ⟨shown, puts, all⟩ := ih lt' (cnt + 1)
      have one : putShown c (.ok (console, int32 cnt)) = .ok (next, int32 (cnt + 1)) := by
        refine (bind_ok put).trans ?_
        rw [int32, int32, Int.bmod_add_bmod]
        rfl
      refine ⟨shown, ?_, ?_⟩
      · rw [consPuts, List.foldlM_cons, consPutc, bind_ok put]
        exact puts
      · rw [putAll_cons, one, all, List.length_cons, Int.natCast_succ, Int.add_right_comm,
          Int.add_assoc]

/-- What `kvprintf` leaves on the screen is what a terminal shows of the full output, and it returns
the length of that. -/
theorem kvprintf_shows {console : Console} (lt : console.crtPos < crtSize) {fmt : List UInt8}
    (ended : 0 ∉ fmt) {ap : Stack} (supplied : wordsTaken fmt ≤ ap.length) :
    ∃ out shown, vprintfmt collect fmt ap [] = .ok out ∧
      kvprintfShown console fmt ap = .ok (shown, int32 out.length) ∧ shown.crtPos < crtSize ∧
      (out ≠ [] → Blinks shown) ∧
      ((∀ c ∈ out, c &&& 0xff ≠ 0x08) → Shows shown (out.foldl display console.terminal)) := by
  obtain ⟨out, printed⟩ := runPieces_ok collect (pieces_wellformed fmt) supplied []
  rw [← vprintfmt_pieces collect ended] at printed
  obtain ⟨shown, puts, all⟩ := putAll_putShown out lt 0
  obtain ⟨shown', puts', lt', blinks⟩ := consPuts_ok lt
  cases puts.symm.trans puts'
  obtain ⟨first, inside, below⟩ := Console.terminal_shows lt
  refine ⟨out, shown, printed, ?_, lt', fun some => blinks (.inl some), fun chars =>
    first.consPuts lt inside below chars puts⟩
  rw [Int.zero_add] at all
  rw [kvprintfShown, vprintfmt_collect, printed]
  exact all

/-- A number and the end of its line on a cleared screen. -/
theorem kvprintf_shows_number :
    ∃ out shown, vprintfmt collect (bytes "%d\n") [⟨5, []⟩] [] = .ok out ∧
    kvprintfShown Console.cleared (bytes "%d\n") [⟨5, []⟩] = .ok (shown, int32 out.length) ∧
    shown.crtPos < crtSize ∧ (out ≠ [] → Blinks shown) ∧
    ((∀ c ∈ out, c &&& 0xff ≠ 0x08) →
      Shows shown (out.foldl display Console.cleared.terminal)) :=
  kvprintf_shows (Nat.succ_pos 1999) (by decide +kernel) (by decide +kernel)

end Putch

end Pumelo
