import Pumelo.Foundation.Terminal
import Pumelo.Machine

/-!
# The console

`console.c`.  The text buffer of the screen has 25 rows of 80 cells, each with a character and an
attribute.  What does not fit is rolled up by a move of the buffer onto itself.
-/

namespace Pumelo

open Foundation

/-- `CRT_COLS` -/
def crtCols : Nat := 80

/-- `CRT_SIZE` -/
def crtSize : Nat := 25 * crtCols

/-- `crt_buf`, `crt_pos` and the registers of the chip at `addr_6845`. -/
structure Console where
  crtBuf : Nat → BitVec 16
  crtPos : Nat
  crtc : Nat → BitVec 8

/-- A store to `crt_buf`. -/
def storeCell (s : Console) (index : Nat) (cell : BitVec 16) : Except Fault Console :=
  if index < crtSize then
    .ok { s with crtBuf := fun query => if query = index then cell else s.crtBuf query }
  else .error (.outOfBounds "crt_buf" index)

/-- A load from `crt_buf`. -/
def loadCell (s : Console) (index : Nat) : Except Fault (BitVec 16) :=
  if index < crtSize then .ok (s.crtBuf index) else .error (.outOfBounds "crt_buf" index)

/-- Green on black, where no attribute is given. -/
def colored (c : BitVec 32) : BitVec 32 := if c &&& ~~~0xff#32 = 0 then c ||| 0x0200 else c

/-- The `switch` of `vga_putc`. -/
def putGlyph (s : Console) (c : BitVec 32) : Except Fault Console :=
  let char := c &&& 0xff
  if char = 0x08 then
    if s.crtPos > 0 then
      let s := { s with crtPos := s.crtPos - 1 }
      storeCell s s.crtPos (((c &&& ~~~0xff#32) ||| 0x20).setWidth 16)
    else .ok s
  else if char = 0x0a then
    let pos := (s.crtPos + crtCols) % 2 ^ 16
    .ok { s with crtPos := pos - pos % crtCols }
  else if char = 0x0d then .ok { s with crtPos := s.crtPos - s.crtPos % crtCols }
  else do
    let s ← storeCell s s.crtPos (c.setWidth 16)
    return { s with crtPos := (s.crtPos + 1) % 2 ^ 16 }

/-- `rep movsl`, two cells a turn. -/
def moveCells (s : Console) (dst src : Nat) : (turns : Nat) → Except Fault Console
  | 0 => .ok s
  | turns + 1 => do
      let low ← loadCell s src
      let high ← loadCell s (src + 1)
      let s ← storeCell s dst low
      let s ← storeCell s (dst + 1) high
      moveCells s (dst + 2) (src + 2) turns

/-- The loop that fills the last row. -/
def fillCells (s : Console) (i : Nat) : (count : Nat) → Except Fault Console
  | 0 => .ok s
  | count + 1 => do
      let s ← storeCell s i (0x0700 ||| 0x20)
      fillCells s (i + 1) count

/-- Roll the screen. The destination of `memmove` lies below its source, so that it is a
`__memcpy`. -/
def rollScreen (s : Console) : Except Fault Console :=
  if s.crtPos ≥ crtSize then do
    let s ← moveCells s 0 crtCols ((crtSize - crtCols) * 2 / 4)
    let s ← fillCells s (crtSize - crtCols) crtCols
    return { s with crtPos := s.crtPos - crtCols }
  else .ok s

/-- Move that little blinky thing. -/
def moveCursor (s : Console) : Console :=
  { s with crtc := fun register =>
      if register = 14 then .ofNat 8 (s.crtPos / 2 ^ 8)
      else if register = 15 then .ofNat 8 s.crtPos
      else s.crtc register }

/-- `vga_putc` -/
def vgaPutc (s : Console) (c : BitVec 32) : Except Fault Console := do
  let s ← putGlyph s (colored c)
  let s ← rollScreen s
  return moveCursor s

/-- `cons_putc` -/
def consPutc (s : Console) (c : BitVec 32) : Except Fault Console := vgaPutc s c

/-- What a character does on a terminal, where a backspace does nothing. -/
def display (t : Terminal (BitVec 16)) (c : BitVec 32) : Terminal (BitVec 16) :=
  if c &&& 0xff = 0x08 then t
  else if c &&& 0xff = 0x0a then t.newline
  else if c &&& 0xff = 0x0d then t.carriageReturn
  else t.put crtCols ((colored c).setWidth 16)

/-- The terminal on whose first rows the console stands. -/
def Console.terminal (s : Console) : Terminal (BitVec 16) where
  cells row col := if row < 25 then s.crtBuf (crtCols * row + col) else 0x0720
  row := s.crtPos / crtCols
  col := s.crtPos % crtCols
  reached := 24

/-- The buffer has 25 rows of a terminal, and the position is that of its cursor. -/
structure ShownFrom (s : Console) (t : Terminal (BitVec 16)) (top : Nat) : Prop where
  cells : ∀ row < 25, ∀ col < crtCols, s.crtBuf (crtCols * row + col) = t.cells (top + row) col
  pos : s.crtPos = crtCols * (t.row - top) + t.col

/-- The last 25 rows reached are shown. -/
def Shows (s : Console) (t : Terminal (BitVec 16)) : Prop := ShownFrom s t (t.top 25)

/-- The cursor on the screen stands where the next character goes. -/
def Blinks (s : Console) : Prop :=
  s.crtc 14 = .ofNat 8 (s.crtPos / 2 ^ 8) ∧ s.crtc 15 = .ofNat 8 s.crtPos

theorem storeCell_of_lt {s : Console} {index : Nat} (inside : index < crtSize) (cell : BitVec 16) :
    storeCell s index cell =
      .ok { s with crtBuf := fun query => if query = index then cell else s.crtBuf query } :=
  if_pos inside

theorem loadCell_of_lt {s : Console} {index : Nat} (inside : index < crtSize) :
    loadCell s index = .ok (s.crtBuf index) :=
  if_pos inside

/-- Cells move up before they are overwritten. -/
theorem moveCells_ok {turns : Nat} : ∀ {s : Console} {dst : Nat},
    dst + 2 * turns + crtCols ≤ crtSize →
    ∃ buf, moveCells s dst (dst + crtCols) turns = .ok { s with crtBuf := buf } ∧
      ∀ query, buf query = if dst ≤ query ∧ query < dst + 2 * turns then s.crtBuf (query + crtCols)
        else s.crtBuf query := by
  induction turns with
  | zero =>
      intro s dst _
      refine ⟨s.crtBuf, rfl, fun query => ?_⟩
      rw [if_neg (by omega)]
  | succ turns ih =>
      intro s dst room
      have cols : crtCols = 80 := rfl
      let s1 : Console := { s with crtBuf := fun query =>
        if query = dst + 1 then s.crtBuf (dst + crtCols + 1)
        else if query = dst then s.crtBuf (dst + crtCols) else s.crtBuf query }
      obtain ⟨buf, run, spec⟩ := @ih s1 (dst + 2) (by omega)
      refine ⟨buf, ?_, fun query => ?_⟩
      · rw [moveCells, bind_ok (loadCell_of_lt (by omega)), bind_ok (loadCell_of_lt (by omega)),
          bind_ok (storeCell_of_lt (by omega) _), bind_ok (storeCell_of_lt (by omega) _),
            show dst + crtCols + 2 = dst + 2 + crtCols by omega]
        exact run
      · rw [spec]
        simp only [s1]
        by_cases later : dst + 2 ≤ query ∧ query < dst + 2 + 2 * turns
        · rw [if_pos later, if_neg (show query + crtCols ≠ dst + 1 by omega),
            if_neg (show query + crtCols ≠ dst by omega),
            if_pos (show dst ≤ query ∧ query < dst + 2 * (turns + 1) by omega)]
        · rw [if_neg later]
          by_cases second : query = dst + 1
          · rw [if_pos second, if_pos (by omega), second, Nat.add_right_comm]
          · by_cases first : query = dst
            · rw [if_neg second, if_pos first, if_pos (by omega), first]
            · rw [if_neg second, if_neg first, if_neg (by omega)]

theorem fillCells_ok {count : Nat} : ∀ {s : Console} {i : Nat}, i + count ≤ crtSize →
    ∃ buf, fillCells s i count = .ok { s with crtBuf := buf } ∧
      ∀ query, buf query = if i ≤ query ∧ query < i + count then 0x0720 else s.crtBuf query := by
  induction count with
  | zero =>
      intro s i _
      refine ⟨s.crtBuf, rfl, fun query => ?_⟩
      rw [if_neg (by omega)]
  | succ count ih =>
      intro s i room
      let s1 : Console := { s with crtBuf := fun query =>
        if query = i then 0x0720 else s.crtBuf query }
      obtain ⟨buf, run, spec⟩ := @ih s1 (i + 1) (by omega)
      refine ⟨buf, ?_, fun query => ?_⟩
      · rw [fillCells, bind_ok (storeCell_of_lt (by omega) _)]
        exact run
      · rw [spec]
        simp only [s1]
        by_cases later : i + 1 ≤ query ∧ query < i + 1 + count
        · rw [if_pos later, if_pos (by omega)]
        · rw [if_neg later]
          by_cases first : query = i
          · rw [if_pos first, if_pos (by omega)]
          · rw [if_neg first, if_neg (by omega)]

/-- Rolling drops the first row and adds a blank one. -/
theorem rollScreen_ok {s : Console} (full : crtSize ≤ s.crtPos) :
    ∃ buf, rollScreen s = .ok { s with crtBuf := buf, crtPos := s.crtPos - crtCols } ∧
      ∀ query < crtSize, buf query =
        if query < crtSize - crtCols then s.crtBuf (query + crtCols) else 0x0720 := by
  obtain ⟨moved, move, moveSpec⟩ :=
    @moveCells_ok ((crtSize - crtCols) * 2 / 4) s 0 (by decide)
  obtain ⟨buf, fill, fillSpec⟩ :=
    @fillCells_ok crtCols { s with crtBuf := moved } (crtSize - crtCols) (by decide)
  refine ⟨buf, ?_, fun query lt => ?_⟩
  · rw [Nat.zero_add] at move
    rw [rollScreen, if_pos full, bind_ok move, bind_ok fill]
    rfl
  · have cols : crtCols = 80 := rfl
    have size : crtSize = 2000 := rfl
    rw [fillSpec query]
    simp only [moveSpec]
    by_cases last : query < crtSize - crtCols
    · rw [if_neg (by omega), if_pos (by omega), if_pos last]
    · rw [if_pos (by omega), if_neg last]

/-- `switch (c & 0xff)` looks at what was passed. -/
theorem colored_char (c : BitVec 32) : colored c &&& 0xff = c &&& 0xff := by
  unfold colored
  split
  · rw [BitVec.and_or_distrib_right]
    simp
  · rfl

/-- No character is stored outside the buffer. -/
theorem putGlyph_ok {s : Console} (lt : s.crtPos < crtSize) (c : BitVec 32) :
    ∃ s', putGlyph s c = .ok s' ∧ s'.crtPos ≤ crtSize := by
  have cols : crtCols = 80 := rfl
  have size : crtSize = 2000 := rfl
  unfold putGlyph
  dsimp only
  split
  · split
    · exact ⟨_, storeCell_of_lt (by omega) _, by dsimp only; omega⟩
    · exact ⟨s, rfl, by omega⟩
  · split
    · refine ⟨_, rfl, ?_⟩
      dsimp only
      rw [Nat.mod_eq_of_lt (by omega), cols]
      omega
    · split
      · exact ⟨_, rfl, by dsimp only; omega⟩
      · rw [bind_ok (storeCell_of_lt lt _)]
        refine ⟨_, rfl, ?_⟩
        dsimp only
        rw [Nat.mod_eq_of_lt (by omega)]
        omega

theorem rollScreen_lt {s : Console} (le : s.crtPos ≤ crtSize) :
    ∃ s', rollScreen s = .ok s' ∧ s'.crtPos < crtSize := by
  by_cases full : crtSize ≤ s.crtPos
  · obtain ⟨buf, run, -⟩ := rollScreen_ok full
    have cols : crtCols = 80 := rfl
    have size : crtSize = 2000 := rfl
    exact ⟨_, run, by dsimp only; omega⟩
  · exact ⟨s, if_neg full, by omega⟩

theorem vgaPutc_ok {s : Console} (lt : s.crtPos < crtSize) (c : BitVec 32) :
    ∃ s', vgaPutc s c = .ok s' ∧ s'.crtPos < crtSize ∧ Blinks s' := by
  obtain ⟨written, write, le⟩ := putGlyph_ok lt (colored c)
  obtain ⟨rolled, roll, inside⟩ := rollScreen_lt le
  refine ⟨moveCursor rolled, ?_, inside, rfl, rfl⟩
  rw [vgaPutc, bind_ok write, bind_ok roll]
  rfl

/-! ## The rows of the terminal -/

section Rows

variable {s s' : Console} {t t' : Terminal (BitVec 16)} {top : Nat}

/-- Rolling shows the row that was just reached. -/
theorem ShownFrom.roll (shown : ShownFrom s t top) (inside : t.Inside 25 crtCols)
    (next : t.top 25 = top ∨ t.top 25 = top + 1 ∧ t.row = top + 25 ∧
      ∀ col < crtCols, t.cells (top + 25) col = 0x0720)
    (run : rollScreen s = .ok s') : Shows s' t := by
  have cols : crtCols = 80 := rfl
  have size : crtSize = 2000 := rfl
  have pos := shown.pos
  obtain ⟨full, col, row, below⟩ := inside
  obtain same | ⟨newer, last, blank⟩ := next
  · rw [Terminal.top] at same
    rw [rollScreen, if_neg (by rw [cols] at pos; omega)] at run
    cases run
    rw [Shows, Terminal.top, same]
    exact shown
  · obtain ⟨buf, roll, spec⟩ := rollScreen_ok (show crtSize ≤ s.crtPos by rw [cols] at pos; omega)
    rw [roll] at run
    cases run
    rw [Shows, newer]
    constructor
    · intro row rowLt col colLt
      refine (spec (crtCols * row + col) (by rw [cols] at colLt ⊢; omega)).trans ?_
      split
      next upper =>
        have cell := shown.cells (row + 1) (by rw [cols] at colLt upper; omega) col colLt
        rwa [Nat.mul_succ, Nat.add_right_comm, ← Nat.add_assoc, Nat.add_right_comm top] at cell
      next last =>
        rw [show top + 1 + row = top + 25 by rw [cols] at colLt last; omega]
        exact (blank col colLt).symm
    · dsimp only
      rw [cols] at pos ⊢
      omega

theorem ShownFrom.newline (shown : ShownFrom s t top) (col : t.col < crtCols) (row : top ≤ t.row)
    (lt : s.crtPos < crtSize) :
    ShownFrom { s with crtPos := (s.crtPos + crtCols) % 2 ^ 16 -
      (s.crtPos + crtCols) % 2 ^ 16 % crtCols } t.newline top := by
  have cols : crtCols = 80 := rfl
  have size : crtSize = 2000 := rfl
  have pos := shown.pos
  refine ⟨shown.cells, ?_⟩
  dsimp only [Terminal.newline, Terminal.goto]
  rw [Nat.mod_eq_of_lt (by omega)]
  rw [cols] at pos col ⊢
  omega

theorem ShownFrom.carriageReturn (shown : ShownFrom s t top) (col : t.col < crtCols) :
    ShownFrom { s with crtPos := s.crtPos - s.crtPos % crtCols } t.carriageReturn top := by
  have cols : crtCols = 80 := rfl
  have pos := shown.pos
  refine ⟨shown.cells, ?_⟩
  dsimp only [Terminal.carriageReturn, Terminal.goto]
  rw [cols] at pos col ⊢
  omega

theorem ShownFrom.put (shown : ShownFrom s t top) (col : t.col < crtCols) (row : top ≤ t.row)
    (lt : s.crtPos < crtSize) (cell : BitVec 16) :
    ShownFrom { s with
      crtBuf := fun query => if query = s.crtPos then cell else s.crtBuf query
      crtPos := (s.crtPos + 1) % 2 ^ 16 } (t.put crtCols cell) top := by
  have cols : crtCols = 80 := rfl
  have size : crtSize = 2000 := rfl
  have pos := shown.pos
  have cells : ∀ row' < 25, ∀ col' < crtCols,
      (if crtCols * row' + col' = s.crtPos then cell else s.crtBuf (crtCols * row' + col')) =
        if top + row' = t.row ∧ col' = t.col then cell else t.cells (top + row') col' := by
    intro row' rowLt col' colLt
    have here : crtCols * row' + col' = s.crtPos ↔ top + row' = t.row ∧ col' = t.col := by
      rw [cols] at pos col colLt ⊢
      omega
    simp only [here, shown.cells row' rowLt col' colLt]
  unfold Terminal.put
  dsimp only
  split
  · next last =>
      refine ⟨cells, ?_⟩
      dsimp only [Terminal.newline, Terminal.goto]
      rw [Nat.mod_eq_of_lt (by omega)]
      rw [cols] at pos last ⊢
      omega
  · refine ⟨cells, ?_⟩
    dsimp only [Terminal.goto]
    rw [Nat.mod_eq_of_lt (by omega), pos, Nat.add_assoc]

/-- One character that is no backspace does on the screen what it does on the terminal. -/
theorem vgaPutc_shows {c : BitVec 32} (lt : s.crtPos < crtSize) (shown : Shows s t)
    (inside : t.Inside 25 crtCols) (below : t.BlankBelow crtCols 0x0720)
    (char : c &&& 0xff ≠ 0x08) (run : vgaPutc s c = .ok s') :
    Shows s' (display t c) ∧ (display t c).Inside 25 crtCols ∧
      (display t c).BlankBelow crtCols 0x0720 := by
  have row : t.top 25 ≤ t.row := by
    have shown := inside.shown
    unfold Terminal.top
    omega
  obtain ⟨written, write, run⟩ := bind_eq_ok.mp run
  obtain ⟨rolled, roll, run⟩ := bind_eq_ok.mp run
  cases run
  suffices now : Shows rolled (display t c) ∧ (display t c).Inside 25 crtCols ∧
      (display t c).BlankBelow crtCols 0x0720 from ⟨⟨now.1.cells, now.1.pos⟩, now.2⟩
  unfold putGlyph at write
  dsimp only at write
  rw [colored_char, if_neg char] at write
  rw [display, if_neg char]
  split at write
  · next newline =>
      cases write
      rw [if_pos newline]
      refine ⟨(shown.newline inside.col row lt).roll inside.newline ?_ roll, inside.newline,
        below.goto _ _⟩
      obtain same | ⟨newer, last, fresh⟩ :=
        inside.top_next (show t.newline.reached = _ from rfl) (Nat.le_refl _)
      · exact .inl same
      · refine .inr ⟨newer, last, fun col colLt => ?_⟩
        rw [fresh]
        exact below _ col (Nat.lt_succ_self _) colLt
  · next other =>
      rw [if_neg other]
      split at write
      · next return' =>
          cases write
          rw [if_pos return']
          refine ⟨(shown.carriageReturn inside.col).roll inside.carriageReturn ?_ roll,
            inside.carriageReturn, below.goto _ _⟩
          left
          have cursor := inside.row
          simp only [Terminal.top, Terminal.carriageReturn, Terminal.goto]
          omega
      · next letter =>
          rw [if_neg letter]
          obtain ⟨stored, store, write⟩ := bind_eq_ok.mp write
          rw [storeCell_of_lt lt] at store
          cases store
          cases write
          refine ⟨(shown.put inside.col row lt _).roll (inside.put _) ?_ roll, inside.put _,
            below.put inside.row _⟩
          obtain same | ⟨newer, last, fresh⟩ :=
            inside.top_next (Terminal.put_reached _) (Terminal.put_row_le _)
          · exact .inl same
          · refine .inr ⟨newer, last, fun col colLt => ?_⟩
            have cursor := inside.row
            rw [fresh, Terminal.put_cells, if_neg (by omega)]
            exact below _ col (Nat.lt_succ_self _) colLt

end Rows

theorem Console.terminal_shows {s : Console} (lt : s.crtPos < crtSize) :
    Shows s s.terminal ∧ s.terminal.Inside 25 crtCols ∧
      s.terminal.BlankBelow crtCols 0x0720 := by
  have cols : crtCols = 80 := rfl
  have size : crtSize = 2000 := rfl
  refine ⟨⟨?_, ?_⟩, ⟨?_, ?_, ?_, ?_⟩, ?_⟩
  · intro row rowLt col colLt
    have top : s.terminal.top 25 + row = row := by
      show 24 + 1 - 25 + row = row
      omega
    rw [top]
    exact (if_pos rowLt).symm
  · show s.crtPos = crtCols * (s.crtPos / crtCols - (24 + 1 - 25)) + s.crtPos % crtCols
    rw [Nat.sub_zero]
    exact (Nat.div_add_mod s.crtPos crtCols).symm
  · exact Nat.le_refl 25
  · exact Nat.mod_lt _ (by decide)
  · show s.crtPos / crtCols ≤ 24
    rw [cols]
    omega
  · exact Nat.lt_of_lt_of_le (Nat.lt_succ_self 24) (Nat.le_add_left 25 _)
  · intro row col lower colLt
    have lower : 24 < row := lower
    exact if_neg (by omega)

/-- The characters of a stream, one after the other. -/
def consPuts (s : Console) (cs : List (BitVec 32)) : Except Fault Console := cs.foldlM consPutc s

/-- Nothing is stored outside the buffer, and the position stays inside. -/
theorem consPuts_ok {cs : List (BitVec 32)} : ∀ {s : Console}, s.crtPos < crtSize →
    ∃ s', consPuts s cs = .ok s' ∧ s'.crtPos < crtSize ∧ (cs ≠ [] ∨ Blinks s → Blinks s') := by
  induction cs with
  | nil =>
      intro s lt
      exact ⟨s, rfl, lt, fun blinks => blinks.resolve_left (fun none => none rfl)⟩
  | cons c rest ih =>
      intro s lt
      obtain ⟨s1, first, lt1, blinks⟩ := vgaPutc_ok lt c
      obtain ⟨s', later, lt', blinks'⟩ := ih lt1
      refine ⟨s', ?_, lt', fun _ => blinks' (.inr blinks)⟩
      rw [consPuts, List.foldlM_cons, consPutc, bind_ok first]
      exact later

/-- The screen follows the terminal. -/
theorem Shows.consPuts {cs : List (BitVec 32)} : ∀ {s s' : Console} {t : Terminal (BitVec 16)},
    s.crtPos < crtSize → Shows s t → t.Inside 25 crtCols → t.BlankBelow crtCols 0x0720 →
    (∀ c ∈ cs, c &&& 0xff ≠ 0x08) → consPuts s cs = .ok s' → Shows s' (cs.foldl display t) := by
  induction cs with
  | nil =>
      intro s s' t _ shown _ _ _ run
      cases run
      exact shown
  | cons c rest ih =>
      intro s s' t lt shown inside below chars run
      obtain ⟨s1, first, lt1, -⟩ := vgaPutc_ok lt c
      rw [Pumelo.consPuts, List.foldlM_cons, consPutc, bind_ok first] at run
      obtain ⟨shown1, inside1, below1⟩ :=
        vgaPutc_shows lt shown inside below (chars c (List.mem_cons_self ..)) first
      exact ih lt1 shown1 inside1 below1
        (fun c member => chars c (List.mem_cons_of_mem _ member)) run

/-- The console shows the last 25 rows of a terminal with unlimited rows. -/
theorem consPuts_shows {s : Console} (lt : s.crtPos < crtSize) (cs : List (BitVec 32)) :
    ∃ s', consPuts s cs = .ok s' ∧ s'.crtPos < crtSize ∧ (cs ≠ [] → Blinks s') ∧
      ((∀ c ∈ cs, c &&& 0xff ≠ 0x08) → Shows s' (cs.foldl display s.terminal)) := by
  obtain ⟨s', run, lt', blinks⟩ := @consPuts_ok cs s lt
  obtain ⟨shown, inside, below⟩ := Console.terminal_shows lt
  exact ⟨s', run, lt', fun some => blinks (.inl some),
    fun chars => shown.consPuts lt inside below chars run⟩

/-- A cleared screen. -/
def Console.cleared : Console := ⟨fun _ => 0x0720, 0, fun _ => 0⟩

/-- A letter and the end of its line. -/
theorem consPuts_shows_letter : ∃ s', consPuts Console.cleared [0x41, 0x0a] = .ok s' ∧
    Shows s' ([0x41, 0x0a].foldl display Console.cleared.terminal) := by
  have lt : Console.cleared.crtPos < crtSize := Nat.succ_pos 1999
  have chars : ∀ c ∈ ([0x41, 0x0a] : List (BitVec 32)), c &&& 0xff ≠ 0x08 := by
    intro c member
    simp only [List.mem_cons, List.not_mem_nil, or_false] at member
    obtain rfl | rfl := member <;> decide
  obtain ⟨s', run, inside, blinks, shows⟩ := consPuts_shows lt [0x41, 0x0a]
  exact ⟨s', run, shows chars⟩

end Pumelo
