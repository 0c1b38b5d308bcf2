import Mathlib.Tactic.Common

/-!
# Terminals with unlimited rows

A terminal has rows without end, of which the first ones were reached so far.  A screen shows
the last of them.
-/

namespace Foundation

universe u

variable {α : Type u}

/-- The cells by row and column, where the next one is written, and the last row reached. -/
structure Terminal (α : Type u) where
  cells : Nat → Nat → α
  row : Nat
  col : Nat
  reached : Nat

namespace Terminal

variable (t : Terminal α)

/-- Go to a row and a column. -/
def goto (row col : Nat) : Terminal α :=
  { t with row := row, col := col, reached := max t.reached row }

/-- Go to the start of the row. -/
def carriageReturn : Terminal α := t.goto t.row 0

/-- Go to the start of the next row. -/
def newline : Terminal α := t.goto (t.row + 1) 0

/-- Write a cell, and go on in a new row behind the last column. -/
def put (cols : Nat) (cell : α) : Terminal α :=
  let t' := { t with
    cells := fun row col => if row = t.row ∧ col = t.col then cell else t.cells row col }
  if t.col + 1 = cols then t'.newline else t'.goto t.row (t.col + 1)

/-- The row at the top of a screen that shows the last rows reached. -/
def top (rows : Nat) : Nat := t.reached + 1 - rows

/-- Rows that were not reached have one value in all columns. -/
def BlankBelow (cols : Nat) (blank : α) : Prop :=
  ∀ row col, t.reached < row → col < cols → t.cells row col = blank

/-- The cursor stands in one of the rows of the screen. -/
structure Inside (rows cols : Nat) : Prop where
  full : rows ≤ t.reached + 1
  col : t.col < cols
  row : t.row ≤ t.reached
  shown : t.reached < t.row + rows

variable {t} {rows cols : Nat} {blank : α}

theorem Inside.newline (inside : t.Inside rows cols) : t.newline.Inside rows cols := by
  obtain ⟨full, col, row, shown⟩ := inside
  constructor <;>
  · simp only [Terminal.newline, goto]
    omega

theorem Inside.carriageReturn (inside : t.Inside rows cols) :
    t.carriageReturn.Inside rows cols := by
  obtain ⟨full, col, row, shown⟩ := inside
  constructor <;>
  · simp only [Terminal.carriageReturn, goto]
    omega

theorem Inside.put (inside : t.Inside rows cols) (cell : α) :
    (t.put cols cell).Inside rows cols := by
  obtain ⟨full, col, row, shown⟩ := inside
  unfold Terminal.put
  dsimp only
  split <;> constructor <;>
  · simp only [Terminal.newline, goto]
    omega

theorem BlankBelow.goto (below : t.BlankBelow cols blank) (row col : Nat) :
    (t.goto row col).BlankBelow cols blank :=
  fun query column lower lt =>
    below query column (Nat.lt_of_le_of_lt (Nat.le_max_left _ _) lower) lt

theorem put_cells (cell : α) (row col : Nat) :
    (t.put cols cell).cells row col =
      if row = t.row ∧ col = t.col then cell else t.cells row col := by
  unfold Terminal.put
  dsimp only
  split <;> rfl

theorem reached_le_put (cell : α) : t.reached ≤ (t.put cols cell).reached := by
  unfold Terminal.put
  dsimp only
  split <;> exact Nat.le_max_left _ _

theorem BlankBelow.put (below : t.BlankBelow cols blank) (inside : t.row ≤ t.reached) (cell : α) :
    (t.put cols cell).BlankBelow cols blank := by
  intro row col lower lt
  have further := @reached_le_put _ t cols cell
  rw [put_cells, if_neg (by omega)]
  exact below row col (by omega) lt

/-- One more row at most comes to the screen, and then the cursor stands in it. -/
theorem Inside.top_next {t' : Terminal α} (inside : t.Inside rows cols)
    (reached : t'.reached = max t.reached t'.row) (row : t'.row ≤ t.row + 1) :
    t'.top rows = t.top rows ∨
      t'.top rows = t.top rows + 1 ∧ t'.row = t.top rows + rows ∧
        t.top rows + rows = t.reached + 1 := by
  obtain ⟨full, -, below, -⟩ := inside
  unfold top
  omega

theorem put_reached (cell : α) :
    (t.put cols cell).reached = max t.reached (t.put cols cell).row := by
  unfold Terminal.put
  dsimp only
  split <;> rfl

theorem put_row_le (cell : α) : (t.put cols cell).row ≤ t.row + 1 := by
  unfold Terminal.put
  dsimp only
  split
  · exact Nat.le_refl _
  · exact Nat.le_succ _

end Terminal

end Foundation
