import Mathlib.Data.List.Basic
import Mathlib.Data.List.Range
import Mathlib.Data.Nat.ModEq
import Mathlib.Logic.Function.Basic
import Mathlib.Tactic.Common

/-!
# Circular buffers

Cells that are numbered around a circle, and the list of those that are in use.
-/

namespace Foundation

namespace Ring

variable {α : Type*} {cap tail count : Nat}

/-- The cell a number of places behind another one. -/
def slot (cap tail offset : Nat) : Nat := (tail + offset) % cap

/-- The contents of `count` cells from `tail` on. -/
def contents (cell : Nat → α) (cap tail count : Nat) : List α :=
  (List.range count).map fun offset => cell (slot cap tail offset)

@[simp] theorem contents_zero (cell : Nat → α) : contents cell cap tail 0 = [] := rfl

@[simp] theorem length_contents (cell : Nat → α) :
    (contents cell cap tail count).length = count := by
  simp [contents]

theorem slot_injective {offset other : Nat} (offsetLt : offset < cap) (otherLt : other < cap)
    (same : slot cap tail offset = slot cap tail other) : offset = other := by
  have residue : offset % cap = other % cap := Nat.ModEq.add_left_cancel' tail same
  rwa [Nat.mod_eq_of_lt offsetLt, Nat.mod_eq_of_lt otherLt] at residue

theorem slot_succ (tail offset : Nat) :
    slot cap ((tail + 1) % cap) offset = slot cap tail (offset + 1) := by
  rw [slot, slot, Nat.mod_add_mod]
  congr 1
  omega

/-- The first cell is taken out. -/
theorem contents_succ (cell : Nat → α) (tailLt : tail < cap) :
    contents cell cap tail (count + 1) =
      cell tail :: contents cell cap ((tail + 1) % cap) count := by
  rw [contents, List.range_succ_eq_map, List.map_cons, List.map_map]
  congr 1
  · rw [slot, Nat.add_zero, Nat.mod_eq_of_lt tailLt]
  · refine List.map_congr_left fun offset _ => ?_
    rw [slot_succ]
    rfl

/-- A cell is added behind the last one, where one is free. -/
theorem contents_update (cell : Nat → α) (value : α) (room : count < cap) :
    contents (Function.update cell (slot cap tail count) value) cap tail (count + 1) =
      contents cell cap tail count ++ [value] := by
  rw [contents, List.range_succ, List.map_append, List.map_singleton, Function.update_self]
  congr 1
  refine List.map_congr_left fun offset member => ?_
  have offsetLt := List.mem_range.mp member
  refine Function.update_of_ne (fun same => ?_) ..
  have equal := slot_injective (by omega) room same
  omega

end Ring

end Foundation
