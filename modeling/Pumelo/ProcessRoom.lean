import Pumelo.BitmapScan
import Pumelo.Exhaustion
import Pumelo.NewProcess

/-!
# Room for a process

`process_execute` asks for 25 pages of the kernel.  Where 64 pages of the heap behind each other are
free and the pool has a frame for each of the 25, it returns with the new thread.
-/

namespace Pumelo

open Foundation PageWalk

/-- Pages of the heap that are free, from the first bit of a byte on. -/
structure Machine.Room (m : Machine) (base cnt : Nat) : Prop where
  inside : 8 * base + cnt ≤ 8 * m.kernelVaddr.vaddrBitmap.bitmapLen
  clear : ∀ k < cnt, m.pageBit (8 * base + k) = false

section

variable {m m' : Machine} {dirs : Nat → Prop} {base cnt page frame : Nat}

/-- A part of the pages. -/
theorem Machine.Room.part (room : m.Room base cnt) {skip count : Nat}
    (within : 8 * skip + count ≤ cnt) :
    m.Room (base + skip) count where
  inside := by
    have inside := room.inside
    omega
  clear k lt := by
    have clear := room.clear (8 * skip + k) (by omega)
    rwa [show 8 * (base + skip) + k = 8 * base + (8 * skip + k) by omega]

/-- The pages of a new process leave one of five stretches free. -/
theorem Machine.NewProcess.room {own bits pgdir dir : Nat}
    (new : m.NewProcess m' dirs own bits pgdir dir) (room : m.Room base 320)
    (small : 8 * base + 320 ≤ 65536) : ∃ base', m'.Room base' 64 := by
  -- the thread's page and the directory's lie in one stretch each, the bitmap's in two at most
  obtain ⟨skip, few, apart, apart', apart''⟩ : ∃ skip ≤ 4,
      (own < 8 * base + 64 * skip ∨ 8 * base + 64 * skip + 64 ≤ own) ∧
        (bits + 23 ≤ 8 * base + 64 * skip ∨ 8 * base + 64 * skip + 64 ≤ bits) ∧
          (pgdir < 8 * base + 64 * skip ∨ 8 * base + 64 * skip + 64 ≤ pgdir) := by
    by_contra none
    simp only [not_exists, not_and] at none
    have first := none 0
    have second := none 1
    have third := none 2
    have fourth := none 3
    have fifth := none 4
    omega
  have old := @Machine.Room.part m base 320 room (8 * skip) 64 (by omega)
  refine ⟨base + 8 * skip, new.grows.layout.kernelVaddr ▸ old.inside, fun k lt => ?_⟩
  rw [new.otherPages _ (by omega) (by omega) (by omega) (by omega)]
  exact old.clear k lt

namespace Machine.Shares

end Machine.Shares

end

end Pumelo
