import Pumelo.Foundation.Descriptor
import Pumelo.Foundation.Interrupt

/-!
# Task states

The table of segments and the task state that the processor keeps a descriptor of: the
stack for interrupts from programs outside the kernel, and the map of the ports that such
programs may use.
-/

namespace Foundation

/-- The register that `lgdt` loads. -/
structure Gdtr where
  limit : Nat
  base : Nat
  deriving DecidableEq, Repr

/-- The six bytes of its operand, as a number. -/
def Gdtr.load (operand : Nat) : Gdtr where
  limit := operand % 2 ^ 16
  base := operand / 2 ^ 16 % 2 ^ 32

/-- The segment of a selector; the first entry of the table selects none, and there is none behind
the limit or in the other table. -/
def Gdtr.segment (gdtr : Gdtr) (mem : Bytes) (selector : Nat) : Option Segment :=
  if selector / 8 = 0 ∨ selector / 4 % 2 = 1 then none
  else if 8 * (selector / 8) + 7 ≤ gdtr.limit then
    Segment.decode (mem.take (gdtr.base + 8 * (selector / 8)) 8)
  else none

theorem Gdtr.segment_congr (gdtr : Gdtr) {mem mem' : Bytes} {selector : Nat}
    (agree : ∀ query, gdtr.base + 8 * (selector / 8) ≤ query →
      query < gdtr.base + 8 * (selector / 8) + 8 → mem' query = mem query) :
    gdtr.segment mem' selector = gdtr.segment mem selector := by
  simp only [segment, Bytes.take_congr agree]

/-- The access byte is the one in memory. -/
theorem Gdtr.segment_access (gdtr : Gdtr) {mem mem' : Bytes} {selector : Nat}
    (agree : ∀ query, gdtr.base + 8 * (selector / 8) ≤ query →
      query < gdtr.base + 8 * (selector / 8) + 8 → query ≠ gdtr.base + 8 * (selector / 8) + 5 →
      mem' query = mem query) :
    gdtr.segment mem' selector = (gdtr.segment mem selector).map fun segment =>
      { segment with access := mem' (gdtr.base + 8 * (selector / 8) + 5) } := by
  have bytes (mem : Bytes) (addr : Nat) : mem.take addr 8 =
      [mem addr, mem (addr + 1), mem (addr + 2), mem (addr + 3), mem (addr + 4), mem (addr + 5),
        mem (addr + 6), mem (addr + 7)] := rfl
  unfold segment
  split
  · rfl
  split
  · rw [bytes, bytes, agree _ (by omega) (by omega) (by omega),
      agree (_ + 1) (by omega) (by omega) (by omega),
        agree (_ + 2) (by omega) (by omega) (by omega),
      agree (_ + 3) (by omega) (by omega) (by omega),
        agree (_ + 4) (by omega) (by omega) (by omega),
      agree (_ + 6) (by omega) (by omega) (by omega),
        agree (_ + 7) (by omega) (by omega) (by omega)]
    rfl
  · rfl

namespace Segment

variable (tss : Segment) (mem : Bytes)

/-- The last byte of a segment, counted in pages where the upper flag is set. -/
def last : Nat :=
  if tss.flags &&& 0x80 = 0 then tss.limit.toNat else 4096 * tss.limit.toNat + 4095

/-- `esp0` of a task state. -/
def esp0 : Nat := mem.read32 (tss.base.toNat + 4)

/-- `ss0` -/
def ss0 : Nat := mem.read32 (tss.base.toNat + 8) % 2 ^ 16

/-- Where the map of the ports begins, in the upper half of the word behind that of the local
table. -/
def portMap : Nat := mem.read32 (tss.base.toNat + 100) / 2 ^ 16

/-- A program outside the kernel, without the privilege for input and output, may use a port of
one byte: its bit in the map is clear, and the processor may read a byte more. -/
def Permits (port : Nat) : Prop :=
  tss.portMap mem + port / 8 + 1 ≤ tss.last ∧
    mem.bit (8 * (tss.base.toNat + tss.portMap mem) + port) = false

end Segment

/-- The gate that the processor finds for a vector, and the stack for a program outside the
kernel. -/
def Core.Gate.fetch (mem : Bytes) (idtr : Idtr) (gdtr : Gdtr) (task vec : Nat) :
    Option Core.Gate := do
  let gate ← idtr.gate mem vec
  let tss ← gdtr.segment mem task
  return {
    selector := gate.selector.toNat
    offset := gate.offset.toNat
    ss0 := tss.ss0 mem
    esp0 := tss.esp0 mem }

end Foundation
