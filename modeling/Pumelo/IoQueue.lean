import Pumelo.Foundation.Ring
import Pumelo.SemaphoreRun

/-!
# I/O queues

`ioqueue.c`: a circular buffer of characters between a producer and a consumer, which
block on it and wake each other.  Each loop is cut where its thread gives up the
processor, and again behind `lock_release`, which turns interrupts on.
-/

namespace Pumelo

open Foundation

/-- `BUF_SIZE` -/
@[simp] def bufSize : Nat := 64

/-- `struct ioqueue`; `producer` and `consumer` are threads or `NULL` (0). -/
structure IoQueue where
  lock : Lock
  producer : Nat
  consumer : Nat
  buf : Nat → UInt8
  head : Int
  tail : Int

/-- `ioqueue_init` -/
def ioqueueInit (ioq : IoQueue) : IoQueue :=
  { ioq with lock := lockInit, producer := 0, consumer := 0, head := 0, tail := 0 }

/-- `next_pos`, with the remainder of C. -/
def nextPos (pos : Int) : Int := (pos + 1).tmod bufSize

/-- `ioqueue_empty` -/
def ioqueueEmpty (m : Machine) (ioq : IoQueue) : Except Fault Bool := do
  assert (getIntrStatus m = .off) "get_intr_status() == INTR_OFF"
  return ioq.head = ioq.tail

/-- `ioqueue_full` -/
def ioqueueFull (m : Machine) (ioq : IoQueue) : Except Fault Bool := do
  assert (getIntrStatus m = .off) "get_intr_status() == INTR_OFF"
  return nextPos ioq.head = ioq.tail

/-- `ioqueue_wait`, to where another thread runs: what it stores in `*waiter`, the flag
that `thread_block` sets again, and the machine. -/
def ioqueueWait (m : Machine) (waiter : Nat) : Except Fault (Nat × IntrStatus × Machine) := do
  assert (waiter = 0) "*waiter == NULL && waiter != NULL"
  let (oldStatus, next) ← threadBlock m .blocked
  return (m.runningThread, oldStatus, next)

/-- `ioqueue_wakeup`, with what it stores in `*waiter`. -/
def ioqueueWakeup (m : Machine) (waiter : Nat) : Except Fault (Nat × Machine) := do
  assert (waiter ≠ 0) "*waiter != NULL"
  let m ← threadUnblock m waiter
  return (0, m)

/-- `ioq->buf[pos]` is inside the buffer. -/
def checkPos (pos : Int) : Except Fault Unit :=
  if 0 ≤ pos ∧ pos < bufSize then .ok () else .error (.outOfBounds "buf" pos.toNat)

/-- How far a call comes: it returns, or waits for the other side. -/
inductive Called (α : Type) where
  | returns (value : α)
  | waits (oldStatus : IntrStatus)
  deriving DecidableEq, Repr

/-- The loop of `ioqueue_getchar` from its condition on, and what follows it. -/
def getLoop (m : Machine) (ioq : IoQueue) :
    Except Fault (Called UInt8 × Machine × IoQueue) := do
  if ← ioqueueEmpty m ioq then
    let (lock, m) ← lockAcquire m ioq.lock
    let (consumer, oldStatus, m) ← ioqueueWait m ioq.consumer
    return (.waits oldStatus, m, { ioq with lock := lock, consumer := consumer })
  checkPos ioq.tail
  let c := ioq.buf ioq.tail.toNat
  let ioq := { ioq with tail := nextPos ioq.tail }
  if ioq.producer ≠ 0 then
    let (producer, m) ← ioqueueWakeup m ioq.producer
    return (.returns c, m, { ioq with producer := producer })
  return (.returns c, m, ioq)

/-- `ioqueue_getchar` -/
def ioqueueGetchar (m : Machine) (ioq : IoQueue) :
    Except Fault (Called UInt8 × Machine × IoQueue) := do
  assert (getIntrStatus m = .off) "get_intr_status() == INTR_OFF"
  getLoop m ioq

/-- The loop of `ioqueue_putchar` from its condition on, and what follows it. -/
def putLoop (m : Machine) (ioq : IoQueue) (c : UInt8) :
    Except Fault (Called Unit × Machine × IoQueue) := do
  if ← ioqueueFull m ioq then
    let (lock, m) ← lockAcquire m ioq.lock
    let (producer, oldStatus, m) ← ioqueueWait m ioq.producer
    return (.waits oldStatus, m, { ioq with lock := lock, producer := producer })
  checkPos ioq.head
  let buf := Function.update ioq.buf ioq.head.toNat c
  let ioq := { ioq with buf := buf, head := nextPos ioq.head }
  if ioq.consumer ≠ 0 then
    let (consumer, m) ← ioqueueWakeup m ioq.consumer
    return (.returns (), m, { ioq with consumer := consumer })
  return (.returns (), m, ioq)

/-- `ioqueue_putchar` -/
def ioqueuePutchar (m : Machine) (ioq : IoQueue) (c : UInt8) :
    Except Fault (Called Unit × Machine × IoQueue) := do
  assert (getIntrStatus m = .off) "get_intr_status() == INTR_OFF"
  putLoop m ioq c

/-- Both indices are in the buffer. -/
structure IoQueue.InRange (ioq : IoQueue) : Prop where
  head : 0 ≤ ioq.head ∧ ioq.head < bufSize
  tail : 0 ≤ ioq.tail ∧ ioq.tail < bufSize

/-- How many characters are stored. -/
def IoQueue.count (ioq : IoQueue) : Nat := ((ioq.head - ioq.tail) % bufSize).toNat

/-- The stored characters, from `tail` to `head`. -/
def IoQueue.contents (ioq : IoQueue) : List UInt8 :=
  Ring.contents ioq.buf bufSize ioq.tail.toNat ioq.count

theorem nextPos_eq {pos : Int} (lower : 0 ≤ pos) (upper : pos < bufSize) :
    0 ≤ nextPos pos ∧ nextPos pos < bufSize ∧ (nextPos pos).toNat = (pos.toNat + 1) % bufSize := by
  have tmod : nextPos pos = (pos + 1) % bufSize := Int.tmod_eq_emod_of_nonneg (by omega)
  simp only [bufSize] at upper tmod ⊢
  omega

namespace IoQueue.InRange

variable {ioq : IoQueue}

theorem count_lt (range : ioq.InRange) : ioq.count < bufSize := by
  have head := range.head
  simp only [count, bufSize] at head ⊢
  omega

/-- The queue is full with one cell left. -/
theorem full_iff (range : ioq.InRange) : nextPos ioq.head = ioq.tail ↔ ioq.count = 63 := by
  obtain ⟨lower, upper, next⟩ := nextPos_eq range.head.1 range.head.2
  have head := range.head
  have tail := range.tail
  simp only [count, bufSize] at head tail next lower upper ⊢
  omega

/-- Taking a character out. -/
theorem take (range : ioq.InRange) (filled : ioq.head ≠ ioq.tail) (producer : Nat) :
    let taken := { ioq with tail := nextPos ioq.tail, producer := producer }
    taken.InRange ∧ ioq.contents = ioq.buf ioq.tail.toNat :: taken.contents := by
  intro taken
  obtain ⟨lower, upper, next⟩ := nextPos_eq range.tail.1 range.tail.2
  have tail := range.tail
  have head := range.head
  have tailLt : ioq.tail.toNat < bufSize := by
    simp only [bufSize] at tail ⊢
    omega
  have count : ioq.count = taken.count + 1 := by
    simp only [IoQueue.count, bufSize, taken] at head tail next filled ⊢
    omega
  refine ⟨⟨range.head, lower, upper⟩, ?_⟩
  rw [contents, count, Ring.contents_succ _ tailLt, ← next]
  rfl

/-- Storing a character. -/
theorem store (range : ioq.InRange) (room : nextPos ioq.head ≠ ioq.tail) (c : UInt8)
    (consumer : Nat) :
    let stored := { ioq with
      buf := Function.update ioq.buf ioq.head.toNat c
      head := nextPos ioq.head
      consumer := consumer }
    stored.InRange ∧ stored.contents = ioq.contents ++ [c] := by
  intro stored
  obtain ⟨lower, upper, next⟩ := nextPos_eq range.head.1 range.head.2
  have tail := range.tail
  have head := range.head
  have notFull := (range.full_iff).not.mp room
  have countLt := range.count_lt
  have count : stored.count = ioq.count + 1 := by
    simp only [IoQueue.count, bufSize, stored] at head tail next room notFull ⊢
    omega
  have slot : ioq.head.toNat = Ring.slot bufSize ioq.tail.toNat ioq.count := by
    simp only [Ring.slot, IoQueue.count, bufSize] at head tail ⊢
    omega
  refine ⟨⟨⟨lower, upper⟩, range.tail⟩, ?_⟩
  rw [contents, count, contents, ← Ring.contents_update _ c countLt, ← slot]

end IoQueue.InRange

end Pumelo
