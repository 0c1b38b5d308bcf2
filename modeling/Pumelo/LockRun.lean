import Pumelo.Foundation.System
import Pumelo.Sync

/-!
# Threads that contend for a lock

`lock_acquire` and `lock_release` instruction by instruction, for any number of
threads on one processor.  The processor goes to another thread only where the
running thread has interrupts on, or where it blocks of its own accord, which it
does nowhere inside the two functions.

The lock is read before interrupts are off and cleared in three stores, so the
invariant says for each place in the two functions what the thread there knows of
the lock.
-/

namespace Pumelo

open Foundation

/-- The next instruction of a thread in `lock_acquire` or `lock_release`; a
`number` is the count it has loaded. -/
inductive Place where
  | outside
  | readHolder
  | pushcli
  | checkHeld
  | exchange
  | setHolder
  | assertZero
  | setOne
  | loadNumber
  | storeMore (number : Nat)
  | assertHolder
  | compareNumber
  | loadAgain
  | storeFewer (number : Nat)
  | assertOne
  | clearHolder
  | clearNumber
  | checkTaken
  | exchangeBack
  | popcli
  deriving DecidableEq, Repr

/-- A thread, as far as the lock goes: where it is, its interrupt flag, and how
many of its acquires have no release yet.  The count goes up as an acquire stores
the lock's number and down as a release stores it or frees the lock. -/
structure Task where
  place : Place
  intr : IntrStatus
  depth : Nat
  deriving DecidableEq, Repr

/-- The thread goes on to a place. -/
def Task.goto (task : Task) (place : Place) : Task := { task with place := place }

@[simp] theorem Task.goto_place (task : Task) (place : Place) :
    (task.goto place).place = place := rfl

/-- The thread leaves the function with a new count. -/
def Task.leave (task : Task) (depth : Nat) : Task :=
  { task with place := .outside, depth := depth }

/-- The next instruction of thread `self`. -/
def advance (lk : Lock) (self : Nat) (task : Task) : Except Fault (Lock × Task) :=
  match task.place with
  | .outside => .ok (lk, task)
  -- lock_acquire, with spinlock_acquire in it
  | .readHolder =>
      .ok (lk, task.goto (if lk.holder ≠ self then .pushcli else .loadNumber))
  | .pushcli => .ok (lk, { task with place := .checkHeld, intr := .off })
  | .checkHeld =>
      if holding lk then .error (.panic "acquire") else .ok (lk, task.goto .exchange)
  | .exchange =>
      .ok ({ lk with locked := 1 }, task.goto (if lk.locked = 0 then .setHolder else .exchange))
  | .setHolder => .ok ({ lk with holder := self }, task.goto .assertZero)
  | .assertZero => do
      assert (lk.number = 0) "lk->number == 0"
      return (lk, task.goto .setOne)
  | .setOne => .ok ({ lk with number := 1 }, task.leave (task.depth + 1))
  | .loadNumber => .ok (lk, task.goto (.storeMore lk.number))
  | .storeMore number =>
      .ok ({ lk with number := (number + 1) % 2 ^ 32 }, task.leave (task.depth + 1))
  -- lock_release, with spinlock_release in it
  | .assertHolder => do
      assert (lk.holder = self) "lk->holder == running_thread()"
      return (lk, task.goto .compareNumber)
  | .compareNumber =>
      .ok (lk, task.goto (if lk.number > 1 then .loadAgain else .assertOne))
  | .loadAgain => .ok (lk, task.goto (.storeFewer lk.number))
  | .storeFewer number => .ok ({ lk with number := number - 1 }, task.leave (task.depth - 1))
  | .assertOne => do
      assert (lk.number = 1) "lk->number == 1"
      return (lk, task.goto .clearHolder)
  | .clearHolder => .ok ({ lk with holder := 0 }, task.goto .clearNumber)
  | .clearNumber => .ok ({ lk with number := 0 }, task.goto .checkTaken)
  | .checkTaken =>
      if ¬holding lk then .error (.panic "release") else .ok (lk, task.goto .exchangeBack)
  | .exchangeBack =>
      .ok ({ lk with locked := 0 }, { task with place := .popcli, depth := task.depth - 1 })
  | .popcli => .ok (lk, { task with place := .outside, intr := .on })

/-- Run a thread to the end of the function it is in, without interruption. -/
def finish (lk : Lock) (self : Nat) (task : Task) : (fuel : Nat) → Except Fault (Lock × Task)
  | 0 => .error .diverge
  | fuel + 1 =>
      if task.place = .outside then .ok (lk, task)
      else do
        let (lk, task) ← advance lk self task
        finish lk self task fuel

/-- What such a run leaves behind for the machine. -/
def afterCall (m : Machine) (result : Lock × Task) : Lock × Machine :=
  (result.1, { m with intr := result.2.intr })

/-- Without interruption the instructions of `lock_acquire` do what the call does. -/
theorem finish_acquire (m : Machine) (lk : Lock) (depth : Nat) :
    (finish lk m.running ⟨.readHolder, m.intr, depth⟩ 8).map (afterCall m) =
      lockAcquire m lk := by
  unfold lockAcquire
  split
  case isTrue other =>
    have other : lk.holder ≠ m.running := other
    by_cases taken : lk.locked = 0
    · by_cases zero : lk.number = 0
      · simp [finish, advance, Task.goto, other, holding, taken, zero, assert, Task.leave,
          spinlockAcquire, pushcli, afterCall, Machine.runningThread, Bind.bind, Except.bind,
          Except.map]
      · simp [finish, advance, Task.goto, other, holding, taken, zero, assert,
          spinlockAcquire, pushcli, Bind.bind, Except.bind, Except.map]
    · simp [finish, advance, Task.goto, other, holding, taken, spinlockAcquire,
        Bind.bind, Except.bind, Except.map]
  case isFalse same =>
    have same : lk.holder = m.running := not_not.mp same
    simp [finish, advance, Task.goto, same, Task.leave, afterCall, Bind.bind, Except.bind,
      Except.map]

/-- Without interruption the instructions of `lock_release` do what the call does. -/
theorem finish_release (m : Machine) (lk : Lock) (depth : Nat) :
    (finish lk m.running ⟨.assertHolder, m.intr, depth⟩ 9).map (afterCall m) =
      lockRelease m lk := by
  unfold lockRelease
  by_cases holder : lk.holder = m.running
  · by_cases more : lk.number > 1
    · simp [finish, advance, Task.goto, holder, more, assert, Task.leave, afterCall,
        Machine.runningThread, Bind.bind, Except.bind, Except.map]
    · by_cases one : lk.number = 1
      · by_cases taken : lk.locked = 0
        · simp [finish, advance, Task.goto, holder, one, taken, holding, assert,
            spinlockRelease, Machine.runningThread, Bind.bind, Except.bind, Except.map]
        · simp [finish, advance, Task.goto, holder, one, taken, holding, assert, afterCall,
            spinlockRelease, popcli, Machine.runningThread, Bind.bind, Except.bind, Except.map]
      · simp [finish, advance, Task.goto, holder, more, one, assert, Machine.runningThread,
          Bind.bind, Except.bind, Except.map]
  · simp [finish, advance, holder, assert, Machine.runningThread, Bind.bind, Except.bind,
      Except.map]

/-- The threads, the lock they contend for and the one that has the processor.
`halted` is the fault that stopped the machine. -/
structure Contention where
  lock : Lock
  running : Nat
  task : Nat → Task
  halted : Option Fault

namespace Contention

/-- The running thread. -/
def self (s : Contention) : Task := s.task s.running

/-- The state after the running thread has changed itself and the lock. -/
def become (s : Contention) (lock : Lock) (task : Task) : Contention :=
  { s with lock := lock, task := fun query => if query = s.running then task else s.task query }

/-- The processor goes to another thread. -/
def switchTo (s : Contention) (next : Nat) : Contention := { s with running := next }

/-- The machine stops. -/
def crash (s : Contention) (fault : Fault) : Contention := { s with halted := some fault }

/-- A fresh lock, and threads that have not yet touched it. -/
def Initial (s : Contention) : Prop :=
  s.lock = lockInit ∧ s.running ≠ 0 ∧ s.halted = none ∧
    ∀ thread, (s.task thread).place = .outside ∧ (s.task thread).depth = 0

/-- One step.  Outside the two functions a thread may do as it likes with its
interrupt flag, and releases only what it has acquired. -/
inductive Step : Contention → Contention → Prop where
  | switch {s : Contention} (next : Nat) : s.halted = none → next ≠ 0 →
      s.self.intr = .on ∨ s.self.place = .outside → Step s (s.switchTo next)
  | setFlag {s : Contention} (status : IntrStatus) : s.halted = none → s.self.place = .outside →
      Step s (s.become s.lock { s.self with intr := status })
  | acquire {s : Contention} : s.halted = none → s.self.place = .outside →
      Step s (s.become s.lock (s.self.goto .readHolder))
  | release {s : Contention} : s.halted = none → s.self.place = .outside → 0 < s.self.depth →
      Step s (s.become s.lock (s.self.goto .assertHolder))
  | advance {s : Contention} {lock : Lock} {task : Task} : s.halted = none →
      s.self.place ≠ .outside → advance s.lock s.running s.self = .ok (lock, task) →
      Step s (s.become lock task)
  | crash {s : Contention} {fault : Fault} : s.halted = none →
      s.self.place ≠ .outside → Pumelo.advance s.lock s.running s.self = .error fault →
      Step s (s.crash fault)

@[simp] theorem become_running (s : Contention) (lock : Lock) (task : Task) :
    (s.become lock task).running = s.running := rfl

@[simp] theorem become_lock (s : Contention) (lock : Lock) (task : Task) :
    (s.become lock task).lock = lock := rfl

@[simp] theorem become_halted (s : Contention) (lock : Lock) (task : Task) :
    (s.become lock task).halted = s.halted := rfl

@[simp] theorem become_task_self (s : Contention) (lock : Lock) (task : Task) :
    (s.become lock task).task s.running = task := if_pos rfl

theorem become_task_of_ne (s : Contention) (lock : Lock) (task : Task) {query : Nat}
    (other : query ≠ s.running) : (s.become lock task).task query = s.task query := if_neg other

@[simp] theorem become_self (s : Contention) (lock : Lock) (task : Task) :
    (s.become lock task).self = task := if_pos rfl

@[simp] theorem become_become (s : Contention) (lock lock' : Lock) (task task' : Task) :
    (s.become lock task).become lock' task' = s.become lock' task' := by
  simp only [become, mk.injEq, true_and, and_true]
  funext query
  split <;> rfl

end Contention

/-- Threads that use one lock. -/
def lockSystem : System Contention where
  init := Contention.Initial
  step := Contention.Step

/-- The thread has the lock: the exchange gave it to it and has not taken it back. -/
def Task.Owns (task : Task) : Prop :=
  0 < task.depth ∨ task.place = .setHolder ∨ task.place = .assertZero ∨ task.place = .setOne

/-- What holds of the lock and of thread `self` at each place. -/
def Fits (lk : Lock) (self : Nat) (task : Task) : Prop :=
  match task.place with
  | .outside | .readHolder =>
      if task.depth = 0 then lk.holder ≠ self else lk = ⟨1, self, task.depth⟩
  | .pushcli | .popcli => task.depth = 0 ∧ lk.holder ≠ self
  | .checkHeld => task.depth = 0 ∧ lk.holder ≠ self ∧ task.intr = .off
  | .exchange => task.depth = 0 ∧ lk.holder ≠ self ∧ task.intr = .off ∧ lk.locked = 0
  | .setHolder => task.depth = 0 ∧ task.intr = .off ∧ lk = ⟨1, 0, 0⟩
  | .assertZero | .setOne => task.depth = 0 ∧ task.intr = .off ∧ lk = ⟨1, self, 0⟩
  | .loadNumber | .assertHolder | .compareNumber =>
      0 < task.depth ∧ lk = ⟨1, self, task.depth⟩
  | .storeMore number => number = task.depth ∧ 0 < task.depth ∧ lk = ⟨1, self, task.depth⟩
  | .loadAgain => 1 < task.depth ∧ lk = ⟨1, self, task.depth⟩
  | .storeFewer number => number = task.depth ∧ 1 < task.depth ∧ lk = ⟨1, self, task.depth⟩
  | .assertOne | .clearHolder => task.depth = 1 ∧ lk = ⟨1, self, 1⟩
  | .clearNumber => task.depth = 1 ∧ lk = ⟨1, 0, 1⟩
  | .checkTaken | .exchangeBack => task.depth = 1 ∧ lk = ⟨1, 0, 0⟩

/-- The places between `pushcli` and the end of the outermost acquire, where the
thread relies on not being interrupted. -/
def Place.Atomic : Place → Prop
  | .checkHeld | .exchange | .setHolder | .assertZero | .setOne => True
  | _ => False

/-- How a step of one thread bears on the others: it leaves the lock alone, takes
it while it is free, changes it as its owner, or gives it back as it was made. -/
inductive Effect (lk : Lock) (self : Nat) (task : Task) (lk' : Lock) (task' : Task) : Prop where
  | quiet (same : lk' = lk) (owns : task'.Owns ↔ task.Owns)
  | takes (open' : lk.locked = 0) (owner : task'.Owns) (holder : lk'.holder = lk.holder)
  | keeps (owned : task.Owns) (owner : task'.Owns) (holder : lk'.holder = lk.holder ∨
      lk'.holder = self ∨ lk'.holder = 0)
  | frees (owned : task.Owns) (released : ¬task'.Owns) (free : lk' = lockInit)

/-- One instruction of a thread that knows what it should: it comes to the check
of a taken lock and panics there, or it goes on knowing what it should. -/
theorem advance_fits {lk : Lock} {self : Nat} {task : Task} (real : self ≠ 0)
    (fits : Fits lk self task) (inside : task.place ≠ .outside)
    (free : lk.locked = 0 → lk = lockInit)
    (room : ∀ number, task.place = .storeMore number → number + 1 < 2 ^ 32) :
    (task.place = .checkHeld ∧ holding lk ∧ advance lk self task = .error (.panic "acquire")) ∨
    ∃ lk' task', advance lk self task = .ok (lk', task') ∧ Fits lk' self task' ∧
      Effect lk self task lk' task' := by
  obtain ⟨place, intr, depth⟩ := task
  cases place with
  | outside => exact absurd rfl inside
  | readHolder =>
      refine .inr ⟨_, _, rfl, ?_, .quiet rfl (by simp [Task.Owns, Task.goto]; split <;> simp)⟩
      by_cases none : depth = 0
      · have other : lk.holder ≠ self := by simpa [Fits, none] using fits
        simp [Task.goto, other, Fits, none]
      · have owner : lk = ⟨1, self, depth⟩ := by simpa [Fits, none] using fits
        simp [Task.goto, owner, Fits, Nat.pos_of_ne_zero none]
  | pushcli =>
      obtain ⟨none, other⟩ := fits
      exact .inr ⟨_, _, rfl, ⟨none, other, rfl⟩, .quiet rfl (by simp [Task.Owns])⟩
  | checkHeld =>
      obtain ⟨none, other, off⟩ := fits
      by_cases taken : holding lk
      · exact .inl ⟨rfl, taken, if_pos taken⟩
      · exact .inr ⟨_, _, if_neg taken, ⟨none, other, off, not_not.mp taken⟩,
          .quiet rfl (by simp [Task.Owns, Task.goto])⟩
  | exchange =>
      obtain ⟨none, other, off, open'⟩ := fits
      refine .inr ⟨_, _, rfl, ?_, .takes open' ?_ rfl⟩
      · rw [free open']
        exact ⟨none, off, rfl⟩
      · simp [Task.Owns, Task.goto, open']
  | setHolder =>
      obtain ⟨none, off, rfl⟩ := fits
      exact .inr ⟨_, _, rfl, ⟨none, off, rfl⟩,
        .keeps (by simp [Task.Owns]) (by simp [Task.Owns, Task.goto]) (.inr (.inl rfl))⟩
  | assertZero =>
      obtain ⟨none, off, rfl⟩ := fits
      exact .inr ⟨_, _, rfl, ⟨none, off, rfl⟩, .quiet rfl (by simp [Task.Owns, Task.goto])⟩
  | setOne =>
      obtain ⟨none, off, rfl⟩ := fits
      have zero : depth = 0 := none
      subst zero
      exact .inr ⟨_, _, rfl, by simp [Fits, Task.leave],
        .keeps (by simp [Task.Owns]) (by simp [Task.Owns, Task.leave]) (.inl rfl)⟩
  | loadNumber =>
      obtain ⟨some, rfl⟩ := fits
      exact .inr ⟨_, _, rfl, ⟨rfl, some, rfl⟩, .quiet rfl (by simp [Task.Owns, Task.goto])⟩
  | storeMore number =>
      obtain ⟨counted, some, rfl⟩ := fits
      have counted : number = depth := counted
      subst counted
      have small := room number rfl
      exact .inr ⟨_, _, rfl, by simpa [Fits, Task.leave] using small,
        .keeps (.inl some) (by simp [Task.Owns, Task.leave]) (.inl rfl)⟩
  | assertHolder =>
      obtain ⟨some, rfl⟩ := fits
      exact .inr ⟨_, _, bind_ok (assert_of rfl _), ⟨some, rfl⟩,
        .quiet rfl (by simp [Task.Owns, Task.goto])⟩
  | compareNumber =>
      obtain ⟨some, rfl⟩ := fits
      refine .inr ⟨_, _, rfl, ?_, .quiet rfl (by simp [Task.Owns, Task.goto]; split <;> simp)⟩
      have some : 0 < depth := some
      by_cases more : depth > 1
      · simp [Task.goto, more, Fits]
      · have one : depth = 1 := by omega
        simp [Task.goto, one, Fits]
  | loadAgain =>
      obtain ⟨more, rfl⟩ := fits
      exact .inr ⟨_, _, rfl, ⟨rfl, more, rfl⟩, .quiet rfl (by simp [Task.Owns, Task.goto])⟩
  | storeFewer number =>
      obtain ⟨counted, more, rfl⟩ := fits
      have counted : number = depth := counted
      subst counted
      have more : 1 < number := more
      have some : number - 1 ≠ 0 := by omega
      exact .inr ⟨_, _, rfl, by simp [Fits, Task.leave, some],
        .keeps (.inl (by omega)) (.inl (Nat.pos_of_ne_zero some)) (.inl rfl)⟩
  | assertOne =>
      obtain ⟨one, rfl⟩ := fits
      exact .inr ⟨_, _, rfl, ⟨one, rfl⟩, .quiet rfl (by simp [Task.Owns, Task.goto])⟩
  | clearHolder =>
      obtain ⟨one, rfl⟩ := fits
      have owns : 0 < depth := Nat.lt_of_lt_of_eq Nat.one_pos one.symm
      exact .inr ⟨_, _, rfl, ⟨one, rfl⟩, .keeps (.inl owns) (.inl owns) (.inr (.inr rfl))⟩
  | clearNumber =>
      obtain ⟨one, rfl⟩ := fits
      have owns : 0 < depth := Nat.lt_of_lt_of_eq Nat.one_pos one.symm
      exact .inr ⟨_, _, rfl, ⟨one, rfl⟩, .keeps (.inl owns) (.inl owns) (.inl rfl)⟩
  | checkTaken =>
      obtain ⟨one, rfl⟩ := fits
      exact .inr ⟨_, _, rfl, ⟨one, rfl⟩, .quiet rfl (by simp [Task.Owns, Task.goto])⟩
  | exchangeBack =>
      obtain ⟨one, rfl⟩ := fits
      have one : depth = 1 := one
      subst one
      exact .inr ⟨_, _, rfl, ⟨rfl, real.symm⟩,
        .frees (.inl Nat.one_pos) (by simp [Task.Owns]) rfl⟩
  | popcli =>
      obtain ⟨none, other⟩ := fits
      have zero : depth = 0 := none
      subst zero
      exact .inr ⟨_, _, rfl, by simpa [Fits] using other, .quiet rfl (by simp [Task.Owns])⟩

namespace Fits

variable {lk lk' : Lock} {thread : Nat} {task : Task}

/-- While a thread has the lock, its word is set. -/
theorem locked (fits : Fits lk thread task) (owns : task.Owns) : lk.locked = 1 := by
  obtain ⟨place, intr, depth⟩ := task
  have some : ∀ {number}, lk = ⟨1, thread, number⟩ → lk.locked = 1 := fun equal => by rw [equal]
  have counts : place ≠ .setHolder → place ≠ .assertZero → place ≠ .setOne → depth ≠ 0 := by
    intro notSet notAssert notOne
    rcases owns with positive | here | here | here
    · exact Nat.ne_of_gt positive
    · exact absurd here notSet
    · exact absurd here notAssert
    · exact absurd here notOne
  cases place with
  | outside | readHolder =>
      exact some ((if_neg (counts nofun nofun nofun)).mp fits)
  | pushcli | popcli | checkHeld | exchange =>
      exact absurd fits.1 (counts nofun nofun nofun)
  | setHolder | assertZero | setOne | storeMore | storeFewer => rw [fits.2.2]
  | loadNumber | assertHolder | compareNumber | loadAgain | assertOne | clearHolder
  | clearNumber | checkTaken | exchangeBack => rw [fits.2]

/-- A thread that does not have the lock and has not come to rely on its word
knows only that it is not the holder. -/
theorem stranger_iff (away : ¬task.Owns) (calm : ¬task.place.Atomic) :
    Fits lk thread task ↔ task.depth = 0 ∧ lk.holder ≠ thread ∧
      (task.place = .outside ∨ task.place = .readHolder ∨ task.place = .pushcli ∨
        task.place = .popcli) := by
  obtain ⟨place, intr, depth⟩ := task
  have none : depth = 0 := Nat.eq_zero_of_not_pos fun positive => away (.inl positive)
  subst none
  cases place <;> simp_all [Fits, Place.Atomic]

/-- Atomic stretches run with interrupts off. -/
theorem off (fits : Fits lk thread task) (atomic : task.place.Atomic) : task.intr = .off := by
  obtain ⟨place, intr, depth⟩ := task
  cases place with
  | checkHeld => exact fits.2.2
  | exchange => exact fits.2.2.1
  | setHolder | assertZero | setOne => exact fits.2.1
  | _ => exact atomic.elim

end Fits

/-! ## The invariant -/

/-- What holds of all threads and the lock. -/
structure Knows (s : Contention) : Prop where
  real : s.running ≠ 0
  null : ¬(s.task 0).Owns
  fits : ∀ thread, thread ≠ 0 → Fits s.lock thread (s.task thread)
  owner : ∀ thread other, (s.task thread).Owns → (s.task other).Owns → thread = other
  free : (∀ thread, ¬(s.task thread).Owns) → s.lock = lockInit
  atomic : ∀ thread, (s.task thread).place.Atomic → thread = s.running

namespace Knows

variable {s : Contention}

theorem initial (fresh : s.Initial) : Knows s := by
  obtain ⟨free, real, -, outside⟩ := fresh
  have away : ∀ thread, ¬(s.task thread).Owns := by
    intro thread owns
    obtain ⟨place, none⟩ := outside thread
    simp [Task.Owns, place, none] at owns
  refine ⟨real, away 0, ?_, ?_, fun _ => free, ?_⟩
  · intro thread nonnull
    obtain ⟨place, none⟩ := outside thread
    simpa [Fits, place, none, free, lockInit] using nonnull.symm
  · intro thread other owns
    exact absurd owns (away thread)
  · intro thread atomic
    rw [(outside thread).1] at atomic
    exact atomic.elim

/-- The word is clear only in a free lock. -/
theorem of_unlocked (knows : Knows s) (open' : s.lock.locked = 0) : s.lock = lockInit := by
  refine knows.free fun thread owns => ?_
  have nonnull : thread ≠ 0 := fun null => knows.null (null ▸ owns)
  have locked := (knows.fits thread nonnull).locked owns
  omega

/-- A step of the running thread on the lock. -/
theorem become {lock : Lock} {task : Task} (knows : Knows s) (fits : Fits lock s.running task)
    (effect : Effect s.lock s.running s.self lock task) : Knows (s.become lock task) := by
  -- every other thread is a stranger to the lock unless the step leaves it alone
  have others : ∀ thread, thread ≠ s.running → (s.become lock task).task thread = s.task thread :=
    fun thread other => s.become_task_of_ne lock task other
  have calm : ∀ thread, thread ≠ s.running → ¬(s.task thread).place.Atomic :=
    fun thread other atomic => other (knows.atomic thread atomic)
  have stranger : ∀ thread, thread ≠ 0 → thread ≠ s.running → ¬(s.task thread).Owns →
      lock.holder = s.lock.holder ∨ lock.holder = s.running ∨ lock.holder = 0 →
      Fits lock thread (s.task thread) := by
    intro thread nonnull other away holder
    have before := (Fits.stranger_iff away (calm thread other)).mp (knows.fits thread nonnull)
    refine (Fits.stranger_iff away (calm thread other)).mpr ⟨before.1, ?_, before.2.2⟩
    rcases holder with same | mine | none
    · rw [same]
      exact before.2.1
    · rw [mine]
      exact Ne.symm other
    · rw [none]
      exact nonnull.symm
  have unowned : s.lock.locked = 0 → ∀ thread, ¬(s.task thread).Owns := by
    intro open' thread owns
    have nonnull : thread ≠ 0 := fun null => knows.null (null ▸ owns)
    have locked := (knows.fits thread nonnull).locked owns
    omega
  have alone : s.self.Owns → ∀ thread, thread ≠ s.running → ¬(s.task thread).Owns :=
    fun owned thread other owns => other (knows.owner thread s.running owns owned)
  constructor
  · exact knows.real
  · rw [others 0 knows.real.symm]
    exact knows.null
  · intro thread nonnull
    by_cases self : thread = s.running
    · subst self
      rw [s.become_task_self]
      exact fits
    · rw [others thread self, s.become_lock]
      cases effect with
      | quiet same _ =>
          rw [same]
          exact knows.fits thread nonnull
      | takes open' _ holder =>
          exact stranger thread nonnull self (unowned open' thread) (.inl holder)
      | keeps owned _ holder => exact stranger thread nonnull self (alone owned thread self) holder
      | frees owned _ free =>
          exact stranger thread nonnull self (alone owned thread self)
            (.inr (.inr (by rw [free]; rfl)))
  · -- only the running thread can have come to own the lock, and then nobody else did
    have only : task.Owns → ∀ thread, thread ≠ s.running → ¬(s.task thread).Owns := by
      intro owns
      cases effect with
      | quiet _ same => exact alone (same.mp owns)
      | takes open' _ _ => exact fun thread _ => unowned open' thread
      | keeps owned _ _ => exact alone owned
      | frees _ released _ => exact absurd owns released
    intro thread other owns owns'
    by_cases self : thread = s.running <;> by_cases self' : other = s.running
    · exact self.trans self'.symm
    · subst self
      rw [s.become_task_self] at owns
      rw [others other self'] at owns'
      exact absurd owns' (only owns other self')
    · subst self'
      rw [s.become_task_self] at owns'
      rw [others thread self] at owns
      exact absurd owns (only owns' thread self)
    · rw [others thread self] at owns
      rw [others other self'] at owns'
      exact knows.owner thread other owns owns'
  · intro away
    have selfAway := away s.running
    rw [s.become_task_self] at selfAway
    cases effect with
    | quiet same owns =>
        rw [s.become_lock, same]
        refine knows.free fun thread owned => ?_
        by_cases self : thread = s.running
        · subst self
          exact selfAway (owns.mpr owned)
        · exact away thread (by rwa [others thread self])
    | takes _ owner _ => exact absurd owner selfAway
    | keeps _ owner _ => exact absurd owner selfAway
    | frees _ _ free => exact free
  · intro thread atomic
    by_cases self : thread = s.running
    · exact self
    · rw [others thread self] at atomic
      exact absurd atomic (calm thread self)

/-- Switching is possible only where nobody relies on not being interrupted. -/
theorem switchTo {next : Nat} (knows : Knows s) (real : next ≠ 0)
    (yields : s.self.intr = .on ∨ s.self.place = .outside) : Knows (s.switchTo next) := by
  refine ⟨real, knows.null, knows.fits, knows.owner, knows.free, fun thread atomic => ?_⟩
  have self := knows.atomic thread atomic
  subst self
  have off := (knows.fits _ knows.real).off atomic
  rcases yields with on | outside
  · exact absurd (off.symm.trans on) nofun
  · rw [Contention.self] at outside
    simp only [Contention.switchTo, outside] at atomic
    exact atomic.elim

end Knows

namespace Contention

variable {s next : Contention}

/-- The step does not count past 2^32 - 1: the running thread is not about to
store a count that is one more than that. -/
def Counts (s : Contention) : Prop :=
  ∀ number, s.self.place = .storeMore number → number + 1 < 2 ^ 32

/-- The running thread does not come to the check of `spinlock_acquire` while the
lock is taken. -/
def FindsFree (s : Contention) : Prop := s.self.place = .checkHeld → s.lock.locked = 0

/-- What a step that counts right does, whatever the schedule: it keeps the
invariant, and stops the machine only where the check finds the lock taken. -/
theorem Step.keeps (taken : Step s next) (knows : Knows s) (counts : s.Counts) :
    Knows next ∧ (next.halted = none ∨
      next.halted = some (.panic "acquire") ∧ s.self.place = .checkHeld ∧ holding s.lock) := by
  have fits : Fits s.lock s.running s.self := knows.fits s.running knows.real
  cases taken with
  | switch target live real yields => exact ⟨knows.switchTo real yields, .inl live⟩
  | setFlag status live outside =>
      refine ⟨knows.become ?_ (.quiet rfl Iff.rfl), .inl live⟩
      simp only [Fits, outside] at fits ⊢
      exact fits
  | acquire live outside =>
      refine ⟨knows.become ?_ (.quiet rfl ?_), .inl live⟩
      · simp only [Fits, outside] at fits
        exact fits
      · simp [Task.Owns, Task.goto, outside]
  | release live outside some =>
      refine ⟨knows.become ?_ (.quiet rfl ?_), .inl live⟩
      · simp only [Fits, outside, if_neg (Nat.ne_of_gt some)] at fits
        exact ⟨some, fits⟩
      · simp [Task.Owns, Task.goto, outside]
  | advance live inside run =>
      rcases advance_fits knows.real fits inside knows.of_unlocked counts with
        ⟨-, -, panics⟩ | ⟨lk', task', run', fits', effect⟩
      · cases run.symm.trans panics
      · cases run.symm.trans run'
        exact ⟨knows.become fits' effect, .inl live⟩
  | crash live inside run =>
      rcases advance_fits knows.real fits inside knows.of_unlocked counts with
        ⟨check, taken, panics⟩ | ⟨lk', task', run', -⟩
      · cases run.symm.trans panics
        exact ⟨⟨knows.real, knows.null, knows.fits, knows.owner, knows.free, knows.atomic⟩,
          .inr ⟨rfl, check, taken⟩⟩
      · cases run.symm.trans run'

end Contention

/-- The places of the outermost acquire and the final release at which the lock
is written only in part. -/
def Place.Changing : Place → Prop
  | .setHolder | .assertZero | .setOne | .clearNumber | .checkTaken | .exchangeBack => True
  | _ => False

/-- At most one thread has acquired the lock without having released it.  Where
no thread is changing it, the lock is free, or it names that thread and counts
how often it has been acquired. -/
structure Exclusive (s : Contention) : Prop where
  atMostOne : ∀ thread other, 0 < (s.task thread).depth → 0 < (s.task other).depth →
    thread = other
  shape : (∀ thread, ¬(s.task thread).place.Changing) →
    (s.lock.holder = 0 ∧ s.lock.number = 0 ∧ s.lock.locked = 0 ∧
      ∀ thread, (s.task thread).depth = 0) ∨
    ∃ thread, s.lock.holder = thread ∧ s.lock.number = (s.task thread).depth ∧
      0 < (s.task thread).depth ∧ s.lock.locked = 1

/-- A thread that has the lock, and is not changing it, is named by it. -/
theorem Fits.settled {lk : Lock} {thread : Nat} {task : Task} (fits : Fits lk thread task)
    (owns : task.Owns) (steady : ¬task.place.Changing) :
    lk = ⟨1, thread, task.depth⟩ ∧ 0 < task.depth := by
  obtain ⟨place, intr, depth⟩ := task
  have some : 0 < depth := by
    rcases owns with positive | here | here | here
    · exact positive
    all_goals
      have here : place = _ := here
      subst here
      exact absurd trivial steady
  refine ⟨?_, some⟩
  cases place with
  | outside | readHolder => exact (if_neg (Nat.ne_of_gt some)).mp fits
  | pushcli | popcli | checkHeld | exchange => exact absurd fits.1 (Nat.ne_of_gt some)
  | loadNumber | assertHolder | compareNumber | loadAgain => exact fits.2
  | storeMore | storeFewer => exact fits.2.2
  | assertOne | clearHolder =>
      obtain ⟨one, equal⟩ := fits
      rw [equal, one]
  | setHolder | assertZero | setOne | clearNumber | checkTaken | exchangeBack =>
      exact absurd trivial steady

theorem Knows.exclusive {s : Contention} (knows : Knows s) : Exclusive s := by
  constructor
  · intro thread other first second
    exact knows.owner thread other (.inl first) (.inl second)
  · intro steady
    by_cases free : ∀ thread, ¬(s.task thread).Owns
    · have fresh := knows.free free
      exact .inl ⟨by rw [fresh]; rfl, by rw [fresh]; rfl, by rw [fresh]; rfl, fun thread =>
        Nat.eq_zero_of_not_pos fun positive => free thread (.inl positive)⟩
    · obtain ⟨thread, owns⟩ := not_forall_not.mp free
      have nonnull : thread ≠ 0 := fun null => knows.null (null ▸ owns)
      obtain ⟨equal, some⟩ := (knows.fits thread nonnull).settled owns (steady thread)
      exact .inr ⟨thread, by rw [equal], by rw [equal], some, by rw [equal]⟩

/-- Every state of a run that counts right. -/
theorem Knows.of_reachable {s : Contention}
    (reachable : (lockSystem.restrict fun s _ => s.Counts).Reachable s) :
    Knows s ∧ (s.halted = none ∨ s.halted = some (.panic "acquire")) := by
  induction reachable with
  | init fresh => exact ⟨.initial fresh, .inl fresh.2.2.1⟩
  | step _ taken ih =>
      obtain ⟨knows, halted⟩ := taken.1.keeps ih.1 taken.2
      exact ⟨knows, halted.imp_right And.left⟩

theorem panic_ne_assert (text : String) :
    Fault.panic "acquire" ≠ .panic ("assertion failed: " ++ text) := by
  intro equal
  have chars := congrArg String.toList (Fault.panic.inj equal)
  simp at chars

namespace Contention

/-- A fresh lock, with thread 1 on the processor. -/
def fresh : Contention where
  lock := lockInit
  running := 1
  task _ := ⟨.outside, .on, 0⟩
  halted := none

variable {s : Contention} {condition : Contention → Contention → Prop}

theorem reachable_fresh : (lockSystem.restrict condition).Reachable (fresh.become lockInit
    ⟨.outside, .on, 0⟩) := by
  refine .init ⟨rfl, Nat.one_ne_zero, rfl, fun thread => ?_⟩
  by_cases self : thread = 1 <;> simp [become, fresh, self]

/-- One instruction further. -/
theorem reachable_advance {lock lock' : Lock} {task task' : Task} (live : s.halted = none)
    (inside : task.place ≠ .outside)
    (run : Pumelo.advance lock s.running task = .ok (lock', task'))
    (allowed : condition (s.become lock task) (s.become lock' task'))
    (reached : (lockSystem.restrict condition).Reachable (s.become lock task)) :
    (lockSystem.restrict condition).Reachable (s.become lock' task') := by
  have taken : Step (s.become lock task) ((s.become lock task).become lock' task') :=
    .advance live (by rwa [become_self]) (by rwa [become_self])
  rw [become_become] at taken
  exact .step reached ⟨taken, allowed⟩

/-- A thread starts an acquire. -/
theorem reachable_enter {lock : Lock} {task : Task} (live : s.halted = none)
    (outside : task.place = .outside)
    (allowed : condition (s.become lock task) (s.become lock (task.goto .readHolder)))
    (reached : (lockSystem.restrict condition).Reachable (s.become lock task)) :
    (lockSystem.restrict condition).Reachable (s.become lock (task.goto .readHolder)) := by
  have taken : Step (s.become lock task)
      ((s.become lock task).become lock ((s.become lock task).self.goto .readHolder)) :=
    .acquire live (by rwa [become_self])
  rw [become_self, become_become] at taken
  exact .step reached ⟨taken, allowed⟩

/-- Steps that neither count past the bound nor find the lock taken. -/
def Waits (s : Contention) : Prop := s.Counts ∧ s.FindsFree

theorem waits_of {lock : Lock} {task : Task} (few : ∀ number, task.place ≠ .storeMore number)
    (free : task.place = .checkHeld → lock.locked = 0) : (s.become lock task).Waits := by
  constructor
  · intro number place
    rw [become_self] at place
    exact absurd place (few number)
  · intro place
    rw [become_self] at place
    exact free place

/-- An acquire of a free lock. -/
theorem reachable_acquired (live : s.halted = none) (real : s.running ≠ 0)
    (reached : (lockSystem.restrict fun s _ => s.Waits).Reachable
      (s.become lockInit ⟨.outside, .on, 0⟩)) :
    (lockSystem.restrict fun s _ => s.Waits).Reachable
      (s.become ⟨1, s.running, 1⟩ ⟨.outside, .off, 1⟩) := by
  have other : (0 : Nat) ≠ s.running := real.symm
  have enters := reachable_enter live rfl (waits_of (by simp) (by simp)) reached
  have reads : (lockSystem.restrict _).Reachable (s.become lockInit ⟨.pushcli, .on, 0⟩) :=
    reachable_advance live (by simp) (by simp [Pumelo.advance, Task.goto, lockInit, other])
      (waits_of (by simp) (by simp)) enters
  have masks : (lockSystem.restrict _).Reachable (s.become lockInit ⟨.checkHeld, .off, 0⟩) :=
    reachable_advance live (by simp) rfl (waits_of (by simp) (by simp)) reads
  have checks : (lockSystem.restrict _).Reachable (s.become lockInit ⟨.exchange, .off, 0⟩) :=
    reachable_advance live (by simp) rfl (waits_of (by simp) fun _ => rfl) masks
  have takes : (lockSystem.restrict _).Reachable (s.become ⟨1, 0, 0⟩ ⟨.setHolder, .off, 0⟩) :=
    reachable_advance live (by simp) rfl (waits_of (by simp) (by simp)) checks
  have names : (lockSystem.restrict _).Reachable
      (s.become ⟨1, s.running, 0⟩ ⟨.assertZero, .off, 0⟩) :=
    reachable_advance live (by simp) rfl (waits_of (by simp) (by simp)) takes
  have asserts : (lockSystem.restrict _).Reachable
      (s.become ⟨1, s.running, 0⟩ ⟨.setOne, .off, 0⟩) :=
    reachable_advance live (by simp) rfl (waits_of (by simp) (by simp)) names
  exact reachable_advance live (by simp) rfl (waits_of (by simp) (by simp)) asserts

/-- Acquires without end, by one thread. -/
theorem reachable_nested (depth : Nat) : (lockSystem.restrict fun _ _ => True).Reachable
    (fresh.become ⟨1, 1, (depth + 1) % 2 ^ 32⟩ ⟨.outside, .off, depth + 1⟩) := by
  induction depth with
  | zero => exact (reachable_acquired rfl Nat.one_ne_zero reachable_fresh).mono fun _ _ _ => trivial
  | succ depth ih =>
      have enters := reachable_enter rfl rfl trivial ih
      have reads : (lockSystem.restrict _).Reachable (fresh.become ⟨1, 1, (depth + 1) % 2 ^ 32⟩
          ⟨.loadNumber, .off, depth + 1⟩) := reachable_advance rfl (by simp) rfl trivial enters
      have loads : (lockSystem.restrict _).Reachable (fresh.become ⟨1, 1, (depth + 1) % 2 ^ 32⟩
          ⟨.storeMore ((depth + 1) % 2 ^ 32), .off, depth + 1⟩) :=
        reachable_advance rfl (by simp) rfl trivial reads
      have stores : (lockSystem.restrict fun _ _ => True).Reachable _ :=
        reachable_advance rfl (by simp) rfl trivial loads
      rwa [Nat.mod_add_mod] at stores

end Contention

/-- **Mutual exclusion.**  Under every schedule of any number of threads the lock
excludes and represents what it should, and no assertion about it fails, as long
as no thread has it acquired 2^32 times at once. -/
theorem lock_exclusive {s : Contention}
    (reachable : (lockSystem.restrict fun s _ => s.Counts).Reachable s) :
    Exclusive s ∧ ∀ text, s.halted ≠ some (.panic ("assertion failed: " ++ text)) := by
  obtain ⟨knows, halted⟩ := Knows.of_reachable reachable
  refine ⟨knows.exclusive, fun text failed => ?_⟩
  rcases halted with live | panics
  · cases live.symm.trans failed
  · exact panic_ne_assert text (Option.some.inj (panics.symm.trans failed))

/-- One thread that has acquired the lock. -/
theorem lock_exclusive_acquired :
    Exclusive (Contention.fresh.become ⟨1, 1, 1⟩ ⟨.outside, .off, 1⟩) :=
  (lock_exclusive ((Contention.reachable_acquired rfl Nat.one_ne_zero
    Contention.reachable_fresh).mono fun _ _ waits => waits.1)).1

/-- A thread that acquires the lock 2^32 times makes its number 0 again. -/
theorem lock_not_exclusive : ¬∀ s, lockSystem.Reachable s → s.halted = none → Exclusive s := by
  intro always
  have reached := (Contention.reachable_nested (2 ^ 32 - 1)).of_restrict
  have depth : ∀ thread, thread ≠ 1 → ((Contention.fresh.become ⟨1, 1, (2 ^ 32 - 1 + 1) % 2 ^ 32⟩
      ⟨.outside, .off, 2 ^ 32 - 1 + 1⟩).task thread).depth = 0 := by
    intro thread other
    rw [Contention.become_task_of_ne _ _ _ other]
    rfl
  have steady : ∀ thread, ¬((Contention.fresh.become ⟨1, 1, (2 ^ 32 - 1 + 1) % 2 ^ 32⟩
      ⟨.outside, .off, 2 ^ 32 - 1 + 1⟩).task thread).place.Changing := by
    intro thread
    by_cases self : thread = 1
    · subst self
      exact id
    · rw [Contention.become_task_of_ne _ _ _ self]
      exact id
  rcases (always _ reached rfl).shape steady with ⟨-, -, unlocked, -⟩ | ⟨thread, -, number, some, -⟩
  · exact Nat.one_ne_zero unlocked
  · rw [← number] at some
    exact absurd some (by decide)

/-- Neither panic of the spin lock is reached, and a thread that gets the lock
gets it after whoever had it has given it back: no two have it at once. -/
structure Patient (s : Contention) : Prop where
  acquire : s.halted ≠ some (.panic "acquire")
  release : s.halted ≠ some (.panic "release")
  oneOwner : ∀ thread other, (s.task thread).Owns → (s.task other).Owns → thread = other

/-- **Contention.**  A run in which no thread comes to the check of
`spinlock_acquire` while the lock is taken does not panic; a thread gets the lock
only once it has been given back. -/
theorem lock_patient {s : Contention}
    (reachable : (lockSystem.restrict fun s _ => s.Waits).Reachable s) : Patient s := by
  have live : Knows s ∧ s.halted = none := by
    induction reachable with
    | init fresh => exact ⟨.initial fresh, fresh.2.2.1⟩
    | step _ taken ih =>
        obtain ⟨step, counts, findsFree⟩ := taken
        obtain ⟨knows, halted⟩ := step.keeps ih.1 counts
        refine ⟨knows, halted.resolve_right ?_⟩
        rintro ⟨-, check, held⟩
        exact held (findsFree check)
  obtain ⟨knows, halted⟩ := live
  constructor
  · rw [halted]
    exact nofun
  · rw [halted]
    exact nofun
  · exact knows.owner

/-- One thread that has acquired the lock. -/
theorem lock_patient_acquired :
    Patient (Contention.fresh.become ⟨1, 1, 1⟩ ⟨.outside, .off, 1⟩) :=
  lock_patient (Contention.reachable_acquired rfl Nat.one_ne_zero Contention.reachable_fresh)

/-- A thread that waits for the disk with the channel's lock held, as `ide_read`
does, and a second one that wants the lock meanwhile: the second panics. -/
theorem lock_not_patient : ¬∀ s, lockSystem.Reachable s → Patient s := by
  intro always
  have acquired : (lockSystem.restrict fun _ _ => True).Reachable _ :=
    (Contention.reachable_acquired rfl Nat.one_ne_zero Contention.reachable_fresh).mono
      fun _ _ _ => trivial
  have blocks := acquired.step ⟨.switch 2 rfl (by decide) (.inr rfl), trivial⟩
  have enters := blocks.step ⟨.acquire rfl rfl, trivial⟩
  have reads := enters.step ⟨.advance rfl (by decide) rfl, trivial⟩
  have masks := reads.step ⟨.advance rfl (by decide) rfl, trivial⟩
  have panics := masks.step ⟨.crash rfl (by decide) rfl, trivial⟩
  exact (always _ panics.of_restrict).acquire rfl

end Pumelo
