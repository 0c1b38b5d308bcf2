import Pumelo.Machine

/-!
# Interrupt flag and locks

`intr.c`, `spinlock.c` and the locks of `sync.c`.  A lock is re-entrant for its
holder; the outermost acquire turns interrupts off and the final release turns
them on.
-/

namespace Pumelo

open Foundation

/-- `intr_enable`, with the status before. -/
def intrEnable (m : Machine) : IntrStatus × Machine :=
  match m.intr with
  | .on => (.on, m)
  | .off => (.off, { m with intr := .on })

/-- `intr_disable`, with the status before. -/
def intrDisable (m : Machine) : IntrStatus × Machine :=
  match m.intr with
  | .on => (.on, { m with intr := .off })
  | .off => (.off, m)

/-- `get_intr_status` -/
def getIntrStatus (m : Machine) : IntrStatus := m.intr

/-- `set_intr_status` -/
def setIntrStatus (m : Machine) (status : IntrStatus) : IntrStatus × Machine :=
  match status with
  | .on => intrEnable m
  | .off => intrDisable m

theorem intrDisable_eq (m : Machine) : intrDisable m = (m.intr, { m with intr := .off }) := by
  unfold intrDisable
  split
  · next equal => rw [equal]
  · next equal => rw [equal, ← equal]

theorem setIntrStatus_eq (m : Machine) (status : IntrStatus) :
    (setIntrStatus m status).2 = { m with intr := status } := by
  cases status with
  | on =>
      simp only [setIntrStatus, intrEnable]
      split
      · next equal => rw [← equal]
      · rfl
  | off => simp only [setIntrStatus, intrDisable_eq]

/-- Code bracketed by `intr_disable` and `set_intr_status` that leaves the flag
off returns with the flag it was entered with. -/
def withIntrDisabled (m : Machine) (body : Machine → Machine) : Machine :=
  let (oldStatus, m) := intrDisable m
  (setIntrStatus (body m) oldStatus).2

theorem withIntrDisabled_mem (m : Machine) (change : Bytes → Bytes) :
    withIntrDisabled m (fun m => { m with mem := change m.mem }) =
      { m with mem := change m.mem } := by
  simp only [withIntrDisabled, intrDisable_eq, setIntrStatus_eq]

/-- `pushcli` -/
def pushcli (m : Machine) : Machine := { m with intr := .off }

/-- `popcli` -/
def popcli (m : Machine) : Machine := { m with intr := .on }

/-- `holding`: whether the lock is taken, by whomever. -/
def holding (lk : Lock) : Prop := lk.locked ≠ 0

instance (lk : Lock) : Decidable (holding lk) := inferInstanceAs (Decidable (_ ≠ _))

/-- `spinlock_acquire`. Past the check the lock is free, so that the `xchg` loop
ends with its first exchange. -/
def spinlockAcquire (m : Machine) (lk : Lock) : Except Fault (Lock × Machine) :=
  let m := pushcli m
  if holding lk then .error (.panic "acquire")
  else .ok ({ lk with locked := 1 }, m)

/-- `spinlock_release` -/
def spinlockRelease (m : Machine) (lk : Lock) : Except Fault (Lock × Machine) :=
  if ¬holding lk then .error (.panic "release")
  else .ok ({ lk with locked := 0 }, popcli m)

/-- `lock_init` -/
def lockInit : Lock := { locked := 0, holder := 0, number := 0 }

/-- `lock_acquire` -/
def lockAcquire (m : Machine) (lk : Lock) : Except Fault (Lock × Machine) :=
  if lk.holder ≠ m.runningThread then do
    let (lk, m) ← spinlockAcquire m lk
    let lk := { lk with holder := m.runningThread }
    assert (lk.number = 0) "lk->number == 0"
    return ({ lk with number := 1 }, m)
  else
    .ok ({ lk with number := (lk.number + 1) % 2 ^ 32 }, m)

/-- `lock_release` -/
def lockRelease (m : Machine) (lk : Lock) : Except Fault (Lock × Machine) := do
  assert (lk.holder = m.runningThread) "lk->holder == running_thread()"
  if lk.number > 1 then
    return ({ lk with number := lk.number - 1 }, m)
  assert (lk.number = 1) "lk->number == 1"
  spinlockRelease m { lk with holder := 0, number := 0 }

/-- `lock_acquire` changes nothing of the machine but the interrupt flag. -/
theorem lockAcquire_machine {m m' : Machine} {lk lk' : Lock}
    (run : lockAcquire m lk = .ok (lk', m')) : m' = { m with intr := m'.intr } := by
  unfold lockAcquire at run
  split at run
  · obtain ⟨⟨taken, inside⟩, acquired, rest⟩ := bind_eq_ok.mp run
    obtain ⟨_, -, result⟩ := bind_eq_ok.mp rest
    unfold spinlockAcquire at acquired
    split at acquired
    · cases acquired
    · cases acquired
      cases result
      rfl
  · cases run
    rfl

/-- `lock_release` changes nothing of the machine but the interrupt flag. -/
theorem lockRelease_machine {m m' : Machine} {lk lk' : Lock}
    (run : lockRelease m lk = .ok (lk', m')) : m' = { m with intr := m'.intr } := by
  obtain ⟨_, -, rest⟩ := bind_eq_ok.mp run
  split at rest
  · cases rest
    rfl
  · obtain ⟨_, -, released⟩ := bind_eq_ok.mp rest
    unfold spinlockRelease at released
    split at released
    · cases released
    · cases released
      rfl

/-- A lock a thread has taken once. -/
def Lock.heldBy (thread : Nat) : Lock := { locked := 1, holder := thread, number := 1 }

/-- Taking a free lock succeeds and turns interrupts off. -/
theorem lockAcquire_free {m : Machine} (thread : m.running ≠ 0) :
    lockAcquire m lockInit = .ok (Lock.heldBy m.running, { m with intr := .off }) := by
  have other : (lockInit).holder ≠ m.runningThread := fun equal => thread equal.symm
  simp only [lockAcquire, if_pos other]
  rfl

/-- The matching release frees the lock and turns interrupts on. -/
theorem lockRelease_heldBy (m : Machine) :
    lockRelease m (Lock.heldBy m.running) = .ok (lockInit, { m with intr := .on }) := by
  simp [lockRelease, Lock.heldBy, Machine.runningThread, assert, spinlockRelease, holding,
    lockInit, popcli, Bind.bind, Except.bind]

end Pumelo
