import Pumelo.List

/-!
# Interrupts under nested locks

What one thread does to the interrupt flag when it nests locks, stretches of code
under `intr_disable` and list operations.  `intr_disable` and `set_intr_status`
save the flag and put it back; `pushcli` and `popcli` force it off and on.  The
two families compose exactly where each outermost lock is taken with interrupts
on and nothing but that lock is taken under it.
-/

namespace Pumelo

open Foundation

/-- A call of one of the list functions.  A `query` is a call of one that only
reads, as `list_find`, `list_len` and `list_empty` do. -/
inductive ListCall where
  | init (plist : Nat)
  | insertBefore (before elem : Nat)
  | push (plist elem : Nat)
  | append (plist elem : Nat)
  | remove (elem : Nat)
  | pop (plist : Nat)
  | query

/-- The machine after a list call. -/
def ListCall.run (m : Machine) : ListCall → Machine
  | .init plist => listInit m plist
  | .insertBefore before elem => listInsertBefore m before elem
  | .push plist elem => listPush m plist elem
  | .append plist elem => listAppend m plist elem
  | .remove elem => listRemove m elem
  | .pop plist => (listPop m plist).2
  | .query => m

/-- What a thread does, with brackets matched: between `lock_acquire` and the
matching `lock_release`, and between `intr_disable` and the `set_intr_status`
that is given its result, stands a body that is itself properly nested. -/
inductive Code where
  | done
  | list (call : ListCall) (rest : Code)
  | disabled (body rest : Code)
  | locked (lock : Nat) (body rest : Code)

namespace Code

/-- Whether the code takes a lock. -/
def Takes (query : Nat) : Code → Prop
  | .done => False
  | .list _ rest => rest.Takes query
  | .disabled body rest => body.Takes query ∨ rest.Takes query
  | .locked lock body rest => lock = query ∨ body.Takes query ∨ rest.Takes query

/-- How many acquires are open at once, at most. -/
def nesting : Code → Nat
  | .done => 0
  | .list _ rest => rest.nesting
  | .disabled body rest => max body.nesting rest.nesting
  | .locked _ body rest => max (body.nesting + 1) rest.nesting

end Code

/-- What the thread works on. -/
structure Scene where
  machine : Machine
  locks : Nat → Lock

namespace Scene

/-- The scene after a call that does not touch the locks. -/
def onMachine (s : Scene) (change : Machine → Machine) : Scene :=
  { s with machine := change s.machine }

/-- The scene with the result of a call on one lock. -/
def withLock (s : Scene) (lock : Nat) (result : Lock × Machine) : Scene where
  machine := result.2
  locks query := if query = lock then result.1 else s.locks query

/-- `lock_acquire(&lock)` -/
def acquire (s : Scene) (lock : Nat) : Except Fault Scene := do
  return s.withLock lock (← lockAcquire s.machine (s.locks lock))

/-- `lock_release(&lock)` -/
def release (s : Scene) (lock : Nat) : Except Fault Scene := do
  return s.withLock lock (← lockRelease s.machine (s.locks lock))

end Scene

/-- What is to be seen between two calls: how many acquires are open, and the
interrupt flag. -/
structure Point where
  depth : Nat
  intr : IntrStatus
  deriving DecidableEq, Repr

/-- The point a thread has reached. -/
def Scene.point (s : Scene) (depth : Nat) : Point := ⟨depth, s.machine.intr⟩

/-- Run the code with `depth` acquires open, and note the point after each call.
No function sets the flag before its last instruction, other than to turn it off
first, so that a thread sees no other values than these. -/
def Code.exec : Code → (depth : Nat) → Scene → Except Fault (Scene × List Point)
  | .done, _, s => .ok (s, [])
  | .list call rest, depth, s => do
      let s := s.onMachine call.run
      let (last, later) ← rest.exec depth s
      return (last, s.point depth :: later)
  | .disabled body rest, depth, s => do
      let oldStatus := (intrDisable s.machine).1
      let s := s.onMachine fun m => (intrDisable m).2
      let (inner, within) ← body.exec depth s
      let after := inner.onMachine fun m => (setIntrStatus m oldStatus).2
      let (last, later) ← rest.exec depth after
      return (last, s.point depth :: within ++ after.point depth :: later)
  | .locked lock body rest, depth, s => do
      let s ← s.acquire lock
      let (inner, within) ← body.exec (depth + 1) s
      let after ← inner.release lock
      let (last, later) ← rest.exec depth after
      return (last, s.point (depth + 1) :: within ++ after.point depth :: later)

/-- Where the last lock is released, the flag has the value it had before the
first was taken.  `outside` is the flag at the last point without a lock, and
`inside` tells whether a lock has been taken since. -/
def Restored (outside : IntrStatus) (inside : Bool) : List Point → Prop
  | [] => True
  | point :: later =>
      if point.depth = 0 then
        (inside = true → point.intr = outside) ∧ Restored point.intr false later
      else
        Restored outside true later

/-- Interrupts are off wherever a lock is held, and come back as they were. -/
def Disciplined (entry : IntrStatus) (points : List Point) : Prop :=
  (∀ point ∈ points, point.depth ≠ 0 → point.intr = .off) ∧ Restored entry false points

/-- The code never takes another lock than this one. -/
def Code.Only (lock : Nat) : Code → Prop
  | .done => True
  | .list _ rest => rest.Only lock
  | .disabled body rest => body.Only lock ∧ rest.Only lock
  | .locked taken body rest => taken = lock ∧ body.Only lock ∧ rest.Only lock

/-- Code whose two ways of treating the flag compose when it is entered with a
given flag: an outermost lock is taken with interrupts on, and under it no other
lock is taken, and itself fewer than 2^32 times at once. -/
def Code.Composes (entry : IntrStatus) : Code → Prop
  | .done => True
  | .list _ rest => rest.Composes entry
  | .disabled body rest => body.Composes .off ∧ rest.Composes entry
  | .locked lock body rest =>
      entry = .on ∧ body.Only lock ∧ body.nesting + 1 < 2 ^ 32 ∧ rest.Composes entry

/-- A lock a thread has taken some number of times. -/
def Lock.held (thread number : Nat) : Lock := { locked := 1, holder := thread, number := number }

section

variable {m : Machine} {number : Nat}

theorem lockAcquire_held (m : Machine) (number : Nat) :
    lockAcquire m (Lock.held m.running number) =
      .ok (Lock.held m.running ((number + 1) % 2 ^ 32), m) := by
  simp [lockAcquire, Lock.held, Machine.runningThread]

theorem lockRelease_held (more : 1 < number) :
    lockRelease m (Lock.held m.running number) = .ok (Lock.held m.running (number - 1), m) := by
  have holder : (Lock.held m.running number).holder = m.runningThread := rfl
  have counted : (Lock.held m.running number).number > 1 := more
  rw [lockRelease, bind_ok (assert_of holder _), if_pos counted]
  rfl

/-- A thread whose count has wrapped to zero cannot release. -/
theorem lockRelease_zero : ∀ result, lockRelease m (Lock.held m.running 0) ≠ .ok result := by
  intro result run
  obtain ⟨_, -, rest⟩ := bind_eq_ok.mp run
  obtain ⟨_, isOne, -⟩ := bind_eq_ok.mp rest
  exact Nat.zero_ne_one (assert_eq_ok.mp isOne)

/-- A thread cannot release a free lock. -/
theorem lockRelease_free (thread : m.running ≠ 0) :
    ∀ result, lockRelease m lockInit ≠ .ok result := by
  intro result run
  obtain ⟨_, isHolder, -⟩ := bind_eq_ok.mp run
  exact thread (assert_eq_ok.mp isHolder).symm

end

/-- What properly nested code may do to a lock it has the use of: a free lock is
free again, a lock held once or more is held as often, and from a count that has
wrapped to zero there is no way back to a count that is right. -/
structure Balanced (thread : Nat) (before after : Lock) : Prop where
  free : before = lockInit → after = lockInit
  held : ∀ number, 0 < number → number < 2 ^ 32 → before = Lock.held thread number →
    after = Lock.held thread number
  wrapped : before = Lock.held thread 0 → after = Lock.held thread 0 ∨ after = lockInit

namespace Balanced

variable {thread : Nat} {before after middle : Lock} {m m' n n' : Machine}

theorem refl (thread : Nat) (lk : Lock) : Balanced thread lk lk :=
  ⟨id, fun _ _ _ equal => equal, .inl⟩

theorem trans (first : Balanced thread before middle) (second : Balanced thread middle after) :
    Balanced thread before after := by
  constructor
  · intro free
    exact second.free (first.free free)
  · intro number positive small equal
    exact second.held number positive small (first.held number positive small equal)
  · intro equal
    rcases first.wrapped equal with zero | free
    · exact second.wrapped zero
    · exact .inr (second.free free)

/-- An acquire and its release around balanced code are balanced. -/
theorem bracket {taken left : Lock} (real : thread ≠ 0)
    (acquired : lockAcquire m before = .ok (taken, m')) (within : Balanced thread taken left)
    (released : lockRelease n left = .ok (after, n')) (acquirer : m.running = thread)
    (releaser : n.running = thread) : Balanced thread before after := by
  have once : taken = Lock.held thread 1 → after = lockInit := by
    intro equal
    rw [within.held 1 (by decide) (by decide) equal, ← releaser] at released
    have run := lockRelease_heldBy n
    simp only [Lock.heldBy] at run
    simp only [Lock.held, run, Except.ok.injEq, Prod.mk.injEq] at released
    exact released.1.symm
  have fromHeld : ∀ number, before = Lock.held thread number →
      taken = Lock.held thread ((number + 1) % 2 ^ 32) := by
    intro number equal
    rw [equal, ← acquirer, lockAcquire_held, Except.ok.injEq, Prod.mk.injEq] at acquired
    rw [← acquirer, acquired.1]
  constructor
  · intro free
    rw [free, lockAcquire_free (acquirer ▸ real), Except.ok.injEq, Prod.mk.injEq] at acquired
    exact once (by rw [← acquired.1, acquirer]; rfl)
  · intro number positive small equal
    have taken_eq := fromHeld number equal
    by_cases wraps : number + 1 = 2 ^ 32
    · rw [wraps, Nat.mod_self] at taken_eq
      rcases within.wrapped taken_eq with zero | free
      · exact absurd (releaser.symm ▸ zero ▸ released) (lockRelease_zero _)
      · exact absurd (free ▸ released) (lockRelease_free (releaser ▸ real) _)
    · rw [Nat.mod_eq_of_lt (by omega)] at taken_eq
      have left_eq := within.held (number + 1) (by omega) (by omega) taken_eq
      rw [left_eq, ← releaser, lockRelease_held (by omega), Except.ok.injEq,
        Prod.mk.injEq] at released
      rw [← released.1, releaser, Nat.add_sub_cancel]
  · intro equal
    exact .inr (once (fromHeld 0 equal))

end Balanced

namespace ListCall

variable (call : ListCall) (m : Machine)

@[simp] theorem run_intr : (call.run m).intr = m.intr := by
  cases call <;> simp [run, listInit, listPush, listAppend, listPop]

@[simp] theorem run_running : (call.run m).running = m.running := by
  cases call <;> simp [run, listInit, listPush, listAppend, listPop]

end ListCall

namespace Scene

variable {s t : Scene} {lock query : Nat}

@[simp] theorem onMachine_machine (s : Scene) (change : Machine → Machine) :
    (s.onMachine change).machine = change s.machine := rfl

@[simp] theorem onMachine_locks (s : Scene) (change : Machine → Machine) :
    (s.onMachine change).locks = s.locks := rfl

@[simp] theorem withLock_machine (s : Scene) (lock : Nat) (result : Lock × Machine) :
    (s.withLock lock result).machine = result.2 := rfl

@[simp] theorem withLock_self (s : Scene) (lock : Nat) (result : Lock × Machine) :
    (s.withLock lock result).locks lock = result.1 := if_pos rfl

theorem withLock_of_ne (s : Scene) (result : Lock × Machine) (other : query ≠ lock) :
    (s.withLock lock result).locks query = s.locks query := if_neg other

theorem acquire_ok : s.acquire lock = .ok t ↔
    ∃ result, lockAcquire s.machine (s.locks lock) = .ok result ∧ s.withLock lock result = t := by
  simp only [acquire, bind_eq_ok, pure_eq_ok, Except.ok.injEq]

theorem release_ok : s.release lock = .ok t ↔
    ∃ result, lockRelease s.machine (s.locks lock) = .ok result ∧ s.withLock lock result = t := by
  simp only [release, bind_eq_ok, pure_eq_ok, Except.ok.injEq]

end Scene

theorem lockAcquire_running {m m' : Machine} {lk lk' : Lock}
    (run : lockAcquire m lk = .ok (lk', m')) : m'.running = m.running := by
  rw [lockAcquire_machine run]

theorem lockRelease_running {m m' : Machine} {lk lk' : Lock}
    (run : lockRelease m lk = .ok (lk', m')) : m'.running = m.running := by
  rw [lockRelease_machine run]

/-! ## What a run is made of -/

namespace Code

variable {call : ListCall} {body rest code : Code} {lock depth : Nat} {s last : Scene}
  {points : List Point}

theorem exec_list : (Code.list call rest).exec depth s = .ok (last, points) ↔
    ∃ later, rest.exec depth (s.onMachine call.run) = .ok (last, later) ∧
      points = (s.onMachine call.run).point depth :: later := by
  simp only [exec, bind_eq_ok, pure_eq_ok, Except.ok.injEq, Prod.mk.injEq, Prod.exists]
  constructor
  · rintro ⟨final, later, run, rfl, rfl⟩
    exact ⟨later, run, rfl⟩
  · rintro ⟨later, run, rfl⟩
    exact ⟨last, later, run, rfl, rfl⟩

/-- The scene inside a stretch with interrupts off. -/
def off (s : Scene) : Scene := s.onMachine fun m => (intrDisable m).2

/-- The scene behind it. -/
def back (s inner : Scene) : Scene :=
  inner.onMachine fun m => (setIntrStatus m (intrDisable s.machine).1).2

theorem exec_disabled : (Code.disabled body rest).exec depth s = .ok (last, points) ↔
    ∃ inner within later, body.exec depth (off s) = .ok (inner, within) ∧
      rest.exec depth (back s inner) = .ok (last, later) ∧
      points = (off s).point depth :: within ++ (back s inner).point depth :: later := by
  simp only [exec, bind_eq_ok, pure_eq_ok, Except.ok.injEq, Prod.mk.injEq, Prod.exists]
  constructor
  · rintro ⟨inner, within, bodyRun, final, later, restRun, rfl, rfl⟩
    exact ⟨inner, within, later, bodyRun, restRun, rfl⟩
  · rintro ⟨inner, within, later, bodyRun, restRun, rfl⟩
    exact ⟨inner, within, bodyRun, last, later, restRun, rfl, rfl⟩

theorem exec_locked : (Code.locked lock body rest).exec depth s = .ok (last, points) ↔
    ∃ taken inner within after later, s.acquire lock = .ok taken ∧
      body.exec (depth + 1) taken = .ok (inner, within) ∧ inner.release lock = .ok after ∧
      rest.exec depth after = .ok (last, later) ∧
      points = taken.point (depth + 1) :: within ++ after.point depth :: later := by
  simp only [exec, bind_eq_ok, pure_eq_ok, Except.ok.injEq, Prod.mk.injEq, Prod.exists]
  constructor
  · rintro ⟨taken, acquired, inner, within, bodyRun, after, released, final, later, restRun,
      rfl, rfl⟩
    exact ⟨taken, inner, within, after, later, acquired, bodyRun, released, restRun, rfl⟩
  · rintro ⟨taken, inner, within, after, later, acquired, bodyRun, released, restRun, rfl⟩
    exact ⟨taken, acquired, inner, within, bodyRun, after, released, last, later, restRun,
      rfl, rfl⟩

@[simp] theorem off_intr (s : Scene) : (off s).machine.intr = .off := by
  simp [off, intrDisable_eq]

@[simp] theorem back_intr (s inner : Scene) :
    (back s inner).machine.intr = s.machine.intr := by
  simp [back, intrDisable_eq, setIntrStatus_eq]

@[simp] theorem off_running (s : Scene) : (off s).machine.running = s.machine.running := by
  simp [off, intrDisable_eq]

@[simp] theorem back_running (s inner : Scene) :
    (back s inner).machine.running = inner.machine.running := by
  simp [back, setIntrStatus_eq]

@[simp] theorem off_locks (s : Scene) : (off s).locks = s.locks := rfl

@[simp] theorem back_locks (s inner : Scene) : (back s inner).locks = inner.locks := rfl

theorem acquire_running {taken : Scene} (run : s.acquire lock = .ok taken) :
    taken.machine.running = s.machine.running := by
  obtain ⟨result, acquired, rfl⟩ := Scene.acquire_ok.mp run
  exact lockAcquire_running acquired

theorem release_running {after : Scene} (run : s.release lock = .ok after) :
    after.machine.running = s.machine.running := by
  obtain ⟨result, released, rfl⟩ := Scene.release_ok.mp run
  exact lockRelease_running released

/-- The same thread runs to the end. -/
theorem exec_running (run : code.exec depth s = .ok (last, points)) :
    last.machine.running = s.machine.running := by
  induction code generalizing depth s last points with
  | done => cases run; rfl
  | list call rest ih =>
      obtain ⟨later, restRun, -⟩ := exec_list.mp run
      simpa using ih restRun
  | disabled body rest ihBody ihRest =>
      obtain ⟨inner, within, later, bodyRun, restRun, -⟩ := exec_disabled.mp run
      simpa [ihBody bodyRun] using ihRest restRun
  | locked lock body rest ihBody ihRest =>
      obtain ⟨taken, inner, within, after, later, acquired, bodyRun, released, restRun, -⟩ :=
        exec_locked.mp run
      rw [ihRest restRun, release_running released, ihBody bodyRun, acquire_running acquired]

/-- Every lock is treated in a balanced way. -/
theorem exec_balanced (real : s.machine.running ≠ 0)
    (run : code.exec depth s = .ok (last, points)) (query : Nat) :
    Balanced s.machine.running (s.locks query) (last.locks query) := by
  induction code generalizing depth s last points with
  | done => cases run; exact .refl _ _
  | list call rest ih =>
      obtain ⟨later, restRun, -⟩ := exec_list.mp run
      simpa using ih (by simpa using real) restRun
  | disabled body rest ihBody ihRest =>
      obtain ⟨inner, within, later, bodyRun, restRun, -⟩ := exec_disabled.mp run
      have innerRunning := exec_running bodyRun
      have first := ihBody (by simpa using real) bodyRun
      have second := ihRest (by simpa [innerRunning] using real) restRun
      simp only [off_running, off_locks] at first innerRunning
      simp only [back_running, back_locks, innerRunning] at second
      exact first.trans second
  | locked lock body rest ihBody ihRest =>
      obtain ⟨taken, inner, within, after, later, acquired, bodyRun, released, restRun, -⟩ :=
        exec_locked.mp run
      have takenRunning := acquire_running acquired
      have innerRunning := exec_running bodyRun
      have afterRunning := release_running released
      have middle := ihBody (by rwa [takenRunning]) bodyRun
      have second := ihRest (by rwa [afterRunning, innerRunning, takenRunning]) restRun
      rw [takenRunning] at middle innerRunning
      rw [afterRunning, innerRunning] at second
      refine Balanced.trans ?_ second
      obtain ⟨⟨takenLock, takenMachine⟩, acquireRun, rfl⟩ := Scene.acquire_ok.mp acquired
      obtain ⟨⟨afterLock, afterMachine⟩, releaseRun, rfl⟩ := Scene.release_ok.mp released
      by_cases same : query = lock
      · subst same
        rw [Scene.withLock_self] at middle ⊢
        exact middle.bracket real acquireRun releaseRun rfl innerRunning
      · rw [Scene.withLock_of_ne _ _ same] at middle ⊢
        exact middle

/-- With a lock held, every point is one with a lock held. -/
theorem exec_depth (run : code.exec depth s = .ok (last, points)) :
    ∀ point ∈ points, depth ≤ point.depth := by
  induction code generalizing depth s last points with
  | done => cases run; simp
  | list call rest ih =>
      obtain ⟨later, restRun, rfl⟩ := exec_list.mp run
      simpa [Scene.point] using ih restRun
  | disabled body rest ihBody ihRest =>
      obtain ⟨inner, within, later, bodyRun, restRun, rfl⟩ := exec_disabled.mp run
      have first := ihBody bodyRun
      have second := ihRest restRun
      simp only [List.cons_append, List.forall_mem_cons, List.forall_mem_append, Scene.point]
      exact ⟨le_refl depth, first, le_refl depth, second⟩
  | locked lock body rest ihBody ihRest =>
      obtain ⟨taken, inner, within, after, later, -, bodyRun, -, restRun, rfl⟩ :=
        exec_locked.mp run
      have first := ihBody bodyRun
      have second := ihRest restRun
      simp only [List.cons_append, List.forall_mem_cons, List.forall_mem_append, Scene.point]
      exact ⟨by omega, fun point member => by have := first point member; omega,
        le_refl depth, second⟩

/-- A run that shows interrupts off everywhere ends with them off. -/
theorem exec_last_off (entry : s.machine.intr = .off)
    (run : code.exec depth s = .ok (last, points)) (dark : ∀ point ∈ points, point.intr = .off) :
    last.machine.intr = .off := by
  induction code generalizing depth s last points with
  | done => cases run; exact entry
  | list call rest ih =>
      obtain ⟨later, restRun, rfl⟩ := exec_list.mp run
      simp only [List.forall_mem_cons, Scene.point] at dark
      exact ih dark.1 restRun dark.2
  | disabled body rest _ ihRest =>
      obtain ⟨inner, within, later, -, restRun, rfl⟩ := exec_disabled.mp run
      simp only [List.cons_append, List.forall_mem_cons, List.forall_mem_append,
        Scene.point] at dark
      exact ihRest dark.2.2.1 restRun dark.2.2.2
  | locked lock body rest _ ihRest =>
      obtain ⟨taken, inner, within, after, later, -, -, -, restRun, rfl⟩ := exec_locked.mp run
      simp only [List.cons_append, List.forall_mem_cons, List.forall_mem_append,
        Scene.point] at dark
      exact ihRest dark.2.2.1 restRun dark.2.2.2

/-- A thread that holds one lock, with interrupts off, where code is to take
locks that are otherwise free. -/
structure Under (s : Scene) (lock number : Nat) (code : Code) : Prop where
  real : s.machine.running ≠ 0
  held : s.locks lock = Lock.held s.machine.running number
  positive : 0 < number
  small : number < 2 ^ 32
  off : s.machine.intr = .off
  free : ∀ query, query ≠ lock → code.Takes query → s.locks query = lockInit

namespace Under

variable {number : Nat}

/-- Balanced code leaves the lock and the free locks as they were. -/
theorem after {next : Code} {before t : Scene} (under : Under before lock number code)
    (running : t.machine.running = before.machine.running) (off : t.machine.intr = .off)
    (balanced : ∀ query, Balanced before.machine.running (before.locks query) (t.locks query))
    (fewer : ∀ query, next.Takes query → code.Takes query) : Under t lock number next where
  real := by rw [running]; exact under.real
  held := by
    rw [running]
    exact (balanced lock).held number under.positive under.small under.held
  positive := under.positive
  small := under.small
  off := off
  free query other takes := (balanced query).free (under.free query other (fewer query takes))

/-- Taking the lock once more counts one more. -/
theorem reacquire {body rest : Code} (under : Under s lock number (.locked lock body rest))
    (room : number + 1 < 2 ^ 32) : ∃ taken, s.acquire lock = .ok taken ∧
      taken.machine = s.machine ∧ Under taken lock (number + 1) body := by
  have run := lockAcquire_held s.machine number
  rw [← under.held, Nat.mod_eq_of_lt room] at run
  refine ⟨_, Scene.acquire_ok.mpr ⟨_, run, rfl⟩, rfl, ?_⟩
  constructor
  · exact under.real
  · rw [Scene.withLock_self]
    rfl
  · exact Nat.succ_pos number
  · exact room
  · exact under.off
  · intro query other takes
    rw [Scene.withLock_of_ne _ _ other]
    exact under.free query other (.inr (.inl takes))

/-- The release that matches it counts one less and leaves the flag alone. -/
theorem rerelease {next : Code} (under : Under s lock (number + 1) code) (more : 0 < number)
    (fewer : ∀ query, query ≠ lock → next.Takes query → s.locks query = lockInit) :
    ∃ after, s.release lock = .ok after ∧ after.machine = s.machine ∧
      Under after lock number next := by
  have run := lockRelease_held (m := s.machine) (show 1 < number + 1 by omega)
  rw [← under.held, Nat.add_sub_cancel] at run
  refine ⟨_, Scene.release_ok.mpr ⟨_, run, rfl⟩, rfl, ?_⟩
  constructor
  · exact under.real
  · rw [Scene.withLock_self]
    rfl
  · exact more
  · exact lt_trans (Nat.lt_succ_self number) under.small
  · exact under.off
  · intro query other takes
    rw [Scene.withLock_of_ne _ _ other]
    exact fewer query other takes

/-- Where the count wraps, the thread does not get through. -/
theorem stuck (under : Under s lock number code) (wraps : number + 1 = 2 ^ 32)
    {taken inner after : Scene} {body : Code} {within : List Point}
    (acquired : s.acquire lock = .ok taken)
    (bodyRun : body.exec (depth + 1) taken = .ok (inner, within))
    (released : inner.release lock = .ok after) : False := by
  have run := lockAcquire_held s.machine number
  rw [← under.held, wraps, Nat.mod_self] at run
  obtain ⟨result, acquireRun, rfl⟩ := Scene.acquire_ok.mp acquired
  rw [run, Except.ok.injEq] at acquireRun
  subst acquireRun
  have balanced := exec_balanced (by exact under.real) bodyRun lock
  have running := exec_running bodyRun
  change inner.machine.running = s.machine.running at running
  rw [Scene.withLock_self] at balanced
  obtain ⟨result, releaseRun, -⟩ := Scene.release_ok.mp released
  rcases balanced.wrapped rfl with zero | free
  · rw [Scene.withLock_machine, ← running] at zero
    exact lockRelease_zero result (zero ▸ releaseRun)
  · exact lockRelease_free (by rw [running]; exact under.real) result (free ▸ releaseRun)

end Under

/-- Taking a free lock turns interrupts off, and its release turns them on. -/
theorem locked_free {body : Code} {taken inner after : Scene} {within : List Point}
    (real : s.machine.running ≠ 0) (free : s.locks lock = lockInit)
    (acquired : s.acquire lock = .ok taken)
    (bodyRun : body.exec (depth + 1) taken = .ok (inner, within))
    (released : inner.release lock = .ok after) :
    taken.machine.intr = .off ∧ after.machine.intr = .on := by
  have run := lockAcquire_free real
  rw [← free] at run
  obtain ⟨result, acquireRun, rfl⟩ := Scene.acquire_ok.mp acquired
  rw [run, Except.ok.injEq] at acquireRun
  subst acquireRun
  have balanced := exec_balanced (by exact real) bodyRun lock
  have running := exec_running bodyRun
  change inner.machine.running = s.machine.running at running
  have once : inner.locks lock = Lock.heldBy inner.machine.running := by
    rw [running]
    exact balanced.held 1 (by decide) (by decide) (by rw [Scene.withLock_self]; rfl)
  obtain ⟨result, releaseRun, rfl⟩ := Scene.release_ok.mp released
  rw [once, lockRelease_heldBy, Except.ok.injEq] at releaseRun
  subst releaseRun
  exact ⟨rfl, rfl⟩

/-- Under a lock, interrupts stay off to the end of the code exactly if it takes
no other lock and the count does not wrap. -/
theorem exec_under {number : Nat} (under : Under s lock number code) :
    (∃ last points, code.exec depth s = .ok (last, points) ∧
      ∀ point ∈ points, point.intr = .off) ↔
      code.Only lock ∧ number + code.nesting < 2 ^ 32 := by
  induction code generalizing depth s number with
  | done =>
      constructor
      · intro _
        exact ⟨trivial, under.small⟩
      · intro _
        exact ⟨s, [], rfl, by simp⟩
  | list call rest ih =>
      have inside : Under (s.onMachine call.run) lock number rest :=
        under.after (by simp) (by simpa using under.off) (fun _ => .refl _ _) (fun _ => id)
      constructor
      · rintro ⟨last, points, run, dark⟩
        obtain ⟨later, restRun, rfl⟩ := exec_list.mp run
        simp only [List.forall_mem_cons] at dark
        exact (ih inside).mp ⟨last, later, restRun, dark.2⟩
      · intro fits
        obtain ⟨last, later, restRun, dark⟩ := (@ih depth _ _ inside).mpr fits
        refine ⟨last, _, exec_list.mpr ⟨later, restRun, rfl⟩, ?_⟩
        simp only [List.forall_mem_cons]
        exact ⟨inside.off, dark⟩
  | disabled body rest ihBody ihRest =>
      have inside : Under (off s) lock number body :=
        under.after (by simp) (by simp) (fun _ => .refl _ _) (fun _ => .inl)
      have behind : ∀ {inner within}, body.exec depth (off s) = .ok (inner, within) →
          Under (back s inner) lock number rest := by
        intro inner within bodyRun
        have running := exec_running bodyRun
        have balanced := exec_balanced inside.real bodyRun
        rw [off_running] at running balanced
        exact under.after (by simpa using running) (by simpa using under.off) balanced
          (fun _ => .inr)
      constructor
      · rintro ⟨last, points, run, dark⟩
        obtain ⟨inner, within, later, bodyRun, restRun, rfl⟩ := exec_disabled.mp run
        simp only [List.cons_append, List.forall_mem_cons, List.forall_mem_append] at dark
        have bodyFits := (ihBody inside).mp ⟨inner, within, bodyRun, dark.2.1⟩
        have restFits := (ihRest (behind bodyRun)).mp ⟨last, later, restRun, dark.2.2.2⟩
        exact ⟨⟨bodyFits.1, restFits.1⟩, by simp only [nesting]; omega⟩
      · rintro ⟨⟨bodyOnly, restOnly⟩, room⟩
        simp only [nesting] at room
        obtain ⟨inner, within, bodyRun, bodyDark⟩ :=
          (@ihBody depth _ _ inside).mpr ⟨bodyOnly, by omega⟩
        obtain ⟨last, later, restRun, restDark⟩ :=
          (@ihRest depth _ _ (behind bodyRun)).mpr ⟨restOnly, by omega⟩
        refine ⟨last, _, exec_disabled.mpr ⟨inner, within, later, bodyRun, restRun, rfl⟩, ?_⟩
        simp only [List.cons_append, List.forall_mem_cons, List.forall_mem_append]
        exact ⟨inside.off, bodyDark, (behind bodyRun).off, restDark⟩
  | locked taken body rest ihBody ihRest =>
      by_cases same : taken = lock
      · subst same
        -- the release leaves the flag as the body does, so the rest is under the lock too
        have behind : ∀ {first inner : Scene} {within}, first.machine = s.machine →
            Under first taken (number + 1) body →
            (∀ query, query ≠ taken → first.locks query = s.locks query) →
            body.exec (depth + 1) first = .ok (inner, within) → inner.machine.intr = .off →
            ∃ after, inner.release taken = .ok after ∧ after.machine = inner.machine ∧
              Under after taken number rest := by
          intro first inner within firstMachine firstUnder others bodyRun dark
          have running := exec_running bodyRun
          have balanced := exec_balanced firstUnder.real bodyRun
          have innerUnder : Under inner taken (number + 1) body :=
            firstUnder.after running dark balanced (fun _ => id)
          refine innerUnder.rerelease under.positive fun query other takes => ?_
          refine (balanced query).free ?_
          rw [others query other]
          exact under.free query other (.inr (.inr takes))
        have others : ∀ {first : Scene}, s.acquire taken = .ok first →
            ∀ query, query ≠ taken → first.locks query = s.locks query := by
          intro first acquired query other
          obtain ⟨result, -, rfl⟩ := Scene.acquire_ok.mp acquired
          exact Scene.withLock_of_ne _ _ other
        by_cases room : number + 1 < 2 ^ 32
        · obtain ⟨first, acquired, firstMachine, firstUnder⟩ := under.reacquire room
          constructor
          · rintro ⟨last, points, run, dark⟩
            obtain ⟨first', inner, within, after, later, acquired', bodyRun, released, restRun,
              rfl⟩ := exec_locked.mp run
            rw [acquired, Except.ok.injEq] at acquired'
            subst acquired'
            simp only [List.cons_append, List.forall_mem_cons, List.forall_mem_append] at dark
            have bodyFits := (ihBody firstUnder).mp ⟨inner, within, bodyRun, dark.2.1⟩
            have innerDark := exec_last_off firstUnder.off bodyRun dark.2.1
            obtain ⟨after', released', -, afterUnder⟩ :=
              behind firstMachine firstUnder (others acquired) bodyRun innerDark
            rw [released, Except.ok.injEq] at released'
            subst released'
            have restFits := (ihRest afterUnder).mp ⟨last, later, restRun, dark.2.2.2⟩
            exact ⟨⟨rfl, bodyFits.1, restFits.1⟩, by simp only [nesting]; omega⟩
          · rintro ⟨⟨-, bodyOnly, restOnly⟩, fits⟩
            simp only [nesting] at fits
            obtain ⟨inner, within, bodyRun, bodyDark⟩ :=
              (@ihBody (depth + 1) _ _ firstUnder).mpr ⟨bodyOnly, by omega⟩
            have innerDark := exec_last_off firstUnder.off bodyRun bodyDark
            obtain ⟨after, released, -, afterUnder⟩ :=
              behind firstMachine firstUnder (others acquired) bodyRun innerDark
            obtain ⟨last, later, restRun, restDark⟩ :=
              (@ihRest depth _ _ afterUnder).mpr ⟨restOnly, by omega⟩
            refine ⟨last, _, exec_locked.mpr ⟨first, inner, within, after, later, acquired,
              bodyRun, released, restRun, rfl⟩, ?_⟩
            simp only [List.cons_append, List.forall_mem_cons, List.forall_mem_append]
            exact ⟨firstUnder.off, bodyDark, afterUnder.off, restDark⟩
        · have wraps : number + 1 = 2 ^ 32 := by
            have := under.small
            omega
          constructor
          · rintro ⟨last, points, run, -⟩
            obtain ⟨first, inner, within, after, later, acquired, bodyRun, released, -, -⟩ :=
              exec_locked.mp run
            exact (under.stuck wraps acquired bodyRun released).elim
          · rintro ⟨-, fits⟩
            simp only [nesting] at fits
            omega
      · constructor
        · rintro ⟨last, points, run, dark⟩
          obtain ⟨first, inner, within, after, later, acquired, bodyRun, released, -, rfl⟩ :=
            exec_locked.mp run
          -- the release of the inner lock turns interrupts on under the outer one
          have lit := locked_free under.real (under.free taken same (.inl rfl)) acquired bodyRun
            released
          have afterDark := dark (after.point depth) (by simp)
          rw [Scene.point, lit.2] at afterDark
          cases afterDark
        · rintro ⟨⟨only, -⟩, -⟩
          exact absurd only same

/-! ## Outside every lock -/

section

variable {outside entry : IntrStatus} {inside : Bool} {within later : List Point} {point : Point}

theorem restored_outside (free : point.depth = 0) : Restored outside inside (point :: later) ↔
    (inside = true → point.intr = outside) ∧ Restored point.intr false later := by
  rw [Restored, if_pos free]

theorem restored_inside (held : ∀ point ∈ within, point.depth ≠ 0) :
    Restored outside true (within ++ later) ↔ Restored outside true later := by
  induction within with
  | nil => rfl
  | cons point within ih =>
      simp only [List.forall_mem_cons] at held
      rw [List.cons_append, Restored, if_neg held.1]
      exact ih held.2

theorem restored_locked {taken after : Point} (takenHeld : taken.depth ≠ 0)
    (held : ∀ point ∈ within, point.depth ≠ 0) (free : after.depth = 0) :
    Restored outside false (taken :: within ++ after :: later) ↔
      after.intr = outside ∧ Restored after.intr false later := by
  rw [List.cons_append, Restored, if_neg takenHeld, restored_inside held, restored_outside free,
    forall_prop_of_true rfl]

/-- The rest of a run is judged from the point at which the code before it ends. -/
theorem restored_exec (run : code.exec 0 s = .ok (last, points)) :
    Restored s.machine.intr false (points ++ later) ↔
      Restored s.machine.intr false points ∧ Restored last.machine.intr false later := by
  induction code generalizing s last points later with
  | done =>
      cases run
      simp [Restored]
  | list call rest ih =>
      obtain ⟨more, restRun, rfl⟩ := exec_list.mp run
      have split := @ih _ _ _ later restRun
      rw [List.cons_append, restored_outside rfl, restored_outside rfl]
      simp only [Bool.false_eq_true, false_implies, true_and]
      exact split
  | disabled body rest ihBody ihRest =>
      obtain ⟨inner, within, more, bodyRun, restRun, rfl⟩ := exec_disabled.mp run
      have splitBody := fun later => @ihBody _ _ _ later bodyRun
      have splitRest := @ihRest _ _ _ later restRun
      simp only [List.cons_append, List.append_assoc]
      rw [restored_outside rfl, restored_outside rfl]
      simp only [Scene.point] at *
      rw [splitBody, splitBody, restored_outside rfl, restored_outside rfl]
      simp only [Bool.false_eq_true, false_implies, true_and]
      rw [splitRest, and_assoc]
  | locked lock body rest _ ihRest =>
      obtain ⟨taken, inner, within, after, more, -, bodyRun, -, restRun, rfl⟩ :=
        exec_locked.mp run
      have held : ∀ point ∈ within, point.depth ≠ 0 := fun point member =>
        Nat.one_le_iff_ne_zero.mp (exec_depth bodyRun point member)
      have split := @ihRest _ _ _ later restRun
      have takenHeld : (taken.point (0 + 1)).depth ≠ 0 := Nat.one_ne_zero
      rw [List.append_assoc, @List.cons_append _ _ _ later, restored_locked takenHeld held rfl,
        restored_locked takenHeld held rfl, and_assoc]
      simp only [Scene.point] at *
      rw [split]

theorem disciplined_outside (free : point.depth = 0) :
    Disciplined entry (point :: later) ↔ Disciplined point.intr later := by
  rw [Disciplined, restored_outside free, List.forall_mem_cons]
  simp only [free, ne_eq, not_true_eq_false, false_implies, true_and, Bool.false_eq_true,
    Disciplined]

theorem disciplined_exec (run : code.exec 0 s = .ok (last, points)) :
    Disciplined s.machine.intr (points ++ later) ↔
      Disciplined s.machine.intr points ∧ Disciplined last.machine.intr later := by
  simp only [Disciplined, List.forall_mem_append, restored_exec run]
  exact and_and_and_comm

theorem disciplined_locked {taken after : Point} (takenHeld : taken.depth ≠ 0)
    (held : ∀ point ∈ within, point.depth ≠ 0) (free : after.depth = 0) :
    Disciplined entry (taken :: within ++ after :: later) ↔
      (taken.intr = .off ∧ ∀ point ∈ within, point.intr = .off) ∧ after.intr = entry ∧
        Disciplined after.intr later := by
  have dark : (∀ point ∈ within, point.depth ≠ 0 → point.intr = .off) ↔
      ∀ point ∈ within, point.intr = .off :=
    forall₂_congr fun point member => forall_prop_of_true (held point member)
  rw [Disciplined, restored_locked takenHeld held free]
  simp only [List.cons_append, List.forall_mem_cons, List.forall_mem_append, dark,
    forall_prop_of_true takenHeld, free, ne_eq, not_true_eq_false, false_implies, true_and,
    Disciplined]
  constructor
  · rintro ⟨⟨takenDark, bodyDark, laterDark⟩, back, restored⟩
    exact ⟨⟨takenDark, bodyDark⟩, back, laterDark, restored⟩
  · rintro ⟨⟨takenDark, bodyDark⟩, back, laterDark, restored⟩
    exact ⟨⟨takenDark, bodyDark, laterDark⟩, back, restored⟩

end

/-- Taking a free lock puts the thread under it. -/
theorem acquire_free {body : Code} (real : s.machine.running ≠ 0)
    (free : s.locks lock = lockInit)
    (others : ∀ query, query ≠ lock → body.Takes query → s.locks query = lockInit) :
    ∃ taken, s.acquire lock = .ok taken ∧ Under taken lock 1 body := by
  have run := lockAcquire_free real
  rw [← free] at run
  refine ⟨_, Scene.acquire_ok.mpr ⟨_, run, rfl⟩, ?_⟩
  constructor
  · exact real
  · rw [Scene.withLock_self]
    rfl
  · exact Nat.one_pos
  · decide
  · rfl
  · intro query other takes
    rw [Scene.withLock_of_ne _ _ other]
    exact others query other takes

/-- The release of a lock taken once succeeds. -/
theorem release_once {inner : Scene} (once : inner.locks lock = Lock.held inner.machine.running 1) :
    ∃ after, inner.release lock = .ok after := by
  have run := lockRelease_heldBy inner.machine
  change lockRelease _ (Lock.held inner.machine.running 1) = _ at run
  rw [← once] at run
  exact ⟨_, Scene.release_ok.mpr ⟨_, run, rfl⟩⟩

/-- The property of a stretch of code: it runs to its end, with
interrupts off under every lock and the flag put back behind it. -/
def KeepsFlag (code : Code) (s : Scene) : Prop :=
  ∃ last points, code.exec 0 s = .ok (last, points) ∧ Disciplined s.machine.intr points

end Code

/-- **Interrupt flag under nested locks.**  A thread that holds no lock keeps the
discipline exactly in code that takes each outermost lock with interrupts on,
and under it no other. -/
theorem lockNesting_keepsFlag (code : Code) (s : Scene) (real : s.machine.running ≠ 0)
    (free : ∀ lock, code.Takes lock → s.locks lock = lockInit) :
    code.KeepsFlag s ↔ code.Composes s.machine.intr := by
  induction code generalizing s with
  | done =>
      constructor
      · intro _
        trivial
      · intro _
        exact ⟨s, [], rfl, by simp [Disciplined, Restored]⟩
  | list call rest ih =>
      have restKeeps := ih (s.onMachine call.run) (by simpa using real) free
      simp only [Scene.onMachine_machine, ListCall.run_intr] at restKeeps
      rw [Code.Composes, ← restKeeps]
      constructor
      · rintro ⟨last, points, run, disciplined⟩
        obtain ⟨later, restRun, rfl⟩ := Code.exec_list.mp run
        rw [Code.disciplined_outside rfl] at disciplined
        exact ⟨last, later, restRun, disciplined⟩
      · rintro ⟨last, later, restRun, disciplined⟩
        refine ⟨last, _, Code.exec_list.mpr ⟨later, restRun, rfl⟩, ?_⟩
        rw [Code.disciplined_outside rfl]
        exact disciplined
  | disabled body rest ihBody ihRest =>
      have bodyKeeps := ihBody (Code.off s) (by simpa using real) fun lock takes =>
        free lock (.inl takes)
      rw [Code.off_intr] at bodyKeeps
      have restKeeps : ∀ {inner within}, body.exec 0 (Code.off s) = .ok (inner, within) →
          (rest.KeepsFlag (Code.back s inner) ↔ rest.Composes s.machine.intr) := by
        intro inner within bodyRun
        have running := Code.exec_running bodyRun
        have balanced := Code.exec_balanced (by simpa using real) bodyRun
        rw [Code.off_running] at running
        rw [← Code.back_intr s inner]
        refine ihRest _ (by rwa [Code.back_running, running]) fun lock takes => ?_
        exact (balanced lock).free (free lock (.inr takes))
      rw [Code.Composes, ← bodyKeeps]
      constructor
      · rintro ⟨last, points, run, disciplined⟩
        obtain ⟨inner, within, later, bodyRun, restRun, rfl⟩ := Code.exec_disabled.mp run
        rw [List.cons_append, Code.disciplined_outside rfl, Scene.point,
          Code.disciplined_exec bodyRun, Code.disciplined_outside rfl] at disciplined
        exact ⟨⟨inner, within, bodyRun, disciplined.1⟩,
          (restKeeps bodyRun).mp ⟨last, later, restRun, disciplined.2⟩⟩
      · rintro ⟨⟨inner, within, bodyRun, bodyDisciplined⟩, restComposes⟩
        obtain ⟨last, later, restRun, restDisciplined⟩ := (restKeeps bodyRun).mpr restComposes
        refine ⟨last, _, Code.exec_disabled.mpr ⟨inner, within, later, bodyRun, restRun, rfl⟩, ?_⟩
        rw [List.cons_append, Code.disciplined_outside rfl, Scene.point,
          Code.disciplined_exec bodyRun, Code.disciplined_outside rfl]
        exact ⟨bodyDisciplined, restDisciplined⟩
  | locked lock body rest _ ihRest =>
      have lockFree := free lock (.inl rfl)
      obtain ⟨taken, acquired, under⟩ : ∃ taken, s.acquire lock = .ok taken ∧
          Code.Under taken lock 1 body :=
        Code.acquire_free real lockFree fun query _ takes => free query (.inr (.inl takes))
      have bodyDark : (∃ last points, body.exec 1 taken = .ok (last, points) ∧
          ∀ point ∈ points, point.intr = .off) ↔ body.Only lock ∧ 1 + body.nesting < 2 ^ 32 :=
        Code.exec_under under
      have restKeeps : ∀ {inner within after}, body.exec 1 taken = .ok (inner, within) →
          inner.release lock = .ok after →
          (rest.KeepsFlag after ↔ rest.Composes after.machine.intr) := by
        intro inner within after bodyRun released
        have run : (Code.locked lock body .done).exec 0 s = .ok (after, _) :=
          Code.exec_locked.mpr
            ⟨taken, inner, within, after, [], acquired, bodyRun, released, rfl, rfl⟩
        have running := Code.exec_running run
        have balanced := Code.exec_balanced real run
        refine ihRest after (by rwa [running]) fun query takes => ?_
        exact (balanced query).free (free query (.inr (.inr takes)))
      have held : ∀ {inner : Scene} {within}, body.exec 1 taken = .ok (inner, within) →
          ∀ point ∈ within, point.depth ≠ 0 := fun bodyRun point member =>
        Nat.one_le_iff_ne_zero.mp (Code.exec_depth bodyRun point member)
      have takenHeld : (taken.point (0 + 1)).depth ≠ 0 := Nat.one_ne_zero
      constructor
      · rintro ⟨last, points, run, disciplined⟩
        obtain ⟨taken', inner, within, after, later, acquired', bodyRun, released, restRun, rfl⟩ :=
          Code.exec_locked.mp run
        rw [acquired, Except.ok.injEq] at acquired'
        subst acquired'
        rw [Code.disciplined_locked takenHeld (held bodyRun) rfl] at disciplined
        obtain ⟨⟨-, dark⟩, back, restDisciplined⟩ := disciplined
        obtain ⟨only, room⟩ := bodyDark.mp ⟨inner, within, bodyRun, dark⟩
        have lit := (Code.locked_free real lockFree acquired bodyRun released).2
        have entry : s.machine.intr = .on := back.symm.trans lit
        have restComposes := (restKeeps bodyRun released).mp ⟨last, later, restRun, restDisciplined⟩
        rw [lit] at restComposes
        rw [entry]
        exact ⟨rfl, only, by omega, restComposes⟩
      · rintro ⟨entry, only, room, restComposes⟩
        obtain ⟨inner, within, bodyRun, dark⟩ := bodyDark.mpr ⟨only, by omega⟩
        have running := Code.exec_running bodyRun
        have once := (Code.exec_balanced under.real bodyRun lock).held 1 Nat.one_pos (by decide)
          under.held
        rw [← running] at once
        obtain ⟨after, released⟩ := Code.release_once once
        obtain ⟨takenDark, lit⟩ := Code.locked_free real lockFree acquired bodyRun released
        rw [entry, ← lit] at restComposes
        obtain ⟨last, later, restRun, restDisciplined⟩ :=
          (restKeeps bodyRun released).mpr restComposes
        refine ⟨last, _, Code.exec_locked.mpr ⟨taken, inner, within, after, later, acquired,
          bodyRun, released, restRun, rfl⟩, ?_⟩
        rw [Code.disciplined_locked takenHeld (held bodyRun) rfl]
        exact ⟨⟨takenDark, dark⟩, lit.trans entry.symm, restDisciplined⟩

/-- The pool's lock taken and released once, from a thread with interrupts on. -/
theorem lockNesting_keepsFlag_once :
    (Code.locked 0 (.list .query .done) .done).KeepsFlag
      ⟨{ Machine.blank with intr := .on }, fun _ => lockInit⟩ :=
  (lockNesting_keepsFlag _ _ (by decide) (fun _ _ => rfl)).mpr
    ⟨rfl, trivial, by decide, trivial⟩

/-- A message under the lock of a disk channel: `ide_read` holds the channel's
lock (0) while `check_ide_error` prints under the console's (1).  The release of
the console's lock turns interrupts on with the channel's still held. -/
theorem lockNesting_not_keepsFlag :
    ¬∀ (code : Code) (s : Scene), s.machine.running ≠ 0 →
      (∀ lock, code.Takes lock → s.locks lock = lockInit) → code.KeepsFlag s := by
  intro always
  obtain ⟨last, points, run, dark, -⟩ := always (.locked 0 (.locked 1 .done .done) .done)
    ⟨{ Machine.blank with intr := .on }, fun _ => lockInit⟩ (by decide) (fun _ _ => rfl)
  cases run
  exact absurd (dark ⟨1, .on⟩ (by decide) Nat.one_ne_zero) (by decide)

end Pumelo
