import Mathlib.Data.List.Nodup
import Mathlib.Logic.Function.Basic
import Mathlib.Tactic.Common

/-!
# Dispatching threads on one processor

A queue of ready threads, the thread that runs, and an idle thread that is woken when
the queue is empty.  Each operation is total; the invariants say where it is legal.
A processor whose thread has given it up is `Vacant` until the next one is dispatched.
-/

namespace Foundation

/-- Where a thread is; one that sleeps has a reason. -/
inductive Phase (κ : Type*) where
  | absent
  | running
  | ready
  | asleep (reason : κ)
  deriving DecidableEq, Repr

/-- The phases of the threads, the ready ones in the order of the queue, the one that
runs, and all that were started. -/
structure Dispatcher (τ κ : Type*) where
  phase : τ → Phase κ
  ready : List τ
  running : τ
  born : List τ

namespace Dispatcher

variable {τ κ : Type*} [DecidableEq τ] {d : Dispatcher τ κ} {idle thread query : τ} {reason : κ}

/-- Change the phase of one thread. -/
def setPhase (d : Dispatcher τ κ) (thread : τ) (phase : Phase κ) : Dispatcher τ κ :=
  { d with phase := Function.update d.phase thread phase }

/-- Make a thread ready, last of all. -/
def enqueue (d : Dispatcher τ κ) (thread : τ) : Dispatcher τ κ :=
  { d.setPhase thread .ready with ready := d.ready ++ [thread] }

/-- Make a thread ready, first of all. -/
def wake (d : Dispatcher τ κ) (thread : τ) : Dispatcher τ κ :=
  { d.setPhase thread .ready with ready := thread :: d.ready }

/-- Put the running thread to sleep. -/
def sleep (d : Dispatcher τ κ) (reason : κ) : Dispatcher τ κ :=
  d.setPhase d.running (.asleep reason)

/-- The thread that runs next. -/
def next (d : Dispatcher τ κ) (idle : τ) : τ := d.ready.headD idle

/-- Run the next thread. -/
def dispatch (d : Dispatcher τ κ) (idle : τ) : Dispatcher τ κ :=
  { d.setPhase (d.next idle) .running with
    ready := d.ready.tail
    running := d.next idle }

/-- Start a thread. -/
def start (d : Dispatcher τ κ) (thread : τ) : Dispatcher τ κ :=
  { d.enqueue thread with born := d.born ++ [thread] }

/-- One thread that runs. -/
def boot (thread : τ) : Dispatcher τ κ where
  phase := Function.update (fun _ => .absent) thread .running
  ready := []
  running := thread
  born := [thread]

@[simp] theorem boot_self (thread : τ) :
    (boot thread : Dispatcher τ κ).phase thread = .running := by
  simp only [boot, Function.update_self]

theorem boot_of_ne (different : query ≠ thread) :
    (boot thread : Dispatcher τ κ).phase query = .absent := by
  simp only [boot, Function.update_of_ne different]

@[simp] theorem setPhase_self (d : Dispatcher τ κ) (thread : τ) (phase : Phase κ) :
    (d.setPhase thread phase).phase thread = phase :=
  Function.update_self ..

theorem setPhase_of_ne (d : Dispatcher τ κ) (phase : Phase κ) (different : query ≠ thread) :
    (d.setPhase thread phase).phase query = d.phase query :=
  Function.update_of_ne different ..

theorem setPhase_phase (d : Dispatcher τ κ) (phase : Phase κ) :
    (d.setPhase thread phase).phase query = if query = thread then phase else d.phase query :=
  Function.update_apply ..

@[simp] theorem enqueue_phase (d : Dispatcher τ κ) (thread : τ) :
    (d.enqueue thread).phase = (d.setPhase thread .ready).phase := rfl

@[simp] theorem wake_phase (d : Dispatcher τ κ) (thread : τ) :
    (d.wake thread).phase = (d.setPhase thread .ready).phase := rfl

@[simp] theorem start_phase (d : Dispatcher τ κ) (thread : τ) :
    (d.start thread).phase = (d.setPhase thread .ready).phase := rfl

@[simp] theorem dispatch_phase (d : Dispatcher τ κ) (idle : τ) :
    (d.dispatch idle).phase = (d.setPhase (d.next idle) .running).phase := rfl

/-- Waking the idle thread when the queue is empty does not change who is next. -/
theorem wake_dispatch (empty : d.ready = []) :
    (d.wake idle).dispatch idle = d.dispatch idle := by
  simp [dispatch, wake, next, setPhase, Function.update_idem, empty]

/-- Dispatching from a queue with a first thread. -/
theorem dispatch_cons {first : τ} {rest : List τ} (ready : d.ready = first :: rest) :
    d.dispatch idle = { d.setPhase first .running with
      ready := rest
      running := first } := by
  simp [dispatch, next, ready]

/-! ## Invariants -/

/-- The queue and the phases agree. -/
structure Queued (d : Dispatcher τ κ) (idle : τ) : Prop where
  ready : ∀ thread, thread ∈ d.ready ↔ d.phase thread = .ready
  nodup : d.ready.Nodup
  born : ∀ thread, thread ∈ d.born ↔ d.phase thread ≠ .absent
  bornNodup : d.born.Nodup
  idle : idle ∈ d.born

/-- Exactly the running thread is in the phase of running. -/
structure Sound (d : Dispatcher τ κ) (idle : τ) : Prop extends d.Queued idle where
  running : ∀ thread, d.phase thread = .running ↔ thread = d.running

/-- The running thread has given up the processor. -/
structure Vacant (d : Dispatcher τ κ) (idle : τ) : Prop extends d.Queued idle where
  running : ∀ thread, d.phase thread ≠ .running

namespace Queued

/-- A thread that changes between phases in which it is not queued. -/
theorem setPhase (queued : d.Queued idle) {phase : Phase κ} (before : d.phase thread ≠ .ready)
    (existed : d.phase thread ≠ .absent) (after : phase ≠ .ready) (exists' : phase ≠ .absent) :
    (d.setPhase thread phase).Queued idle where
  ready query := by
    rw [setPhase_phase]
    split
    · next same =>
        subst same
        exact iff_of_false (fun member => before ((queued.ready query).mp member)) after
    · exact queued.ready query
  nodup := queued.nodup
  born query := by
    rw [setPhase_phase]
    split
    · next same =>
        subst same
        exact iff_of_true ((queued.born query).mpr existed) exists'
    · exact queued.born query
  bornNodup := queued.bornNodup
  idle := queued.idle

/-- A thread that becomes ready at either end of the queue. -/
theorem insert (queued : d.Queued idle) (before : d.phase thread ≠ .ready)
    (existed : d.phase thread ≠ .absent) {ready : List τ}
    (grown : ready.Perm (thread :: d.ready)) :
    ({ d.setPhase thread .ready with ready := ready } : Dispatcher τ κ).Queued idle where
  ready query := by
    dsimp only
    rw [grown.mem_iff, setPhase_phase, List.mem_cons, queued.ready]
    split
    · next same => exact iff_of_true (.inl same) rfl
    · next different => simp [different]
  nodup := grown.nodup_iff.mpr
    (List.nodup_cons.mpr ⟨fun member => before ((queued.ready thread).mp member), queued.nodup⟩)
  born query := by
    dsimp only
    rw [setPhase_phase, show (d.setPhase thread .ready).born = d.born from rfl, queued.born]
    split
    · next same =>
        subst same
        exact iff_of_true existed nofun
    · exact Iff.rfl
  bornNodup := queued.bornNodup
  idle := queued.idle

end Queued

namespace Sound

omit [DecidableEq τ] in
/-- The running thread exists and is not queued. -/
theorem running_phase (sound : d.Sound idle) : d.phase d.running = .running :=
  (sound.running _).mpr rfl

omit [DecidableEq τ] in
theorem running_mem (sound : d.Sound idle) : d.running ∈ d.born :=
  (sound.born _).mpr (by simp [sound.running_phase])

omit [DecidableEq τ] in
theorem running_not_mem_ready (sound : d.Sound idle) : d.running ∉ d.ready := by
  intro ready
  have phase := (sound.ready _).mp ready
  rw [sound.running_phase] at phase
  cases phase

/-- The running thread goes to sleep. -/
theorem vacant_sleep (sound : d.Sound idle) (reason : κ) : (d.sleep reason).Vacant idle where
  toQueued := sound.toQueued.setPhase (by simp [sound.running_phase])
    (by simp [sound.running_phase]) nofun nofun
  running query := by
    rw [sleep, setPhase_phase]
    split
    · exact nofun
    · next different => exact fun running => different ((sound.running query).mp running)

/-- The running thread is queued again. -/
theorem vacant_enqueue (sound : d.Sound idle) : (d.enqueue d.running).Vacant idle where
  toQueued := sound.toQueued.insert (by simp [sound.running_phase])
    (by simp [sound.running_phase]) (List.perm_append_singleton _ _)
  running query := by
    rw [enqueue_phase, setPhase_phase]
    split
    · exact nofun
    · next different => exact fun running => different ((sound.running query).mp running)

/-- A sleeping thread is woken. -/
theorem wake (sound : d.Sound idle) (asleep : d.phase thread = .asleep reason) :
    (d.wake thread).Sound idle where
  toQueued := sound.toQueued.insert (by simp [asleep]) (by simp [asleep]) (List.Perm.refl _)
  running query := by
    rw [wake_phase, setPhase_phase]
    split
    · next same =>
        subst same
        refine iff_of_false nofun fun equal => ?_
        rw [show (d.wake query).running = d.running from rfl] at equal
        rw [equal, sound.running_phase] at asleep
        cases asleep
    · exact sound.running query

/-- A new thread is started. -/
theorem start (sound : d.Sound idle) (fresh : d.phase thread = .absent) :
    (d.start thread).Sound idle where
  ready query := by
    rw [start_phase, setPhase_phase, show (d.start thread).ready = d.ready ++ [thread] from rfl,
      List.mem_append, List.mem_singleton, sound.ready]
    split
    · next same => exact iff_of_true (.inr same) rfl
    · next different => simp [different]
  nodup := by
    refine (List.perm_append_singleton thread d.ready).nodup_iff.mpr (List.nodup_cons.mpr
      ⟨fun member => ?_, sound.nodup⟩)
    rw [sound.ready, fresh] at member
    cases member
  born query := by
    rw [start_phase, setPhase_phase, show (d.start thread).born = d.born ++ [thread] from rfl,
      List.mem_append, List.mem_singleton, sound.born]
    split
    · next same => exact iff_of_true (.inr same) nofun
    · next different => simp [different]
  bornNodup := by
    refine (List.perm_append_singleton thread d.born).nodup_iff.mpr (List.nodup_cons.mpr
      ⟨fun member => ?_, sound.bornNodup⟩)
    exact (sound.born thread).mp member fresh
  idle := List.mem_append_left _ sound.idle
  running query := by
    rw [start_phase, setPhase_phase]
    split
    · next same =>
        subst same
        refine iff_of_false nofun fun equal => ?_
        rw [show (d.start query).running = d.running from rfl] at equal
        rw [equal, sound.running_phase] at fresh
        cases fresh
    · exact sound.running query

end Sound

omit [DecidableEq τ] in
/-- Any thread that exists may be the idle thread. -/
theorem Sound.appoint (sound : d.Sound idle) (born : thread ∈ d.born) : d.Sound thread where
  ready := sound.ready
  nodup := sound.nodup
  born := sound.born
  bornNodup := sound.bornNodup
  idle := born
  running := sound.running

/-- A single thread that runs is sound. -/
theorem boot_sound (thread : τ) : (boot thread : Dispatcher τ κ).Sound thread where
  ready query := by
    by_cases same : query = thread
    · simp [boot, same]
    · simp [boot, Function.update_of_ne same]
  nodup := List.nodup_nil
  born query := by
    by_cases same : query = thread
    · simp [boot, same]
    · simp [boot, same]
  bornNodup := List.nodup_singleton thread
  idle := List.mem_singleton.mpr rfl
  running query := by
    by_cases same : query = thread
    · simp [boot, same]
    · simp [boot, same]

namespace Vacant

omit [DecidableEq τ] in
/-- With an empty queue, the idle thread sleeps. -/
theorem idle_asleep (vacant : d.Vacant idle) (empty : d.ready = []) :
    ∃ reason, d.phase idle = .asleep reason := by
  have existed := (vacant.born idle).mp vacant.idle
  have notReady := (vacant.ready idle).not.mp (by simp [empty])
  have notRunning := vacant.running idle
  cases phaseEq : d.phase idle with
  | absent => exact absurd phaseEq existed
  | running => exact absurd phaseEq notRunning
  | ready => exact absurd phaseEq notReady
  | asleep reason => exact ⟨reason, rfl⟩

omit [DecidableEq τ] in
/-- The next thread exists. -/
theorem next_born (vacant : d.Vacant idle) : d.phase (d.next idle) ≠ .absent := by
  rw [next]
  cases readyEq : d.ready with
  | nil => exact (vacant.born idle).mp vacant.idle
  | cons first rest =>
      have ready := (vacant.ready first).mp (by simp [readyEq])
      simp [ready]

/-- The next thread runs. -/
theorem dispatch (vacant : d.Vacant idle) : (d.dispatch idle).Sound idle := by
  have tail : ∀ query, query ∈ d.ready.tail ↔ query ∈ d.ready ∧ query ≠ d.next idle := by
    intro query
    have nodup := vacant.nodup
    rw [next]
    cases readyEq : d.ready with
    | nil => simp
    | cons first rest =>
        rw [readyEq, List.nodup_cons] at nodup
        simp only [List.tail_cons, List.mem_cons, List.headD_cons]
        constructor
        · intro member
          exact ⟨.inr member, fun equal => nodup.1 (equal ▸ member)⟩
        · rintro ⟨equal | member, different⟩
          · exact absurd equal different
          · exact member
  constructor
  · constructor
    · intro query
      rw [dispatch_phase, setPhase_phase, show (d.dispatch idle).ready = d.ready.tail from rfl,
        tail, vacant.ready]
      split
      · next same => exact iff_of_false (fun both => both.2 same) nofun
      · next different => simp [different]
    · exact vacant.nodup.tail
    · intro query
      rw [dispatch_phase, setPhase_phase, show (d.dispatch idle).born = d.born from rfl,
        vacant.born]
      split
      · next same =>
          subst same
          exact iff_of_true vacant.next_born nofun
      · exact Iff.rfl
    · exact vacant.bornNodup
    · exact vacant.idle
  · intro query
    rw [dispatch_phase, setPhase_phase, show (d.dispatch idle).running = d.next idle from rfl]
    split
    · next same => exact iff_of_true rfl same
    · next different => exact iff_of_false (vacant.running query) different

end Vacant

omit [DecidableEq τ] in
/-- The next thread is ready, or it is the idle thread. -/
theorem Queued.next_awake (queued : d.Queued idle) (asleep : d.phase query = .asleep reason)
    (notIdle : query ≠ idle) : query ≠ d.next idle := by
  rintro rfl
  rw [next] at asleep notIdle
  cases readyEq : d.ready with
  | nil => exact notIdle (by rw [readyEq, List.headD_nil])
  | cons first rest =>
      have ready := (queued.ready first).mp (by simp [readyEq])
      rw [readyEq, List.headD_cons, ready] at asleep
      cases asleep

/-- Any other thread that sleeps goes on sleeping. -/
theorem Queued.dispatch_asleep (queued : d.Queued idle) (asleep : d.phase query = .asleep reason)
    (notIdle : query ≠ idle) : (d.dispatch idle).phase query = .asleep reason := by
  rw [dispatch_phase, setPhase_of_ne _ _ (queued.next_awake asleep notIdle), asleep]

/-- A ready thread stays ready or runs. -/
theorem dispatch_ready (ready : d.phase query = .ready) :
    (d.dispatch idle).phase query = .ready ∨ (d.dispatch idle).running = query := by
  rw [dispatch_phase, setPhase_phase]
  split
  · next same => exact .inr same.symm
  · exact .inl ready

end Dispatcher

end Foundation
