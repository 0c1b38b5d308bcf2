import Pumelo.Foundation.Dispatcher

/-!
# Binary semaphores

Semaphores over a dispatcher.  A thread that finds the value at 0 queues up and
sleeps, and looks at the value again when it has been woken; whoever runs in between
may have taken it.
-/

namespace Foundation

/-- Threads and semaphores.  `spot` is the semaphore whose value a thread is to look at
when it runs; `downs` and `ups` count what was completed. -/
structure Semaphores (τ κ σ : Type*) where
  threads : Dispatcher τ κ
  value : σ → Nat
  waiters : σ → List τ
  spot : τ → Option σ
  downs : σ → Nat
  ups : σ → Nat

namespace Semaphores

variable {τ κ σ : Type*} [DecidableEq τ] [DecidableEq σ] {s next : Semaphores τ κ σ}
  {idle thread : τ} {why : κ} {sem : σ}

/-- The running thread takes the value. -/
def take (s : Semaphores τ κ σ) (sem : σ) : Semaphores τ κ σ :=
  { s with
    value := Function.update s.value sem (s.value sem - 1)
    spot := Function.update s.spot s.threads.running none
    downs := Function.update s.downs sem (s.downs sem + 1) }

/-- The running thread queues up and sleeps. -/
def wait (s : Semaphores τ κ σ) (idle : τ) (why : κ) (sem : σ) : Semaphores τ κ σ :=
  { s with
    threads := (s.threads.sleep why).dispatch idle
    waiters := Function.update s.waiters sem (s.waiters sem ++ [s.threads.running])
    spot := Function.update s.spot s.threads.running (some sem) }

/-- The first thread of the queue is woken, and the value goes up. -/
def up (s : Semaphores τ κ σ) (sem : σ) : Semaphores τ κ σ :=
  { s with
    threads := (s.waiters sem).head?.elim s.threads s.threads.wake
    waiters := Function.update s.waiters sem (s.waiters sem).tail
    value := Function.update s.value sem (s.value sem + 1)
    ups := Function.update s.ups sem (s.ups sem + 1) }

/-- The same semaphores over other phases of the threads. -/
def withThreads (s : Semaphores τ κ σ) (threads : Dispatcher τ κ) : Semaphores τ κ σ :=
  { s with threads := threads }

/-- The running thread is to look at this semaphore, or at none before it calls. -/
def Looks (s : Semaphores τ κ σ) (sem : σ) : Prop :=
  s.spot s.threads.running = none ∨ s.spot s.threads.running = some sem

/-- The steps of any number of threads.  Only the idle thread may not go down, and only
a value of 0 goes up. -/
inductive Step (idle : τ) (why : κ) : Semaphores τ κ σ → Semaphores τ κ σ → Prop where
  | take {s : Semaphores τ κ σ} (sem : σ) : s.Looks sem → s.threads.running ≠ idle →
      s.value sem ≠ 0 → Step idle why s (s.take sem)
  | wait {s : Semaphores τ κ σ} (sem : σ) : s.Looks sem → s.threads.running ≠ idle →
      s.value sem = 0 → Step idle why s (s.wait idle why sem)
  | up {s : Semaphores τ κ σ} (sem : σ) : s.spot s.threads.running = none → s.value sem = 0 →
      Step idle why s (s.up sem)
  | yield {s : Semaphores τ κ σ} : s.spot s.threads.running = none →
      Step idle why s (s.withThreads ((s.threads.enqueue s.threads.running).dispatch idle))
  | sleep {s : Semaphores τ κ σ} (reason : κ) : s.spot s.threads.running = none →
      Step idle why s (s.withThreads ((s.threads.sleep reason).dispatch idle))
  | wake {s : Semaphores τ κ σ} (thread : τ) (reason : κ) : s.spot s.threads.running = none →
      s.threads.phase thread = .asleep reason → s.spot thread = none →
      Step idle why s (s.withThreads (s.threads.wake thread))
  | start {s : Semaphores τ κ σ} (thread : τ) : s.spot s.threads.running = none →
      s.threads.phase thread = .absent → Step idle why s (s.withThreads (s.threads.start thread))

/-- Values are binary and account for the calls; exactly the threads that sleep at a
semaphore are in its queue, once; and a value of 1 with threads in the queue has a
thread that was woken and has not looked yet. -/
structure Inv (idle : τ) (why : κ) (first : σ → Nat) (s : Semaphores τ κ σ) : Prop where
  sound : s.threads.Sound idle
  binary : ∀ sem, s.value sem ≤ 1
  count : ∀ sem, s.downs sem + s.value sem = first sem + s.ups sem
  waiting : ∀ sem, ∀ thread ∈ s.waiters sem,
    s.spot thread = some sem ∧ s.threads.phase thread = .asleep why
  asleep : ∀ sem thread reason, s.spot thread = some sem →
    s.threads.phase thread = .asleep reason → thread ∈ s.waiters sem
  nodup : ∀ sem, (s.waiters sem).Nodup
  idle : s.spot idle = none
  woken : ∀ sem, s.value sem = 1 → s.waiters sem ≠ [] → ∃ thread, s.spot thread = some sem ∧
    (s.threads.phase thread = .ready ∨ thread = s.threads.running)

namespace Inv

variable {first : σ → Nat}

omit [DecidableEq τ] [DecidableEq σ] in
/-- The running thread waits nowhere. -/
theorem running_not_mem (inv : s.Inv idle why first) (sem : σ) :
    s.threads.running ∉ s.waiters sem := by
  intro member
  have asleep := (inv.waiting sem _ member).2
  rw [inv.sound.running_phase] at asleep
  cases asleep

omit [DecidableEq τ] [DecidableEq σ] in
/-- A thread that sleeps at a semaphore is not the next to run. -/
theorem ne_next (inv : s.Inv idle why first) {reason : κ} (spot : s.spot thread ≠ none)
    (asleep : s.threads.phase thread = .asleep reason) :
    thread ≠ s.threads.next idle := by
  intro equal
  rw [Dispatcher.next] at equal
  cases readyEq : s.threads.ready with
  | nil =>
      rw [readyEq, List.headD_nil] at equal
      exact spot (equal ▸ inv.idle)
  | cons head rest =>
      rw [readyEq, List.headD_cons] at equal
      have ready := (inv.sound.ready head).mp (by simp [readyEq])
      rw [← equal, asleep] at ready
      cases ready

omit [DecidableEq τ] [DecidableEq σ] in
/-- A thread woken from another semaphore is not the one that runs. -/
theorem woken_other (inv : s.Inv idle why first) (looks : s.Looks sem) {other : σ}
    (different : other ≠ sem) (value : s.value other = 1) (waiters : s.waiters other ≠ []) :
    ∃ thread, s.spot thread = some other ∧ s.threads.phase thread = .ready ∧
      thread ≠ s.threads.running := by
  obtain ⟨thread, spot, ready⟩ := inv.woken other value waiters
  have separate : thread ≠ s.threads.running := by
    rintro rfl
    rcases looks with none | same
    · rw [none] at spot
      cases spot
    · rw [same] at spot
      exact different (Option.some.inj spot).symm
  exact ⟨thread, spot, ready.resolve_right separate, separate⟩

theorem take (inv : s.Inv idle why first) (looks : s.Looks sem) (nonzero : s.value sem ≠ 0) :
    (s.take sem).Inv idle why first := by
  have binary := inv.binary sem
  refine ⟨inv.sound, fun other => ?_, fun other => ?_, fun other thread member => ?_,
    fun other thread reason spot asleep => ?_, inv.nodup, ?_, fun other value waiters => ?_⟩
  · simp only [Semaphores.take, Function.update_apply]
    split
    · omega
    · exact inv.binary other
  · have count := inv.count other
    simp only [Semaphores.take, Function.update_apply]
    split
    · next same =>
        subst same
        omega
    · exact count
  · have separate : thread ≠ s.threads.running := fun equal =>
      inv.running_not_mem other (equal ▸ member)
    obtain ⟨spot, asleep⟩ := inv.waiting other thread member
    exact ⟨(Function.update_of_ne separate ..).trans spot, asleep⟩
  · have separate : thread ≠ s.threads.running := by
      rintro rfl
      simp only [Semaphores.take, Function.update_self] at spot
      cases spot
    exact inv.asleep other thread reason
      ((Function.update_of_ne separate ..).symm.trans spot) asleep
  · simp only [Semaphores.take, Function.update_apply, inv.idle, ite_self]
  · have different : other ≠ sem := by
      rintro rfl
      simp only [Semaphores.take, Function.update_self] at value
      omega
    simp only [Semaphores.take, Function.update_of_ne different] at value
    obtain ⟨thread, spot, ready, separate⟩ := inv.woken_other looks different value waiters
    exact ⟨thread, (Function.update_of_ne separate ..).trans spot, .inl ready⟩

/-- The phases after the running thread has gone to sleep. -/
theorem sleep_dispatch_phase (d : Dispatcher τ κ) (reason : κ) :
    ((d.sleep reason).dispatch idle).phase thread =
      if thread = d.next idle then .running
      else if thread = d.running then .asleep reason else d.phase thread := by
  rw [Dispatcher.dispatch_phase, Dispatcher.setPhase_phase,
    show (d.sleep reason).next idle = d.next idle from rfl, Dispatcher.sleep,
    Dispatcher.setPhase_phase]

theorem wait (inv : s.Inv idle why first) (looks : s.Looks sem) (notIdle : s.threads.running ≠ idle)
    (zero : s.value sem = 0) : (s.wait idle why sem).Inv idle why first := by
  have sound : ((s.threads.sleep why).dispatch idle).Sound idle :=
    (inv.sound.vacant_sleep why).dispatch
  have runningNext : s.threads.running ≠ s.threads.next idle := by
    rw [Dispatcher.next]
    cases readyEq : s.threads.ready with
    | nil => exact notIdle
    | cons head rest =>
        intro equal
        have ready := (inv.sound.ready head).mp (by simp [readyEq])
        rw [List.headD_cons] at equal
        rw [← equal, inv.sound.running_phase] at ready
        cases ready
  have spotSelf : (s.wait idle why sem).spot s.threads.running = some sem :=
    Function.update_self ..
  have spotOther : ∀ thread, thread ≠ s.threads.running →
      (s.wait idle why sem).spot thread = s.spot thread := fun thread separate =>
    Function.update_of_ne separate ..
  have waitersSub : ∀ other thread, thread ∈ s.waiters other →
      thread ∈ (s.wait idle why sem).waiters other := by
    intro other thread member
    simp only [Semaphores.wait, Function.update_apply]
    split
    · next same => exact List.mem_append_left _ (same ▸ member)
    · exact member
  have waitersCases : ∀ other thread, thread ∈ (s.wait idle why sem).waiters other →
      thread ∈ s.waiters other ∨ other = sem ∧ thread = s.threads.running := by
    intro other thread member
    simp only [Semaphores.wait, Function.update_apply] at member
    split at member
    · next same =>
        rw [List.mem_append, List.mem_singleton] at member
        exact member.imp (same ▸ ·) (⟨same, ·⟩)
    · exact .inl member
  refine ⟨sound, inv.binary, inv.count, fun other thread member => ?_,
    fun other thread reason spot asleep => ?_, fun other => ?_, ?_, fun other value waiters => ?_⟩
  · simp only [show (s.wait idle why sem).threads = (s.threads.sleep why).dispatch idle from rfl,
      sleep_dispatch_phase]
    rcases waitersCases other thread member with member | ⟨rfl, rfl⟩
    · obtain ⟨spot, asleep⟩ := inv.waiting other thread member
      have separate : thread ≠ s.threads.running := fun equal =>
        inv.running_not_mem other (equal ▸ member)
      rw [spotOther thread separate, if_neg (inv.ne_next (by simp [spot]) asleep),
        if_neg separate]
      exact ⟨spot, asleep⟩
    · rw [if_neg runningNext, if_pos rfl]
      exact ⟨spotSelf, rfl⟩
  · simp only [show (s.wait idle why sem).threads = (s.threads.sleep why).dispatch idle from rfl,
      sleep_dispatch_phase] at asleep
    by_cases self : thread = s.threads.running
    · subst self
      rw [spotSelf] at spot
      cases spot
      simp [Semaphores.wait]
    · rw [spotOther thread self] at spot
      split at asleep
      · cases asleep
      · exact waitersSub other thread (inv.asleep other thread reason spot asleep)
  · simp only [Semaphores.wait, Function.update_apply]
    split
    · rw [← List.concat_eq_append]
      exact (inv.nodup sem).concat (inv.running_not_mem sem)
    · exact inv.nodup other
  · rw [spotOther idle notIdle.symm]
    exact inv.idle
  · have different : other ≠ sem := by
      rintro rfl
      rw [show (s.wait idle why other).value = s.value from rfl, zero] at value
      cases value
    simp only [Semaphores.wait, Function.update_of_ne different] at waiters
    obtain ⟨thread, spot, ready, separate⟩ := inv.woken_other looks different value waiters
    refine ⟨thread, (spotOther thread separate).trans spot, ?_⟩
    rw [show (s.wait idle why sem).threads = (s.threads.sleep why).dispatch idle from rfl]
    refine (Dispatcher.dispatch_ready ?_).imp_right Eq.symm
    rw [Dispatcher.sleep, Dispatcher.setPhase_of_ne _ _ separate]
    exact ready

theorem up (inv : s.Inv idle why first) (zero : s.value sem = 0) :
    (s.up sem).Inv idle why first := by
  -- the phases change in that of the first waiter only
  have phases : ∀ thread, (s.up sem).threads.phase thread =
      if (s.waiters sem).head? = some thread then .ready else s.threads.phase thread := by
    intro thread
    simp only [Semaphores.up]
    cases (s.waiters sem) with
    | nil => rfl
    | cons head rest =>
        rw [List.head?_cons, Option.elim_some, Dispatcher.wake_phase, Dispatcher.setPhase_phase]
        simp only [Option.some.injEq, eq_comm]
  have running : (s.up sem).threads.running = s.threads.running := by
    simp only [Semaphores.up]
    cases s.waiters sem <;> rfl
  have head : ∀ thread, (s.waiters sem).head? = some thread → thread ∈ s.waiters sem :=
    fun thread isHead => List.mem_of_head? isHead
  refine ⟨?_, fun other => ?_, fun other => ?_, fun other thread member => ?_,
    fun other thread reason spot asleep => ?_, fun other => ?_, inv.idle,
    fun other value waiters => ?_⟩
  · simp only [Semaphores.up]
    cases waitersEq : s.waiters sem with
    | nil => exact inv.sound
    | cons head rest => exact inv.sound.wake (inv.waiting sem head (by simp [waitersEq])).2
  · simp only [Semaphores.up, Function.update_apply]
    split
    · omega
    · exact inv.binary other
  · have count := inv.count other
    simp only [Semaphores.up, Function.update_apply]
    split
    · next same =>
        subst same
        omega
    · exact count
  · have inside : thread ∈ s.waiters other ∧ (s.waiters sem).head? ≠ some thread := by
      simp only [Semaphores.up, Function.update_apply] at member
      split at member
      · next same =>
          subst same
          have nodup := inv.nodup other
          refine ⟨List.mem_of_mem_tail member, fun isHead => ?_⟩
          cases waitersEq : s.waiters other with
          | nil => simp [waitersEq] at member
          | cons first rest =>
              rw [waitersEq, List.head?_cons, Option.some.injEq] at isHead
              rw [waitersEq, List.tail_cons] at member
              rw [waitersEq, List.nodup_cons] at nodup
              exact nodup.1 (isHead ▸ member)
      · next different =>
          refine ⟨member, fun isHead => ?_⟩
          have spot := (inv.waiting sem thread (head thread isHead)).1
          rw [(inv.waiting other thread member).1] at spot
          exact different (Option.some.inj spot)
    rw [phases, if_neg inside.2]
    exact inv.waiting other thread inside.1
  · rw [phases] at asleep
    split at asleep
    · cases asleep
    · next notHead =>
        have member := inv.asleep other thread reason spot asleep
        simp only [Semaphores.up, Function.update_apply]
        split
        · next same =>
            subst same
            cases waitersEq : s.waiters other with
            | nil => simp [waitersEq] at member
            | cons first rest =>
                rw [waitersEq, List.head?_cons] at notHead
                rw [waitersEq] at member
                exact (List.mem_cons.mp member).resolve_left fun equal => notHead (by rw [equal])
        · exact member
  · simp only [Semaphores.up, Function.update_apply]
    split
    · exact (inv.nodup sem).tail
    · exact inv.nodup other
  · by_cases same : other = sem
    · subst same
      simp only [Semaphores.up, Function.update_self] at waiters
      cases waitersEq : s.waiters other with
      | nil => simp [waitersEq] at waiters
      | cons first rest =>
          have isHead : (s.waiters other).head? = some first := by rw [waitersEq, List.head?_cons]
          refine ⟨first, (inv.waiting other first (head first isHead)).1, .inl ?_⟩
          rw [phases, if_pos isHead]
    · simp only [Semaphores.up, Function.update_of_ne same] at value waiters
      obtain ⟨thread, spot, ready⟩ := inv.woken other value waiters
      refine ⟨thread, spot, ?_⟩
      rw [phases, running]
      refine ready.imp_left fun ready => ?_
      split
      · rfl
      · exact ready

omit [DecidableEq τ] [DecidableEq σ] in
/-- Steps of the dispatcher that neither wake a thread that sleeps at a semaphore nor put
one to sleep there. -/
theorem withThreads (inv : s.Inv idle why first) {threads : Dispatcher τ κ}
    (sound : threads.Sound idle) (free : s.spot s.threads.running = none)
    (phases : ∀ thread, s.spot thread ≠ none → thread ≠ s.threads.running →
      threads.phase thread = s.threads.phase thread ∨
        s.threads.phase thread = .ready ∧ thread = threads.running ∨
        s.threads.phase thread = .absent ∧ threads.phase thread = .ready) :
    (s.withThreads threads).Inv idle why first := by
  have other : ∀ {thread sem}, s.spot thread = some sem →
      s.spot thread ≠ none ∧ thread ≠ s.threads.running := by
    intro thread sem spot
    refine ⟨by simp [spot], ?_⟩
    rintro rfl
    rw [free] at spot
    cases spot
  refine ⟨sound, inv.binary, inv.count, fun sem thread member => ?_,
    fun sem thread reason spot asleep => ?_, inv.nodup, inv.idle, fun sem value waiters => ?_⟩
  · obtain ⟨spot, asleep⟩ := inv.waiting sem thread member
    have separate := other spot
    rcases phases thread separate.1 separate.2 with same | ⟨ready, -⟩ | ⟨absent, -⟩
    · exact ⟨spot, same.trans asleep⟩
    · rw [asleep] at ready
      cases ready
    · rw [asleep] at absent
      cases absent
  · have separate := other spot
    rcases phases thread separate.1 separate.2 with same | ⟨-, running⟩ | ⟨-, ready⟩
    · exact inv.asleep sem thread reason spot (same.symm.trans asleep)
    · have phase := (sound.running thread).mpr running
      rw [show threads.phase thread = .asleep reason from asleep] at phase
      cases phase
    · rw [show threads.phase thread = .asleep reason from asleep] at ready
      cases ready
  · obtain ⟨thread, spot, ready⟩ := inv.woken sem value waiters
    have separate := other spot
    have ready := ready.resolve_right separate.2
    refine ⟨thread, spot, ?_⟩
    rcases phases thread separate.1 separate.2 with same | ⟨-, running⟩ | ⟨-, ready⟩
    · exact .inl (same.trans ready)
    · exact .inr running
    · exact .inl ready

/-- Every step keeps the invariant. -/
theorem step (inv : s.Inv idle why first) (taken : Step idle why s next) :
    next.Inv idle why first := by
  cases taken with
  | take sem looks notIdle nonzero => exact inv.take looks nonzero
  | wait sem looks notIdle zero => exact inv.wait looks notIdle zero
  | up sem free zero => exact inv.up zero
  | yield free =>
      refine inv.withThreads inv.sound.vacant_enqueue.dispatch free fun thread spot other => ?_
      rw [Dispatcher.dispatch_phase, Dispatcher.setPhase_phase]
      split
      · next next =>
          refine .inr (.inl ⟨?_, next⟩)
          rw [Dispatcher.next] at next
          have member : thread ∈ s.threads.ready ++ [s.threads.running] := by
            rw [next]
            show (s.threads.ready ++ [s.threads.running]).headD idle ∈ _
            cases s.threads.ready <;> simp
          rw [List.mem_append, List.mem_singleton] at member
          exact (inv.sound.ready thread).mp (member.resolve_right other)
      · rw [Dispatcher.enqueue_phase, Dispatcher.setPhase_of_ne _ _ other]
        exact .inl rfl
  | sleep reason free =>
      refine inv.withThreads (inv.sound.vacant_sleep reason).dispatch free
        fun thread spot other => ?_
      rw [sleep_dispatch_phase]
      split
      · next next =>
          refine .inr (.inl ⟨?_, next⟩)
          rw [Dispatcher.next] at next
          cases readyEq : s.threads.ready with
          | nil =>
              rw [readyEq, List.headD_nil] at next
              exact absurd inv.idle (next ▸ spot)
          | cons head rest =>
              rw [readyEq, List.headD_cons] at next
              exact (inv.sound.ready thread).mp (by simp [readyEq, next])
      · exact .inl rfl
  | wake woken reason free asleep idleSpot =>
      refine inv.withThreads (inv.sound.wake asleep) free fun thread spot other => .inl ?_
      rw [Dispatcher.wake_phase]
      refine Dispatcher.setPhase_of_ne _ _ ?_
      rintro rfl
      exact spot idleSpot
  | start started free fresh =>
      refine inv.withThreads (inv.sound.start fresh) free fun thread spot other => ?_
      rw [Dispatcher.start_phase, Dispatcher.setPhase_phase]
      split
      · next same => exact .inr (.inr ⟨same ▸ fresh, rfl⟩)
      · exact .inl rfl

end Inv

/-! ## Threads that sleep at no semaphore -/

/-- The thread sleeps, and not at a semaphore. -/
def Rests (s : Semaphores τ κ σ) (thread : τ) (reason : κ) : Prop :=
  s.threads.phase thread = .asleep reason ∧ s.spot thread = none

namespace Rests

variable {first : σ → Nat} {reason : κ}

omit [DecidableEq τ] [DecidableEq σ] in
theorem ne_running (rests : s.Rests thread reason) (inv : s.Inv idle why first) :
    thread ≠ s.threads.running := by
  rintro rfl
  have phase := rests.1
  rw [inv.sound.running_phase] at phase
  cases phase

theorem take (rests : s.Rests thread reason) (inv : s.Inv idle why first) :
    (s.take sem).Rests thread reason :=
  ⟨rests.1, (Function.update_of_ne (rests.ne_running inv) ..).trans rests.2⟩

omit [DecidableEq σ] in
theorem sleep_dispatch (rests : s.Rests thread reason) (inv : s.Inv idle why first)
    (notIdle : thread ≠ idle) (why' : κ) :
    ((s.threads.sleep why').dispatch idle).phase thread = .asleep reason := by
  refine (inv.sound.vacant_sleep why').dispatch_asleep ?_ notIdle
  rw [Dispatcher.sleep, Dispatcher.setPhase_of_ne _ _ (rests.ne_running inv), rests.1]

theorem wait (rests : s.Rests thread reason) (inv : s.Inv idle why first)
    (notIdle : thread ≠ idle) : (s.wait idle why sem).Rests thread reason :=
  ⟨rests.sleep_dispatch inv notIdle why,
    (Function.update_of_ne (rests.ne_running inv) ..).trans rests.2⟩

theorem up (rests : s.Rests thread reason) (inv : s.Inv idle why first) :
    (s.up sem).Rests thread reason := by
  refine ⟨?_, rests.2⟩
  rw [← rests.1, Semaphores.up]
  cases waiters : s.waiters sem with
  | nil => rfl
  | cons head tail =>
      refine Dispatcher.setPhase_of_ne _ _ ?_
      rintro rfl
      have waits := (inv.waiting sem thread (waiters ▸ List.mem_cons_self)).1
      rw [rests.2] at waits
      cases waits

omit [DecidableEq σ] in
theorem yield (rests : s.Rests thread reason) (inv : s.Inv idle why first)
    (notIdle : thread ≠ idle) :
    (s.withThreads ((s.threads.enqueue s.threads.running).dispatch idle)).Rests thread reason := by
  refine ⟨inv.sound.vacant_enqueue.dispatch_asleep ?_ notIdle, rests.2⟩
  rw [Dispatcher.enqueue_phase, Dispatcher.setPhase_of_ne _ _ (rests.ne_running inv), rests.1]

omit [DecidableEq σ] in
theorem sleep (rests : s.Rests thread reason) (inv : s.Inv idle why first)
    (notIdle : thread ≠ idle) (why' : κ) :
    (s.withThreads ((s.threads.sleep why').dispatch idle)).Rests thread reason :=
  ⟨rests.sleep_dispatch inv notIdle why', rests.2⟩

omit [DecidableEq σ] in
theorem wake (rests : s.Rests thread reason) {other : τ} (different : thread ≠ other) :
    (s.withThreads (s.threads.wake other)).Rests thread reason :=
  ⟨(Dispatcher.setPhase_of_ne _ _ different).trans rests.1, rests.2⟩

omit [DecidableEq σ] in
theorem start (rests : s.Rests thread reason) {other : τ}
    (absent : s.threads.phase other = .absent) :
    (s.withThreads (s.threads.start other)).Rests thread reason := by
  refine ⟨(Dispatcher.setPhase_of_ne _ _ ?_).trans rests.1, rests.2⟩
  rintro rfl
  have phase := rests.1
  rw [absent] at phase
  cases phase

omit [DecidableEq σ] in
/-- The running thread goes to sleep. -/
theorem of_running (inv : s.Inv idle why first) (free : s.spot s.threads.running = none)
    (notIdle : s.threads.running ≠ idle) (reason : κ) :
    (s.withThreads ((s.threads.sleep reason).dispatch idle)).Rests s.threads.running reason :=
  ⟨(inv.sound.vacant_sleep reason).dispatch_asleep (Dispatcher.setPhase_self ..) notIdle, free⟩

end Rests

end Semaphores

end Foundation
