import Pumelo.SemaphoreRun

/-!
# What a step of the kernel leaves alone

Read off the code, whatever the state: the calls of the scheduler keep the image and the
idle thread, a step moves no thread but the running one, and where another thread runs
afterwards it finds interrupts off.
-/

namespace Pumelo

open Foundation

namespace Machine

/-- A call that leaves the processor to the running thread. -/
structure Stays (m m' : Machine) : Prop extends m.Agrees m' where
  running : m'.running = m.running

/-- A call that gives the processor away: the next thread finds interrupts off. -/
structure Leaves (m m' : Machine) : Prop extends m.Agrees m' where
  off : m'.intr = .off

theorem Agrees.trans {m m' m'' : Machine} (first : m.Agrees m') (second : m'.Agrees m'') :
    m.Agrees m'' :=
  ⟨second.image.trans first.image, second.mainThread.trans first.mainThread,
    second.idleThread.trans first.idleThread⟩

end Machine

variable {m m' : Machine}

theorem listPush_eq (m : Machine) (plist elem : Nat) :
    listPush m plist elem = { m with mem := linkBefore m.mem (nextOf m.mem plist) elem } := by
  simp only [listPush, listInsertBefore_eq]

theorem threadUnblock_stays {thread : Nat} (run : threadUnblock m thread = .ok m') :
    m.Stays m' ∧ m'.intr = m.intr := by
  simp only [threadUnblock, intrDisable_eq, bind_eq_ok, setIntrStatus_eq] at run
  obtain ⟨-, -, run⟩ := run
  split at run
  · simp only [bind_eq_ok] at run
    obtain ⟨-, -, -, -, found, -, run⟩ := run
    split at run
    · cases run
    · rw [listPush_eq] at run
      cases run
      exact ⟨⟨⟨rfl, rfl, rfl⟩, rfl⟩, rfl⟩
  · cases run
    exact ⟨⟨⟨rfl, rfl, rfl⟩, rfl⟩, rfl⟩

theorem requeue_stays {cur : Nat} (run : requeue m cur = .ok m') :
    m.Stays m' ∧ m'.intr = m.intr := by
  unfold requeue at run
  split at run
  · simp only [bind_eq_ok] at run
    obtain ⟨-, -, -, -, run⟩ := run
    rw [listAppend_eq] at run
    cases run
    exact ⟨⟨⟨rfl, rfl, rfl⟩, rfl⟩, rfl⟩
  · cases run
    exact ⟨⟨⟨rfl, rfl, rfl⟩, rfl⟩, rfl⟩

theorem wakeIdle_stays (run : wakeIdle m = .ok m') : m.Stays m' ∧ m'.intr = m.intr := by
  unfold wakeIdle at run
  split at run
  · exact threadUnblock_stays run
  · cases run
    exact ⟨⟨⟨rfl, rfl, rfl⟩, rfl⟩, rfl⟩

theorem switchNext_agrees (m : Machine) :
    m.Agrees (switchNext m) ∧ (switchNext m).intr = m.intr := by
  simp only [switchNext, listPop, listRemove_eq, and_true]
  exact ⟨rfl, rfl, rfl⟩

/-- `schedule` is called with interrupts off, and the next thread goes on with interrupts
off. -/
theorem schedule_leaves (run : schedule m = .ok m') : m.Leaves m' := by
  simp only [schedule, bind_eq_ok] at run
  obtain ⟨_, off, requeued, requeue, woken, wake, run⟩ := run
  cases run
  obtain ⟨requeuedStays, requeuedIntr⟩ := requeue_stays requeue
  obtain ⟨wokenStays, wokenIntr⟩ := wakeIdle_stays wake
  obtain ⟨switched, switchedIntr⟩ := switchNext_agrees woken
  refine ⟨(requeuedStays.toAgrees.trans wokenStays.toAgrees).trans switched, ?_⟩
  rw [switchedIntr, wokenIntr, requeuedIntr]
  exact assert_eq_ok.mp off

theorem threadBlock_leaves {stat : TaskStatus} {oldStatus : IntrStatus}
    (run : threadBlock m stat = .ok (oldStatus, m')) : m.Leaves m' ∧ oldStatus = m.intr := by
  simp only [threadBlock, intrDisable_eq, bind_eq_ok] at run
  obtain ⟨-, -, next, scheduled, run⟩ := run
  cases run
  have left := schedule_leaves scheduled
  exact ⟨⟨⟨left.image, left.mainThread, left.idleThread⟩, left.off⟩, rfl⟩

theorem threadYield_leaves {oldStatus : IntrStatus}
    (run : threadYield m = .ok (oldStatus, m')) : m.Leaves m' ∧ oldStatus = m.intr := by
  simp only [threadYield, intrDisable_eq, bind_eq_ok, listAppend_eq] at run
  obtain ⟨-, -, -, -, next, scheduled, run⟩ := run
  cases run
  have left := schedule_leaves scheduled
  exact ⟨⟨⟨left.image, left.mainThread, left.idleThread⟩, left.off⟩, rfl⟩

/-- The timer leaves the processor to the running thread, or it calls `schedule`. -/
theorem timerIntrHandler_stays (run : timerIntrHandler m = .ok m') :
    m.Stays m' ∧ m'.intr = m.intr ∨ m.Leaves m' := by
  simp only [timerIntrHandler, bind_eq_ok] at run
  obtain ⟨-, -, run⟩ := run
  split at run
  · have left := schedule_leaves run
    exact .inr ⟨⟨left.image, left.mainThread, left.idleThread⟩, left.off⟩
  · cases run
    exact .inl ⟨⟨⟨rfl, rfl, rfl⟩, rfl⟩, rfl⟩

/-- `sema_down` ends on the thread that called it, or gives up the processor. -/
theorem semaTry_stays {sema : Nat} {result : Bool × Machine}
    (run : semaTry m sema = .ok result) :
    result.1 = true ∧ m.Stays result.2 ∨ result.1 = false ∧ m.Leaves result.2 := by
  unfold semaTry at run
  split at run
  · simp only [bind_eq_ok] at run
    obtain ⟨-, -, -, -, found, -, run⟩ := run
    split at run
    · cases run
    · simp only [bind_eq_ok, listAppend_eq] at run
      obtain ⟨⟨oldStatus, next⟩, blocked, run⟩ := run
      cases run
      have left := (threadBlock_leaves blocked).1
      exact .inr ⟨rfl, ⟨left.image, left.mainThread, left.idleThread⟩, left.off⟩
  · simp only [bind_eq_ok] at run
    obtain ⟨-, -, run⟩ := run
    cases run
    exact .inl ⟨rfl, ⟨rfl, rfl, rfl⟩, rfl⟩

theorem wakeWaiter_stays {sema : Nat} (run : wakeWaiter m sema = .ok m') : m.Stays m' := by
  simp only [wakeWaiter, listPop, listRemove_eq] at run
  have stays := (threadUnblock_stays run).1
  exact ⟨⟨stays.image, stays.mainThread, stays.idleThread⟩, stays.running⟩

theorem semaUp_stays {sema : Nat} (run : semaUp m sema = .ok m') :
    m.Stays m' ∧ m'.intr = m.intr := by
  simp only [semaUp, intrDisable_eq, bind_eq_ok, setIntrStatus_eq] at run
  obtain ⟨-, -, run⟩ := run
  split at run
  · simp only [bind_eq_ok] at run
    obtain ⟨woken, wake, -, -, run⟩ := run
    cases wake
    cases run
    exact ⟨⟨⟨rfl, rfl, rfl⟩, rfl⟩, rfl⟩
  · simp only [bind_eq_ok] at run
    obtain ⟨woken, wake, -, -, run⟩ := run
    have stays := wakeWaiter_stays wake
    cases run
    exact ⟨⟨⟨stays.image, stays.mainThread, stays.idleThread⟩, stays.running⟩, rfl⟩

theorem threadStart_stays {thread : Nat} {start : Start}
    (run : threadStart m thread start = .ok m') : m.Stays m' := by
  simp only [threadStart, enlist, bind_eq_ok] at run
  obtain ⟨-, -, -, -, -, -, -, -, run⟩ := run
  simp only [listAppend_eq] at run
  cases run
  exact ⟨⟨rfl, rfl, rfl⟩, rfl⟩

namespace Kernel

variable {k next : Kernel} {first : Nat → Nat}

/-- A step leaves the processor to the running thread, or it gives it away. -/
theorem Step.stays (taken : Step first False k next) :
    k.machine.Stays next.machine ∨ k.machine.Leaves next.machine := by
  have tries : ∀ {sema : Nat} {oldStatus : IntrStatus} {result : Bool × Machine},
      semaTry { k.machine with intr := .off } sema = .ok result →
      k.machine.Stays (k.afterTry sema oldStatus result).machine ∨
        k.machine.Leaves (k.afterTry sema oldStatus result).machine := by
    rintro sema oldStatus ⟨ended, m'⟩ run
    obtain ⟨rfl, stays⟩ | ⟨rfl, left⟩ := semaTry_stays run
    · simp only [afterTry, Kernel.goto, setIntrStatus_eq]
      exact .inl ⟨⟨stays.image, stays.mainThread, stays.idleThread⟩, stays.running⟩
    · exact .inr ⟨⟨left.image, left.mainThread, left.idleThread⟩, left.off⟩
  cases taken with
  | init sema value here fresh placed apart count => exact .inl ⟨⟨rfl, rfl, rfl⟩, rfl⟩
  | down sema result here live notIdle run =>
      rw [intrDisable_eq] at run
      exact tries run
  | again sema oldStatus result here run =>
      rw [setIntrStatus_eq] at run
      exact tries run
  | up sema machine here live zero run => exact .inl (semaUp_stays run).1
  | timer machine here on run =>
      obtain ⟨stays, -⟩ | left := timerIntrHandler_stays run
      · exact .inl ⟨⟨stays.image, stays.mainThread, stays.idleThread⟩, stays.running⟩
      · exact .inr ⟨⟨left.image, left.mainThread, left.idleThread⟩, left.off⟩
  | yield oldStatus machine here run => exact .inr (threadYield_leaves run).1
  | block reason oldStatus machine here run => exact .inr (threadBlock_leaves run).1
  | resume oldStatus here =>
      simp only [Kernel.goto, setIntrStatus_eq]
      exact .inl ⟨⟨rfl, rfl, rfl⟩, rfl⟩
  | unblock thread machine here plain run => exact .inl (threadUnblock_stays run).1
  | start thread start machine here page fresh fits clear run => exact .inl (threadStart_stays run)
  | compute mem intr here agree => exact .inl ⟨⟨rfl, rfl, rfl⟩, rfl⟩

theorem Step.agrees (taken : Step first False k next) : k.machine.Agrees next.machine := by
  obtain stays | left := taken.stays
  · exact stays.toAgrees
  · exact left.toAgrees

/-- Where a step changes the running thread, it leaves interrupts off. -/
theorem Step.switched_off (taken : Step first False k next)
    (switched : next.machine.running ≠ k.machine.running) : next.machine.intr = .off := by
  obtain stays | left := taken.stays
  · exact absurd stays.running switched
  · exact left.off

/-- A thread that does not run stays where it is. -/
theorem Step.spot_of_ne (taken : Step first False k next) {thread : Nat}
    (other : thread ≠ k.machine.running) : next.spot thread = k.spot thread := by
  have tries : ∀ sema oldStatus result,
      (k.afterTry sema oldStatus result).spot thread = k.spot thread := by
    rintro sema oldStatus ⟨ended, m⟩
    cases ended <;> exact Function.update_of_ne other ..
  cases taken with
  | down sema result => exact tries _ _ _
  | again sema oldStatus result => exact tries _ _ _
  | timer | yield | block | resume => exact Function.update_of_ne other ..
  | _ => rfl

/-- A step starts threads that did not exist. -/
theorem Step.started_new (taken : Step first False k next) :
    ∃ started, next.threads = k.threads ++ started ∧ ∀ thread ∈ started, thread ∉ k.threads := by
  have tries : ∀ sema oldStatus result, ∃ started,
      (k.afterTry sema oldStatus result).threads = k.threads ++ started ∧
        ∀ thread ∈ started, thread ∉ k.threads := by
    rintro sema oldStatus ⟨ended, m⟩
    cases ended <;> exact ⟨[], (List.append_nil _).symm, nofun⟩
  cases taken with
  | start thread start machine here page fresh fits clear run =>
      refine ⟨[thread], rfl, fun other member => ?_⟩
      rwa [List.mem_singleton.mp member]
  | down sema result => exact tries _ _ _
  | again sema oldStatus result => exact tries _ _ _
  | _ => exact ⟨[], (List.append_nil _).symm, nofun⟩

/-- Semaphores are never taken away. -/
theorem Step.semas_subset (taken : Step first False k next) {sema : Nat} (live : sema ∈ k.semas) :
    sema ∈ next.semas := by
  have tries : ∀ other oldStatus result, sema ∈ (k.afterTry other oldStatus result).semas := by
    rintro other oldStatus ⟨ended, m⟩
    cases ended <;> exact live
  cases taken with
  | init => exact List.mem_cons_of_mem _ live
  | down other result => exact tries _ _ _
  | again other oldStatus result => exact tries _ _ _
  | _ => exact live

/-- The calls on a semaphore that is not initialised yet have not been counted. -/
theorem quiet_of_reachable (binary : ∀ sema, first sema ≤ 1)
    (reachable : (semaphoreSystem first False).Reachable k) :
    ∀ sema ∉ k.semas, k.downs sema = 0 ∧ k.ups sema = 0 := by
  induction reachable with
  | init initial =>
      obtain ⟨-, -, -, -, -, -, -, -, -, -, -, downs, ups⟩ := initial
      exact fun sema _ => ⟨downs sema, ups sema⟩
  | @step k next before taken ih =>
      intro sema fresh
      have fresh' : sema ∉ k.semas := fun live => fresh (taken.semas_subset live)
      have quiet := ih sema fresh'
      have tries : ∀ other oldStatus result, other ∈ k.semas →
          (k.afterTry other oldStatus result).downs sema = 0 ∧
            (k.afterTry other oldStatus result).ups sema = 0 := by
        rintro other oldStatus ⟨ended, m⟩ live
        have different : sema ≠ other := fun equal => fresh' (equal ▸ live)
        cases ended with
        | true => exact ⟨(Function.update_of_ne different ..).trans quiet.1, quiet.2⟩
        | false => exact quiet
      cases taken with
      | down other result here live notIdle run => exact tries other _ _ live
      | again other oldStatus result here run =>
          obtain ⟨s, refines⟩ := refines_of_reachable binary before
          have spot : s.spot s.threads.running = some other := by
            rw [refines.here, here]
            rfl
          exact tries other _ _ (refines.known _ other spot).2
      | up other machine here live zero run =>
          have different : sema ≠ other := fun equal => fresh' (equal ▸ live)
          exact ⟨quiet.1, (Function.update_of_ne different ..).trans quiet.2⟩
      | _ => exact quiet

/-- The running thread goes on where it was. -/
theorem goto_here (k : Kernel) (m : Machine) {spot : Spot} (here : k.here = spot) :
    k.goto m spot = { k with machine := m } := by
  rw [Kernel.goto, ← here]
  congr 1
  exact Function.update_eq_self ..

theorem goto_spot_of_ne (k : Kernel) (m : Machine) (spot : Spot) {thread : Nat}
    (other : thread ≠ k.machine.running) : (k.goto m spot).spot thread = k.spot thread :=
  Function.update_of_ne other ..

@[simp] theorem goto_spot_self (k : Kernel) (m : Machine) (spot : Spot) :
    (k.goto m spot).spot k.machine.running = spot := Function.update_self ..

/-- A thread that rests sleeps plainly. -/
theorem Refines.sleepsPlainly {s : Semaphores Nat Asleep Nat} (refines : k.Refines first s)
    {thread : Nat} {reason : Asleep} (rests : s.Rests thread reason) :
    k.SleepsPlainly thread ∧ statusOf k.machine.mem thread = reason.status.code := by
  have member : thread ∈ s.threads.born := (refines.inv.sound.born thread).mpr (by simp [rests.1])
  have status := refines.holds.runs.status thread member
  rw [rests.1] at status
  exact ⟨⟨refines.threads ▸ member, (refines.spot thread).symm.trans rests.2, reason, status⟩,
    status⟩

/-- The running thread has been started. -/
theorem Refines.running_mem {s : Semaphores Nat Asleep Nat} (refines : k.Refines first s) :
    k.machine.running ∈ k.threads := by
  rw [refines.running, ← refines.threads]
  exact refines.inv.sound.running_mem

end Kernel

end Pumelo
