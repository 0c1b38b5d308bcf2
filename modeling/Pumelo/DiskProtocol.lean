import Pumelo.DiskRun

/-!
# Commands and their interrupts

What every run keeps of the flag and the semaphore of a channel, and which channels the
handler reaches through `general_intr_handler`.
-/

namespace Pumelo

open Foundation

namespace DiskRun

variable {s : DiskRun} {first : Nat → Nat} {c : Nat} {semas : Semaphores Nat Asleep Nat}

/-- A thread that queues is the driver: an interrupt is expected that has not come. -/
theorem Inv.queued (inv : s.Inv first) (binary : ∀ sema, first sema ≤ 1) (inside : c < s.count)
    (refines : s.kernel.Refines first semas) {thread : Nat}
    (waits : thread ∈ semas.waiters (s.diskDone c)) :
    (s.channels c).expectingIntr = 1 ∧ (s.kernel.machine.mem (s.diskDone c)).toNat = 0 ∧
      semas.waiters (s.diskDone c) = [thread] := by
  have channel := inv.channels c inside
  have driver : ∀ query, semas.spot query = some (s.diskDone c) → s.Waiting c query :=
    fun query spot => (channel.spot query).mp ((refines.spot query).symm.trans spot)
  obtain ⟨d, isDriver, place, rfl⟩ := driver thread (refines.inv.waiting _ thread waits).1
  have only : ∀ query, semas.spot query = some (s.diskDone c) → query = d.thread := by
    intro query spot
    obtain ⟨d', isDriver', -, rfl⟩ := driver query spot
    cases isDriver.symm.trans isDriver'
    rfl
  have out : s.outstanding c = 1 := by
    rw [outstanding_of isDriver, place]
    rfl
  have asleep := (refines.inv.waiting _ _ waits).2
  have zero : (s.kernel.machine.mem (s.diskDone c)).toNat ≠ 1 := by
    intro one
    have value : semas.value (s.diskDone c) = 1 := by
      rw [← (refines.holds.semas _ channel.live).count, one]
    obtain ⟨woken, spot, ready | running⟩ := refines.inv.woken _ value (List.ne_nil_of_mem waits)
    · rw [only woken spot, asleep] at ready
      cases ready
    · rw [← only woken spot, running, refines.inv.sound.running_phase] at asleep
      cases asleep
  have balance := (inv.balance binary inside).1
  have members : ∀ query ∈ semas.waiters (s.diskDone c), query = d.thread :=
    fun query member => only query (refines.inv.waiting _ query member).1
  have nodup := refines.inv.nodup (s.diskDone c)
  refine ⟨by omega, by omega, ?_⟩
  cases queue : semas.waiters (s.diskDone c) with
  | nil => simp [queue] at waits
  | cons head rest =>
      rw [queue] at members nodup
      cases rest with
      | nil => rw [members head List.mem_cons_self]
      | cons second rest =>
          have same := (members head (by simp)).trans (members second (by simp)).symm
          exact absurd (same ▸ List.mem_cons_self) (List.nodup_cons.mp nodup).1

/-- The handler of a channel that expects no interrupt. -/
theorem hdIntrHandler_quiet {m : Machine} {channels : Nat → IdeChannel} (few : c < 2)
    (irq : (channels c).irqNo = 0x2e + c) (quiet : (channels c).expectingIntr = 0) :
    hdIntrHandler m channels (0x2e + c) = .ok (m, channels) := by
  have number : 0x2e + c = 0x2e ∨ 0x2e + c = 0x2f := by omega
  rw [hdIntrHandler, bind_ok (assert_of number _)]
  simp only [Nat.add_sub_cancel_left, bind_ok (assert_of irq _), quiet, ne_eq, not_true, if_false]
  rfl

/-- The handler of a channel that expects one. -/
theorem hdIntrHandler_expected {m m' : Machine} {channels : Nat → IdeChannel} (few : c < 2)
    (irq : (channels c).irqNo = 0x2e + c) (expected : (channels c).expectingIntr ≠ 0)
    (up : semaUp m (channels c).diskDone = .ok m') :
    hdIntrHandler m channels (0x2e + c) =
      .ok (m', Function.update channels c { channels c with expectingIntr := 0 }) := by
  have number : 0x2e + c = 0x2e ∨ 0x2e + c = 0x2f := by omega
  rw [hdIntrHandler, bind_ok (assert_of number _)]
  simp only [Nat.add_sub_cancel_left, bind_ok (assert_of irq _), if_pos expected, bind_ok up]
  rfl

/-- The handler of a channel returns and leaves nobody in its queue: who was there is
ready. -/
theorem Inv.serves (inv : s.Inv first) (binary : ∀ sema, first sema ≤ 1) (inside : c < s.count)
    (here : s.kernel.here = .outside) (refines : s.kernel.Refines first semas) :
    ∃ m channels, hdIntrHandler s.kernel.machine s.channels (s.channels c).irqNo =
        .ok (m, channels) ∧
      Kernel.Waiters { s.kernel with machine := m } (s.diskDone c) [] ∧
      ∀ thread ∈ semas.waiters (s.diskDone c),
        Kernel.Ready { s.kernel with machine := m } thread := by
  have channel := inv.channels c inside
  have irq := channel.irq
  have few : c < 2 := by
    have few := inv.few
    omega
  obtain ⟨balance, once⟩ := inv.balance binary inside
  rw [irq]
  by_cases quiet : (s.channels c).expectingIntr = 0
  · have none : ∀ thread, thread ∉ semas.waiters (s.diskDone c) := by
      intro thread waits
      have expected := (inv.queued binary inside refines waits).1
      omega
    refine ⟨_, _, hdIntrHandler_quiet few irq quiet, ?_,
      fun thread waits => absurd waits (none thread)⟩
    have waiting := (refines.binary channel.live).waiting
    rwa [List.eq_nil_iff_forall_not_mem.mpr none] at waiting
  · have zero : s.kernel.machine.mem (s.diskDone c) = 0 :=
      UInt8.toNat_inj.mp (show _ = 0 by omega)
    obtain ⟨m, run, refined⟩ := refines.up channel.live (here ▸ rfl) zero
    refine ⟨m, _, hdIntrHandler_expected few irq quiet run, ?_, fun thread waits => ?_⟩
    · have waiting := (refined.binary channel.live).waiting
      have rest : (semas.up (s.diskDone c)).waiters (s.diskDone c) = [] := by
        simp only [Semaphores.up, Function.update_self]
        cases queue : semas.waiters (s.diskDone c) with
        | nil => rfl
        | cons head rest =>
            have alone := (inv.queued binary inside refines
              (queue ▸ List.mem_cons_self : head ∈ _)).2.2
            rw [alone] at queue
            cases queue
            rfl
      rwa [rest] at waiting
    · have alone := (inv.queued binary inside refines waits).2.2
      refine (refined.ready_iff thread).mpr ?_
      rw [Semaphores.up, alone]
      exact Dispatcher.setPhase_self ..

/-! ## A driver that waits -/

/-- Two channels that are set up, and nobody drives them yet. -/
theorem exists_channels : ∃ s : DiskRun, (diskSystem fun _ => 0).Reachable s ∧ s.count = 2 ∧
    (∀ thread, s.kernel.spot thread = .outside) ∧ (∀ c, s.driver c = none) ∧
    (s.channels 1).lock = lockInit ∧
    s.kernel.machine.running ≠ s.kernel.machine.idleThread := by
  obtain ⟨k, initial, image, threads⟩ := Kernel.initial_booted
  obtain ⟨main, different, refines⟩ := initial.refines fun _ => Nat.zero_le 1
  obtain ⟨-, -, -, -, -, -, -, -, -, semas, spot, -⟩ := id initial
  let channels : Nat → IdeChannel :=
    fun c => ⟨0, lockInit, 0, if c = 0 then 0xc0020000 else 0xc0020100⟩
  have start : Initial (fun _ => 0) ⟨k, channels, 0, fun _ => none, fun _ => 0⟩ :=
    ⟨.init initial, rfl, fun _ => rfl, fun _ => rfl, fun _ => rfl⟩
  have placed : SemaPlaced k.machine.image k.threads 0xc0020000 ∧
      SemaPlaced k.machine.image k.threads 0xc0020100 := by
    rw [image, threads]
    refine ⟨⟨by decide, by decide, by decide, fun thread member => ?_⟩,
      ⟨by decide, by decide, by decide, fun thread member => ?_⟩⟩
    · rcases List.mem_pair.mp member with rfl | rfl <;> decide
    · rcases List.mem_pair.mp member with rfl | rfl <;> decide
  have reached₁ : (diskSystem fun _ => 0).Reachable _ := .step (.init start)
    (Step.setup (spot _) (show 0 < 2 by decide) (by simp [semas]) placed.1 (by simp [semas]) rfl)
  have reached₂ : (diskSystem fun _ => 0).Reachable _ := reached₁.step
    (Step.setup (spot _) (show 1 < 2 by decide) (by simp [semas, diskDone, channels]) placed.2
      (by simp [semas, diskDone, channels]) rfl)
  exact ⟨_, reached₂, rfl, spot, fun _ => rfl, rfl, fun same =>
    different (same.symm.trans refines.running)⟩

/-- The running thread reads a sector from a disk of the second channel. -/
structure Reads (s : DiskRun) (place : DriverPlace) : Prop where
  reachable : (diskSystem fun _ => 0).Reachable s
  count : s.count = 2
  spot : ∀ thread, s.kernel.spot thread = .outside
  driver : s.driver 1 = some ⟨s.kernel.machine.running, .read 0 1, 0, place⟩
  expecting : place ≠ .loop → (s.channels 1).expectingIntr = 1

theorem exists_reads : ∃ s : DiskRun, s.Reads .loop := by
  obtain ⟨s, reached, count, spot, idle, lock, notIdle⟩ := exists_channels
  obtain ⟨semas, refines⟩ := Kernel.refines_of_reachable (fun _ => Nat.zero_le 1)
    (inv_of_reachable (fun _ => Nat.zero_le 1) reached).kernel
  have real : s.kernel.machine.running ≠ 0 := by
    have page := refines.holds.runs.pages _ (refines.threads ▸ refines.running_mem)
    have low := page.low
    omega
  have begins : (DriverCall.read 0 1).enter s.kernel.machine (s.channels 1).lock =
      .ok (Lock.heldBy s.kernel.machine.running, { s.kernel.machine with intr := .off }) := by
    rw [lock, ← lockAcquire_free real]
    rfl
  have alone : ∀ other d, s.driver other = some d → d.thread ≠ s.kernel.machine.running := by
    intro other d driver
    cases (idle other).symm.trans driver
  have inside : 1 < s.count := by omega
  exact ⟨_, reached.step (Step.enter (.read 0 1) (spot _) inside (idle 1) alone notIdle begins),
    count, spot, drive_driver s 1 ⟨s.kernel.machine.running, .read 0 1, 0, .loop⟩,
    fun away => absurd rfl away⟩

/-- Its command is issued. -/
theorem Reads.issues (reads : s.Reads .loop) : ∃ t : DiskRun, t.Reads .issued := by
  have step₁ : Step (fun _ => 0) s _ := .expect ⟨reads.driver, rfl⟩ (reads.spot _) rfl
    (show 0 < 1 by decide)
  generalize next : (DiskRun.mk _ _ _ _ _) = t at step₁
  have kernel : t.kernel = s.kernel := by rw [← next]; rfl
  have count : t.count = 2 := by rw [← next]; exact reads.count
  have driver : t.driver 1 = some ⟨t.kernel.machine.running, .read 0 1, 0, .expects⟩ := by
    rw [kernel, ← next]
    exact drive_driver s 1 _
  have expecting : (t.channels 1).expectingIntr = 1 := by
    rw [← next]
    simp only [Function.update_self]
  have spot : ∀ thread, t.kernel.spot thread = .outside := kernel ▸ reads.spot
  have step₂ : Step (fun _ => 0) t _ := .issue ⟨driver, rfl⟩ (spot _) rfl
  exact ⟨_, (reads.reachable.step step₁).step step₂, count, spot, drive_driver ..,
    fun _ => expecting⟩

/-- It waits in `sema_down`. -/
theorem Reads.waits (reads : s.Reads .issued) : ∃ t : DiskRun,
    (diskSystem fun _ => 0).Reachable t ∧ t.count = 2 ∧ t.kernel.here = .outside ∧
      ¬t.kernel.Waiters (t.diskDone 1) [] := by
  have binary : ∀ sema : Nat, (fun _ => 0) sema ≤ 1 := fun _ => Nat.zero_le 1
  have inv := inv_of_reachable binary reads.reachable
  have inside : 1 < s.count := reads.count ▸ by decide
  have live := (inv.channels 1 inside).live
  obtain ⟨semas, refines⟩ := Kernel.refines_of_reachable binary inv.kernel
  have here : s.kernel.here = .outside := reads.spot _
  have notIdle : s.kernel.machine.running ≠ s.kernel.machine.idleThread :=
    inv.notIdle 1 _ reads.driver
  have zero : semas.value (s.diskDone 1) = 0 := by
    obtain ⟨balance, once⟩ := inv.balance binary inside
    have expecting := reads.expecting nofun
    rw [← (refines.holds.semas _ live).count]
    omega
  have looks : semas.Looks (s.diskDone 1) := by
    left
    rw [refines.here, here]
    rfl
  obtain ⟨m, run, refined⟩ := refines.tries_wait live looks notIdle zero s.kernel.machine.intr
  have step : Step (fun _ => 0) s _ := .down ⟨reads.driver, rfl⟩ here rfl
    (by rw [intrDisable_eq]; exact run)
  have queued : s.kernel.machine.running ∈
      (semas.wait s.kernel.machine.idleThread .blocked (s.diskDone 1)).waiters (s.diskDone 1) := by
    simp [Semaphores.wait, refines.running]
  have asleep := (refined.inv.waiting _ _ queued).2
  have away : m.running ≠ s.kernel.machine.running := by
    intro same
    rw [← same, show m.running = _ from refined.running, refined.inv.sound.running_phase] at asleep
    cases asleep
  refine ⟨_, reads.reachable.step step, reads.count, ?_, fun empty => ?_⟩
  · exact (Kernel.goto_spot_of_ne _ _ _ away).trans (reads.spot _)
  · have waiting := (refined.binary live).waiting
    have none := waiting.listEmpty_iff.mp (ListAt.listEmpty_iff empty |>.mpr rfl)
    rw [List.map_eq_nil_iff.mp none] at queued
    cases queued

theorem exists_queued : ∃ s : DiskRun, (diskSystem fun _ => 0).Reachable s ∧ s.count = 2 ∧
    s.kernel.here = .outside ∧ ¬s.kernel.Waiters (s.diskDone 1) [] := by
  obtain ⟨s, reads⟩ := exists_reads
  obtain ⟨t, issued⟩ := reads.issues
  exact issued.waits

/-- The flag and the semaphore of a channel: at most one interrupt is on its way or not
consumed; a thread that queues waits for one that has not come, and it wakes that thread;
each command is answered and waited for once; and no assertion fails. -/
structure Protocol (s : DiskRun) (c : Nat) (waiters : List Nat) : Prop where
  once : (s.channels c).expectingIntr + (s.kernel.machine.mem (s.diskDone c)).toNat ≤ 1
  queue : s.kernel.Waiters (s.diskDone c) waiters
  waiting : ∀ thread ∈ waiters, (s.channels c).expectingIntr = 1 ∧
    (s.kernel.machine.mem (s.diskDone c)).toNat = 0
  answered : s.kernel.ups (s.diskDone c) + (s.channels c).expectingIntr = s.commands c
  consumed : s.kernel.downs (s.diskDone c) + s.outstanding c = s.commands c
  handler : s.kernel.here = .outside → ∃ m channels,
    hdIntrHandler s.kernel.machine s.channels (s.channels c).irqNo = .ok (m, channels) ∧
      ∀ thread ∈ waiters, Kernel.Ready { s.kernel with machine := m } thread
  down : ∀ d, s.Drives c d → s.kernel.here = .outside →
    ∃ result, semaTry (intrDisable s.kernel.machine).2 (s.diskDone c) = .ok result
  again : ∀ oldStatus, s.kernel.here = .looks (s.diskDone c) oldStatus →
    ∃ result, semaTry (setIntrStatus s.kernel.machine .off).2 (s.diskDone c) = .ok result

/-- The protocol of every channel that is set up, in every run. -/
theorem diskSystem_protocol (binary : ∀ sema, first sema ≤ 1)
    (reachable : (diskSystem first).Reachable s) (inside : c < s.count) :
    ∃ waiters, s.Protocol c waiters := by
  have inv := inv_of_reachable binary reachable
  have channel := inv.channels c inside
  obtain ⟨semas, refines⟩ := Kernel.refines_of_reachable binary inv.kernel
  obtain ⟨balance, once⟩ := inv.balance binary inside
  have calls := refines.callsReturn
  refine ⟨semas.waiters (s.diskDone c), by omega, (refines.binary channel.live).waiting,
    fun thread waits => ?_, channel.asked, channel.waited, fun here => ?_, fun d drives here => ?_,
    fun oldStatus here => calls.again _ oldStatus here⟩
  · obtain ⟨expected, zero, -⟩ := inv.queued binary inside refines waits
    exact ⟨expected, zero⟩
  · obtain ⟨m, channels, run, -, ready⟩ := inv.serves binary inside here refines
    exact ⟨m, channels, run, ready⟩
  · have notIdle := inv.notIdle c d drives.1
    exact calls.down _ channel.live here (.inl (drives.2 ▸ notIdle))

theorem diskSystem_protocol_queued : ∃ (s : DiskRun) (waiters : List Nat),
    s.Protocol 1 waiters ∧ waiters ≠ [] := by
  obtain ⟨s, reached, count, here, queued⟩ := exists_queued
  obtain ⟨waiters, protocol⟩ :=
    diskSystem_protocol (fun _ => Nat.zero_le 1) reached (show 1 < s.count by omega)
  exact ⟨s, waiters, protocol, fun none => queued (none ▸ protocol.queue)⟩

/-- The disk interrupts that `general_intr_handler` passes on. -/
theorem generalIntrHandler_disk (m : Machine) (channels : Nat → IdeChannel) (few : c < 2) :
    generalIntrHandler m channels (0x2e + c) =
      if c = 0 then hdIntrHandler m channels 0x2e else .ok (m, channels) := by
  obtain rfl | rfl : c = 0 ∨ c = 1 := by omega
  · rfl
  · rfl

/-- Whoever queues on a channel is served by the vector of the channel. -/
def EveryWaiterServed : Prop :=
  ∀ first : Nat → Nat, (∀ sema, first sema ≤ 1) → ∀ s, (diskSystem first).Reachable s →
    ∀ c < s.count, s.kernel.here = .outside → ∃ m channels,
      generalIntrHandler s.kernel.machine s.channels (s.channels c).irqNo = .ok (m, channels) ∧
        Kernel.Waiters { s.kernel with machine := m } (s.diskDone c) []

/-- The vector of a channel empties its queue if it is that of the first channel, or the
queue was empty. -/
theorem generalIntrHandler_serves (binary : ∀ sema, first sema ≤ 1)
    (reachable : (diskSystem first).Reachable s) (inside : c < s.count)
    (here : s.kernel.here = .outside) :
    (∃ m channels, generalIntrHandler s.kernel.machine s.channels (s.channels c).irqNo =
        .ok (m, channels) ∧ Kernel.Waiters { s.kernel with machine := m } (s.diskDone c) []) ↔
      c = 0 ∨ s.kernel.Waiters (s.diskDone c) [] := by
  have inv := inv_of_reachable binary reachable
  obtain ⟨semas, refines⟩ := Kernel.refines_of_reachable binary inv.kernel
  have few : c < 2 := by
    have few := inv.few
    omega
  have irq := (inv.channels c inside).irq
  obtain ⟨m, channels, run, empty, -⟩ := inv.serves binary inside here refines
  rw [irq] at run ⊢
  rw [generalIntrHandler_disk _ _ few]
  by_cases zero : c = 0
  · subst zero
    rw [if_pos rfl]
    exact iff_of_true ⟨m, channels, run, empty⟩ (.inl rfl)
  · rw [if_neg zero]
    constructor
    · rintro ⟨m', channels', same, empty'⟩
      cases same
      exact .inr empty'
    · intro empty'
      exact ⟨_, _, rfl, empty'.resolve_left zero⟩

theorem generalIntrHandler_serves_none : ∃ s : DiskRun, s.count = 2 ∧
    ¬∃ m channels, generalIntrHandler s.kernel.machine s.channels (s.channels 1).irqNo =
        .ok (m, channels) ∧ Kernel.Waiters { s.kernel with machine := m } (s.diskDone 1) [] := by
  obtain ⟨s, reached, count, here, queued⟩ := exists_queued
  refine ⟨s, count, fun served => ?_⟩
  obtain zero | none :=
    (generalIntrHandler_serves (fun _ => Nat.zero_le 1) reached (by omega) here).mp served
  · cases zero
  · exact queued none

/-- The vector of the second channel is 0x2f, which `general_intr_handler` returns from at
once. -/
theorem not_everyWaiterServed : ¬EveryWaiterServed := by
  intro always
  obtain ⟨s, reached, count, here, queued⟩ := exists_queued
  have inside : 1 < s.count := by omega
  have inv := inv_of_reachable (fun _ => Nat.zero_le 1) reached
  obtain ⟨m, channels, run, empty⟩ :=
    always _ (fun _ => Nat.zero_le 1) s reached 1 inside here
  rw [(inv.channels 1 inside).irq, generalIntrHandler_disk _ _ (by decide), if_neg (by decide)]
    at run
  cases run
  exact queued empty

end DiskRun

end Pumelo
