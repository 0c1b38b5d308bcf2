import Pumelo.Ide
import Pumelo.KernelSteps

/-!
# Disk interrupts

The channels of `ide.c` with their handler, in runs of the kernel.  A driver call goes from
one command to the next: it says that it expects an interrupt, issues the command, and
goes down on `disk_done`, which the handler goes up on if an interrupt is expected.  The
handler may be called wherever a thread runs code of its own.
-/

namespace Pumelo

open Foundation

/-- `struct ide_channel`; `diskDone` is the address of its semaphore. -/
structure IdeChannel where
  irqNo : Nat
  lock : Lock
  expectingIntr : Nat
  diskDone : Nat

/-- What `ide_init` stores in a channel, apart from the semaphore. -/
def ideInitChannel (channelNo : Nat) (channel : IdeChannel) : IdeChannel :=
  { channel with
    irqNo := if channelNo = 0 then 0x20 + 14 else if channelNo = 1 then 0x20 + 15 else channel.irqNo
    expectingIntr := 0
    lock := lockInit }

theorem ideInitChannel_irq {channelNo : Nat} (few : channelNo < 2) (channel : IdeChannel) :
    (ideInitChannel channelNo channel).irqNo = 0x2e + channelNo := by
  simp only [ideInitChannel]
  split
  · omega
  · rw [if_pos (by omega)]
    omega

/-- `hd_intr_handler` -/
def hdIntrHandler (m : Machine) (channels : Nat → IdeChannel) (irqNo : Nat) :
    Except Fault (Machine × (Nat → IdeChannel)) := do
  assert (irqNo = 0x2e ∨ irqNo = 0x2f) "irq_no == 0x2e || irq_no == 0x2f"
  let channelNo := irqNo - 0x2e
  let channel := channels channelNo
  assert (channel.irqNo = irqNo) "channel->irq_no == irq_no"
  if channel.expectingIntr ≠ 0 then
    let channels := Function.update channels channelNo { channel with expectingIntr := 0 }
    let m ← semaUp m channel.diskDone
    return (m, channels)
  return (m, channels)

/-- `general_intr_handler`; the handlers that only print leave everything as it is. -/
def generalIntrHandler (m : Machine) (channels : Nat → IdeChannel) (vecno : Nat) :
    Except Fault (Machine × (Nat → IdeChannel)) :=
  if vecno = 0x27 ∨ vecno = 0x2f then .ok (m, channels)
  else if vecno = 14 then .error .diverge
  else if vecno = 32 then do
    let m ← timerIntrHandler m
    return (m, channels)
  else if vecno = 46 ∨ vecno = 47 then hdIntrHandler m channels vecno
  else .ok (m, channels)

/-- The calls that drive a disk. -/
inductive DriverCall where
  | identify
  | read (lba secCnt : Nat)
  | write (lba secCnt : Nat)
  deriving DecidableEq, Repr

/-- How many sectors a call moves. -/
def DriverCall.secCnt : DriverCall → Nat
  | identify => 1
  | read _ secCnt | write _ secCnt => secCnt

/-- The beginning of a call, up to the loop. -/
def DriverCall.enter (m : Machine) (lock : Lock) : DriverCall → Except Fault (Lock × Machine)
  | identify => .ok (lock, m)
  | read lba secCnt | write lba secCnt => do
      assert (lba ≤ maxLba) "lba <= max_lba"
      assert (secCnt > 0) "sec_cnt > 0"
      lockAcquire m lock

/-- The end of a call, behind the loop. -/
def DriverCall.leave (m : Machine) (lock : Lock) : DriverCall → Except Fault (Lock × Machine)
  | identify => .ok (lock, m)
  | read _ _ | write _ _ => lockRelease m lock

/-- Where a call is: at the condition of its loop, between the two statements of `cmd_out`,
behind them, behind `write_to_sector`, in `sema_down`, or behind it. -/
inductive DriverPlace where
  | loop
  | expects
  | issued
  | sent
  | waits
  | answered
  deriving DecidableEq, Repr

/-- From where a call goes down on `disk_done`. -/
def DriverCall.waitsAt : DriverCall → DriverPlace
  | identify | read _ _ => .issued
  | write _ _ => .sent

/-- A command has been given, or is about to be, that was not waited for yet. -/
def DriverPlace.pending : DriverPlace → Bool
  | loop | answered => false
  | expects | issued | sent | waits => true

/-- A thread in a driver call. -/
structure Driver where
  thread : Nat
  call : DriverCall
  secsDone : Nat
  place : DriverPlace

/-- A kernel, the channels and how many of them are set up, who drives each of them, and
how many commands each has been given. -/
structure DiskRun where
  kernel : Kernel
  channels : Nat → IdeChannel
  count : Nat
  driver : Nat → Option Driver
  commands : Nat → Nat

namespace DiskRun

/-- The semaphore of a channel. -/
def diskDone (s : DiskRun) (c : Nat) : Nat := (s.channels c).diskDone

/-- The running thread drives a channel. -/
def Drives (s : DiskRun) (c : Nat) (d : Driver) : Prop :=
  s.driver c = some d ∧ d.thread = s.kernel.machine.running

/-- The driver of a channel goes on to another place. -/
def drive (s : DiskRun) (c : Nat) (d : Driver) : DiskRun :=
  { s with driver := Function.update s.driver c (some d) }

/-- What `sema_down` of a driver leaves. -/
def afterDown (s : DiskRun) (c : Nat) (d : Driver) (oldStatus : IntrStatus)
    (result : Bool × Machine) : DiskRun :=
  { s with
    kernel := s.kernel.afterTry (s.diskDone c) oldStatus result
    driver := Function.update s.driver c
      (some { d with place := if result.1 then .answered else .waits }) }

/-- What the handler leaves. -/
def afterIntr (s : DiskRun) (irqNo : Nat) (result : Machine × (Nat → IdeChannel)) : DiskRun :=
  let sema := s.diskDone (irqNo - 0x2e)
  { s with
    kernel := { s.kernel with
      machine := result.1
      ups := if (s.channels (irqNo - 0x2e)).expectingIntr ≠ 0 then
        Function.update s.kernel.ups sema (s.kernel.ups sema + 1) else s.kernel.ups }
    channels := result.2 }

/-- A step of the kernel that is no call on a semaphore. -/
structure Untouched (k next : Kernel) (sema : Nat) : Prop where
  downs : next.downs sema = k.downs sema
  ups : next.ups sema = k.ups sema
  spot : ∀ thread, (next.spot thread).sema = some sema ↔ (k.spot thread).sema = some sema

/-- The steps.  The idle thread drives no disk, and nobody but the drivers and the handler
uses the semaphores of the channels. -/
inductive Step (first : Nat → Nat) : DiskRun → DiskRun → Prop where
  | setup {s : DiskRun} : s.kernel.here = .outside → s.count < 2 →
      s.diskDone s.count ∉ s.kernel.semas →
      SemaPlaced s.kernel.machine.image s.kernel.threads (s.diskDone s.count) →
      (∀ other ∈ s.kernel.semas,
        s.diskDone s.count + 20 ≤ other ∨ other + 20 ≤ s.diskDone s.count) →
      first (s.diskDone s.count) = 0 →
      Step first s { s with
        kernel := { s.kernel with
          machine := semaInit s.kernel.machine (s.diskDone s.count) 0
          semas := s.diskDone s.count :: s.kernel.semas }
        channels := Function.update s.channels s.count
          (ideInitChannel s.count (s.channels s.count))
        count := s.count + 1 }
  | enter {s : DiskRun} {c : Nat} (call : DriverCall) {lock : Lock} {m : Machine} :
      s.kernel.here = .outside → c < s.count → s.driver c = none →
      (∀ other d, s.driver other = some d → d.thread ≠ s.kernel.machine.running) →
      s.kernel.machine.running ≠ s.kernel.machine.idleThread →
      call.enter s.kernel.machine (s.channels c).lock = .ok (lock, m) →
      Step first s { s with
        kernel := { s.kernel with machine := m }
        channels := Function.update s.channels c { s.channels c with lock := lock }
        driver := Function.update s.driver c (some ⟨s.kernel.machine.running, call, 0, .loop⟩) }
  | expect {s : DiskRun} {c : Nat} {d : Driver} : s.Drives c d → s.kernel.here = .outside →
      d.place = .loop → d.secsDone < d.call.secCnt →
      Step first s { s.drive c { d with place := .expects } with
        channels := Function.update s.channels c { s.channels c with expectingIntr := 1 }
        commands := Function.update s.commands c (s.commands c + 1) }
  | issue {s : DiskRun} {c : Nat} {d : Driver} : s.Drives c d → s.kernel.here = .outside →
      d.place = .expects → Step first s (s.drive c { d with place := .issued })
  | send {s : DiskRun} {c : Nat} {d : Driver} : s.Drives c d → s.kernel.here = .outside →
      d.place = .issued → d.call.waitsAt = .sent →
      Step first s (s.drive c { d with place := .sent })
  | down {s : DiskRun} {c : Nat} {d : Driver} {result : Bool × Machine} : s.Drives c d →
      s.kernel.here = .outside → d.place = d.call.waitsAt →
      semaTry (intrDisable s.kernel.machine).2 (s.diskDone c) = .ok result →
      Step first s (s.afterDown c d s.kernel.machine.intr result)
  | again {s : DiskRun} {c : Nat} {d : Driver} {oldStatus : IntrStatus}
      {result : Bool × Machine} : s.Drives c d →
      s.kernel.here = .looks (s.diskDone c) oldStatus →
      semaTry (setIntrStatus s.kernel.machine .off).2 (s.diskDone c) = .ok result →
      Step first s (s.afterDown c d oldStatus result)
  | answer {s : DiskRun} {c : Nat} {d : Driver} : s.Drives c d → s.kernel.here = .outside →
      d.place = .answered → Step first s (s.drive c { d with
        secsDone := d.secsDone + secsOp d.call.secCnt d.secsDone
        place := .loop })
  | leave {s : DiskRun} {c : Nat} {d : Driver} {lock : Lock} {m : Machine} : s.Drives c d →
      s.kernel.here = .outside → d.place = .loop → ¬d.secsDone < d.call.secCnt →
      d.call.leave s.kernel.machine (s.channels c).lock = .ok (lock, m) →
      Step first s { s with
        kernel := { s.kernel with machine := m }
        channels := Function.update s.channels c { s.channels c with lock := lock }
        driver := Function.update s.driver c none }
  | interrupt {s : DiskRun} (irqNo : Nat) {result : Machine × (Nat → IdeChannel)} :
      s.kernel.here = .outside →
      hdIntrHandler s.kernel.machine s.channels irqNo = .ok result →
      Step first s (s.afterIntr irqNo result)
  | other {s : DiskRun} {next : Kernel} : Kernel.Step first False s.kernel next →
      (∀ c < s.count, Untouched s.kernel next (s.diskDone c)) →
      Step first s { s with kernel := next }

/-- Any kernel with two channels that are not set up yet; their bytes are zero. -/
def Initial (first : Nat → Nat) (s : DiskRun) : Prop :=
  (semaphoreSystem first False).Reachable s.kernel ∧ s.count = 0 ∧
    (∀ c, (s.channels c).irqNo = 0) ∧ (∀ c, s.driver c = none) ∧ ∀ c, s.commands c = 0

end DiskRun

/-- Disks over semaphores that are initialised to `first`. -/
def diskSystem (first : Nat → Nat) : System DiskRun where
  init := DiskRun.Initial first
  step := DiskRun.Step first

namespace DiskRun

variable {s next : DiskRun} {first : Nat → Nat} {c : Nat}

/-- How many commands of a channel were not waited for yet. -/
def outstanding (s : DiskRun) (c : Nat) : Nat :=
  match s.driver c with
  | some d => if d.place.pending then 1 else 0
  | none => 0

/-- The driver of a channel is in `sema_down`. -/
def Waiting (s : DiskRun) (c thread : Nat) : Prop :=
  ∃ d, s.driver c = some d ∧ d.place = .waits ∧ d.thread = thread

/-- What every run keeps of a channel: each command was answered, or an interrupt is
expected; each was waited for, or is outstanding; and only the driver waits. -/
structure ChannelInv (s : DiskRun) (first : Nat → Nat) (c : Nat) : Prop where
  live : s.diskDone c ∈ s.kernel.semas
  zero : first (s.diskDone c) = 0
  irq : (s.channels c).irqNo = 0x2e + c
  asked : s.kernel.ups (s.diskDone c) + (s.channels c).expectingIntr = s.commands c
  waited : s.kernel.downs (s.diskDone c) + s.outstanding c = s.commands c
  spot : ∀ thread, (s.kernel.spot thread).sema = some (s.diskDone c) ↔ s.Waiting c thread

/-- What every run keeps. -/
structure Inv (first : Nat → Nat) (s : DiskRun) : Prop where
  kernel : (semaphoreSystem first False).Reachable s.kernel
  few : s.count ≤ 2
  bss : ∀ c, s.count ≤ c → (s.channels c).irqNo = 0 ∧ s.driver c = none ∧ s.commands c = 0
  apart : ∀ c < s.count, ∀ other < s.count, s.diskDone c = s.diskDone other → c = other
  notIdle : ∀ c d, s.driver c = some d → d.thread ≠ s.kernel.machine.idleThread
  channels : ∀ c < s.count, s.ChannelInv first c

theorem enter_machine {call : DriverCall} {m m' : Machine} {lock lock' : Lock}
    (run : call.enter m lock = .ok (lock', m')) : m' = { m with intr := m'.intr } := by
  cases call with
  | identify =>
      cases run
      rfl
  | read | write =>
      simp only [DriverCall.enter, bind_eq_ok] at run
      obtain ⟨-, -, -, -, run⟩ := run
      exact lockAcquire_machine run

theorem leave_machine {call : DriverCall} {m m' : Machine} {lock lock' : Lock}
    (run : call.leave m lock = .ok (lock', m')) : m' = { m with intr := m'.intr } := by
  cases call with
  | identify =>
      cases run
      rfl
  | read | write => exact lockRelease_machine run

/-- A change of the interrupt flag. -/
theorem kernel_flag {k : Kernel} (here : k.here = .outside) {m : Machine}
    (flag : m = { k.machine with intr := m.intr }) :
    Kernel.Step first False k { k with machine := m } := by
  rw [flag]
  exact .compute k.machine.mem m.intr here fun _ _ => rfl

theorem hdIntrHandler_eq_ok {m m' : Machine} {channels channels' : Nat → IdeChannel} {irqNo : Nat}
    (run : hdIntrHandler m channels irqNo = .ok (m', channels')) :
    (irqNo = 0x2e ∨ irqNo = 0x2f) ∧ (channels (irqNo - 0x2e)).irqNo = irqNo ∧
      ((channels (irqNo - 0x2e)).expectingIntr = 0 ∧ m' = m ∧ channels' = channels ∨
        (channels (irqNo - 0x2e)).expectingIntr ≠ 0 ∧
          semaUp m (channels (irqNo - 0x2e)).diskDone = .ok m' ∧
          channels' = Function.update channels (irqNo - 0x2e)
            { channels (irqNo - 0x2e) with expectingIntr := 0 }) := by
  simp only [hdIntrHandler, bind_eq_ok] at run
  obtain ⟨_, number, _, same, run⟩ := run
  refine ⟨assert_eq_ok.mp number, assert_eq_ok.mp same, ?_⟩
  split at run
  · next expected =>
      simp only [bind_eq_ok] at run
      obtain ⟨woken, up, run⟩ := run
      cases run
      exact .inr ⟨expected, up, rfl⟩
  · next idle =>
      cases run
      exact .inl ⟨not_not.mp idle, rfl, rfl⟩

/-- `sema_up` asserts a value of 0. -/
theorem semaUp_zero {m m' : Machine} {sema : Nat} (run : semaUp m sema = .ok m') :
    m.mem sema = 0 := by
  simp only [semaUp, intrDisable_eq, bind_eq_ok] at run
  obtain ⟨_, zero, -⟩ := run
  exact assert_eq_ok.mp zero

/-- A step of a driver or of the handler is a step of the kernel, or leaves it alone. -/
theorem Inv.kernel_step (inv : s.Inv first) (taken : Step first s next) :
    next.kernel = s.kernel ∨ Kernel.Step first False s.kernel next.kernel := by
  have live : ∀ {c d}, s.Drives c d → s.diskDone c ∈ s.kernel.semas := by
    intro c d drives
    refine (inv.channels c ?_).live
    by_contra beyond
    have none := (inv.bss c (by omega)).2.1
    cases none.symm.trans drives.1
  cases taken with
  | setup here few fresh placed apart zero =>
      exact .inr (.init _ 0 here fresh placed apart zero.symm)
  | enter call here inside idle alone notIdle run =>
      exact .inr (kernel_flag here (enter_machine run))
  | down drives here place run =>
      have notIdle := inv.notIdle _ _ drives.1
      exact .inr (.down _ _ here (live drives) (.inl (drives.2 ▸ notIdle)) run)
  | again drives here run => exact .inr (.again _ _ _ here run)
  | leave drives here place ended run => exact .inr (kernel_flag here (leave_machine run))
  | @interrupt irqNo result here run =>
      obtain ⟨m, channels⟩ := result
      obtain ⟨number, same, ⟨quiet, rfl, rfl⟩ | ⟨expected, up, rfl⟩⟩ := hdIntrHandler_eq_ok run
      · left
        simp [afterIntr, quiet]
      · have inside : irqNo - 0x2e < s.count := by
          by_contra beyond
          have zero := (inv.bss (irqNo - 0x2e) (by omega)).1
          omega
        right
        simp only [afterIntr, if_pos expected]
        exact .up _ _ here (inv.channels _ inside).live (semaUp_zero up) up
  | other taken alone => exact .inr taken
  | expect | issue | send | answer => exact .inl rfl

/-! ## One step of a channel -/

namespace Untouched

variable {k : Kernel} {sema other : Nat}

theorem refl (k : Kernel) (sema : Nat) : Untouched k k sema := ⟨rfl, rfl, fun _ => Iff.rfl⟩

/-- A call on a semaphore leaves the other ones alone. -/
theorem afterTry (here : ∀ seen, k.here.sema = some seen → seen = sema) (different : other ≠ sema)
    (oldStatus : IntrStatus) (result : Bool × Machine) :
    Untouched k (k.afterTry sema oldStatus result) other := by
  have looks : (k.spot k.machine.running).sema ≠ some other := fun seen => different (here _ seen)
  obtain ⟨ended, m⟩ := result
  cases ended with
  | true =>
      refine ⟨Function.update_of_ne different .., rfl, fun thread => ?_⟩
      simp only [Kernel.afterTry, Kernel.goto, Function.update_apply]
      split
      · next self =>
          refine iff_of_false (fun seen => ?_) (self ▸ looks)
          cases seen
      · exact Iff.rfl
  | false =>
      refine ⟨rfl, rfl, fun thread => ?_⟩
      simp only [Kernel.afterTry, Kernel.goto, Function.update_apply]
      split
      · next self =>
          refine iff_of_false (fun seen => different ?_) (self ▸ looks)
          exact (Option.some.inj seen).symm
      · exact Iff.rfl

end Untouched

/-- What a step leaves of a channel that it is not about. -/
structure Same (s next : DiskRun) (c : Nat) : Prop where
  channel : next.channels c = s.channels c
  driver : next.driver c = s.driver c
  commands : next.commands c = s.commands c

theorem ChannelInv.same (inv : s.ChannelInv first c) (same : s.Same next c)
    (kernel : Untouched s.kernel next.kernel (s.diskDone c))
    (semas : ∀ sema ∈ s.kernel.semas, sema ∈ next.kernel.semas) : next.ChannelInv first c := by
  obtain ⟨channel, driver, commands⟩ := same
  have diskDone : next.diskDone c = s.diskDone c := congrArg IdeChannel.diskDone channel
  refine ⟨diskDone ▸ semas _ inv.live, diskDone ▸ inv.zero, channel ▸ inv.irq, ?_, ?_,
    fun thread => ?_⟩
  · rw [diskDone, kernel.ups, channel, commands, inv.asked]
  · rw [diskDone, kernel.downs, commands, outstanding, driver]
    exact inv.waited
  · rw [diskDone, kernel.spot, inv.spot, Waiting, Waiting, driver]

/-- What a step leaves alone that is about one channel. -/
structure About (s next : DiskRun) (c : Nat) : Prop where
  count : next.count = s.count
  others : ∀ other ≠ c, s.Same next other
  diskDone : next.diskDone c = s.diskDone c
  irq : (next.channels c).irqNo = (s.channels c).irqNo
  semas : next.kernel.semas = s.kernel.semas
  kernel : ∀ sema ≠ s.diskDone c, Untouched s.kernel next.kernel sema

/-- Between commands no interrupt is expected: so many were waited for as were given. -/
theorem Inv.balance (inv : s.Inv first) (binary : ∀ sema, first sema ≤ 1) (inside : c < s.count) :
    (s.channels c).expectingIntr + (s.kernel.machine.mem (s.diskDone c)).toNat = s.outstanding c ∧
      s.outstanding c ≤ 1 := by
  have channel := inv.channels c inside
  obtain ⟨s', refines⟩ := Kernel.refines_of_reachable binary inv.kernel
  have held := refines.binary channel.live
  have count := held.count
  have asked := channel.asked
  have waited := channel.waited
  have zero := channel.zero
  refine ⟨by omega, ?_⟩
  unfold outstanding
  split
  · split <;> omega
  · omega

theorem Inv.reachable_step (inv : s.Inv first) (taken : Step first s next) :
    (semaphoreSystem first False).Reachable next.kernel ∧
      next.kernel.machine.idleThread = s.kernel.machine.idleThread := by
  obtain same | step := inv.kernel_step taken
  · rw [same]
    exact ⟨inv.kernel, rfl⟩
  · exact ⟨inv.kernel.step step, step.agrees.idleThread⟩

/-- A step that is about one channel. -/
theorem Inv.of_about (inv : s.Inv first) (taken : Step first s next) (inside : c < s.count)
    (about : s.About next c)
    (driver : ∀ d, next.driver c = some d → d.thread ≠ s.kernel.machine.idleThread)
    (asked : next.kernel.ups (s.diskDone c) + (next.channels c).expectingIntr = next.commands c)
    (waited : next.kernel.downs (s.diskDone c) + next.outstanding c = next.commands c)
    (spot : ∀ thread, (next.kernel.spot thread).sema = some (s.diskDone c) ↔
      next.Waiting c thread) : next.Inv first := by
  obtain ⟨reachable, idle⟩ := inv.reachable_step taken
  obtain ⟨count, others, diskDone, irq, semas, kernel⟩ := about
  have channel := inv.channels c inside
  have done : ∀ other, next.diskDone other = s.diskDone other := by
    intro other
    by_cases same : other = c
    · rw [same, diskDone]
    · exact congrArg IdeChannel.diskDone (others other same).channel
  refine ⟨reachable, count ▸ inv.few, fun other beyond => ?_, fun one inOne other inOther => ?_,
    fun other d => ?_, fun other inOther => ?_⟩
  · rw [count] at beyond
    obtain ⟨channel, driver, commands⟩ := others other (by omega)
    rw [channel, driver, commands]
    exact inv.bss other beyond
  · rw [count] at inOne inOther
    rw [done, done]
    exact inv.apart one inOne other inOther
  · rw [idle]
    by_cases same : other = c
    · exact same ▸ driver d
    · rw [(others other same).driver]
      exact inv.notIdle other d
  · rw [count] at inOther
    by_cases same : other = c
    · subst same
      exact ⟨by rw [diskDone, semas]; exact channel.live, diskDone ▸ channel.zero,
        irq.trans channel.irq, diskDone ▸ asked, diskDone ▸ waited, diskDone ▸ spot⟩
    · have different : s.diskDone other ≠ s.diskDone c :=
        fun equal => same (inv.apart other inOther c inside equal)
      exact (inv.channels other inOther).same (others other same) (kernel _ different)
        fun sema live => semas ▸ live

theorem Drives.inside {d : Driver} (drives : s.Drives c d) (inv : s.Inv first) : c < s.count := by
  by_contra beyond
  have none := (inv.bss c (by omega)).2.1
  cases none.symm.trans drives.1

/-- Nobody looks at the semaphore while the driver is in code of its own. -/
theorem ChannelInv.nobody (inv : s.ChannelInv first c) {d : Driver} (drives : s.Drives c d)
    (here : s.kernel.here = .outside) (thread : Nat) :
    (s.kernel.spot thread).sema ≠ some (s.diskDone c) := by
  intro spot
  obtain ⟨d', driver, waits, rfl⟩ := (inv.spot thread).mp spot
  cases drives.1.symm.trans driver
  rw [drives.2, show s.kernel.spot s.kernel.machine.running = .outside from here] at spot
  cases spot

@[simp] theorem drive_driver (s : DiskRun) (c : Nat) (d : Driver) :
    (s.drive c d).driver c = some d := Function.update_self ..

theorem drive_same (s : DiskRun) (d : Driver) {other : Nat} (different : other ≠ c) :
    s.Same (s.drive c d) other :=
  ⟨rfl, Function.update_of_ne different .., rfl⟩

theorem outstanding_of {d : Driver} (driver : s.driver c = some d) :
    s.outstanding c = if d.place.pending then 1 else 0 := by
  rw [outstanding, driver]

theorem not_waiting {d : Driver} (driver : s.driver c = some d) (away : d.place ≠ .waits)
    (thread : Nat) : ¬s.Waiting c thread := by
  rintro ⟨d', driver', waits, -⟩
  cases driver.symm.trans driver'
  exact away waits

/-- The driver goes on from one place to another. -/
theorem Inv.drive (inv : s.Inv first) {d d' : Driver} (taken : Step first s (s.drive c d'))
    (drives : s.Drives c d) (here : s.kernel.here = .outside)
    (pending : d'.place.pending = d.place.pending) (away : d'.place ≠ .waits)
    (thread : d'.thread = d.thread) : (s.drive c d').Inv first := by
  have inside := drives.inside inv
  have channel := inv.channels c inside
  have driver := drive_driver s c d'
  refine inv.of_about taken inside ⟨rfl, fun other different => drive_same s d' different, rfl, rfl,
    rfl, fun sema _ => .refl _ _⟩ (fun d'' driver' => ?_) channel.asked ?_ fun query =>
      iff_of_false (channel.nobody drives here query) (not_waiting driver away query)
  · cases driver.symm.trans driver'
    rw [thread]
    exact inv.notIdle c d drives.1
  · rw [outstanding_of driver, pending, ← outstanding_of drives.1]
    exact channel.waited

/-- `expecting_intr` is set. -/
theorem Inv.expect (inv : s.Inv first) (binary : ∀ sema, first sema ≤ 1) {d : Driver}
    (drives : s.Drives c d) (here : s.kernel.here = .outside) (place : d.place = .loop)
    (more : d.secsDone < d.call.secCnt) :
    Inv first { s.drive c { d with place := .expects } with
      channels := Function.update s.channels c { s.channels c with expectingIntr := 1 }
      commands := Function.update s.commands c (s.commands c + 1) } := by
  have taken : Step first s _ := .expect drives here place more
  have inside := drives.inside inv
  have channel := inv.channels c inside
  have none : s.outstanding c = 0 := by
    rw [outstanding_of drives.1, place]
    rfl
  have balance := (inv.balance binary inside).1
  have asked := channel.asked
  have waited := channel.waited
  have driver := drive_driver s c { d with place := .expects }
  have out : (s.drive c { d with place := .expects }).outstanding c = 1 := outstanding_of driver
  refine inv.of_about taken inside ⟨rfl, fun other different =>
    ⟨Function.update_of_ne different .., Function.update_of_ne different ..,
      Function.update_of_ne different ..⟩, ?_, ?_, rfl, fun sema _ => .refl _ _⟩
    (fun d' driver' => ?_) ?_ ?_ fun query =>
      iff_of_false (channel.nobody drives here query) (not_waiting driver nofun query)
  · simp only [diskDone, Function.update_self]
  · simp only [Function.update_self]
  · cases driver.symm.trans driver'
    exact inv.notIdle c d drives.1
  · simp only [Function.update_self]
    change s.kernel.ups (s.diskDone c) + 1 = _
    omega
  · simp only [Function.update_self]
    change s.kernel.downs (s.diskDone c) + (s.drive c _).outstanding c = _
    omega

/-- A call begins. -/
theorem Inv.enter (inv : s.Inv first) {call : DriverCall} {lock : Lock} {m : Machine}
    (here : s.kernel.here = .outside) (inside : c < s.count) (idle : s.driver c = none)
    (alone : ∀ other d, s.driver other = some d → d.thread ≠ s.kernel.machine.running)
    (notIdle : s.kernel.machine.running ≠ s.kernel.machine.idleThread)
    (run : call.enter s.kernel.machine (s.channels c).lock = .ok (lock, m)) :
    Inv first { s with
      kernel := { s.kernel with machine := m }
      channels := Function.update s.channels c { s.channels c with lock := lock }
      driver := Function.update s.driver c (some ⟨s.kernel.machine.running, call, 0, .loop⟩) } := by
  have taken : Step first s _ := .enter call here inside idle alone notIdle run
  have channel := inv.channels c inside
  have driver := drive_driver s c ⟨s.kernel.machine.running, call, 0, .loop⟩
  refine inv.of_about taken inside ⟨rfl, fun other different =>
    ⟨Function.update_of_ne different .., Function.update_of_ne different .., rfl⟩, ?_, ?_, rfl,
    fun sema _ => ⟨rfl, rfl, fun _ => Iff.rfl⟩⟩ (fun d' driver' => ?_) ?_ ?_ fun query =>
      (channel.spot query).trans (iff_of_false ?_ (not_waiting driver nofun query))
  · simp only [diskDone, Function.update_self]
  · simp only [Function.update_self]
  · cases driver.symm.trans driver'
    exact notIdle
  · simp only [Function.update_self]
    exact channel.asked
  · have waited := channel.waited
    have out : (s.drive c ⟨s.kernel.machine.running, call, 0, .loop⟩).outstanding c = 0 :=
      outstanding_of driver
    rw [outstanding, idle] at waited
    change s.kernel.downs (s.diskDone c) + (s.drive c _).outstanding c = _
    rw [out]
    exact waited
  · rintro ⟨d, driver', -⟩
    cases idle.symm.trans driver'

/-- A call ends. -/
theorem Inv.leave (inv : s.Inv first) {d : Driver} {lock : Lock} {m : Machine}
    (drives : s.Drives c d) (here : s.kernel.here = .outside) (place : d.place = .loop)
    (ended : ¬d.secsDone < d.call.secCnt)
    (run : d.call.leave s.kernel.machine (s.channels c).lock = .ok (lock, m)) :
    Inv first { s with
      kernel := { s.kernel with machine := m }
      channels := Function.update s.channels c { s.channels c with lock := lock }
      driver := Function.update s.driver c none } := by
  have taken : Step first s _ := .leave drives here place ended run
  have inside := drives.inside inv
  have channel := inv.channels c inside
  have driver : Function.update s.driver c none c = none := Function.update_self ..
  refine inv.of_about taken inside ⟨rfl, fun other different =>
    ⟨Function.update_of_ne different .., Function.update_of_ne different .., rfl⟩, ?_, ?_, rfl,
    fun sema _ => ⟨rfl, rfl, fun _ => Iff.rfl⟩⟩ (fun d' driver' => ?_) ?_ ?_ fun query =>
      iff_of_false (channel.nobody drives here query) ?_
  · simp only [diskDone, Function.update_self]
  · simp only [Function.update_self]
  · cases driver.symm.trans driver'
  · simp only [Function.update_self]
    exact channel.asked
  · have waited := channel.waited
    rw [outstanding_of drives.1, place] at waited
    simp only [outstanding, driver]
    exact waited
  · rintro ⟨d', driver', -⟩
    cases driver.symm.trans driver'

/-- `sema_down` of the driver ends, or waits. -/
theorem Inv.afterDown (inv : s.Inv first) {d : Driver} {oldStatus : IntrStatus}
    {result : Bool × Machine} (taken : Step first s (s.afterDown c d oldStatus result))
    (drives : s.Drives c d) (pending : d.place.pending = true)
    (here : ∀ seen, s.kernel.here.sema = some seen → seen = s.diskDone c) :
    (s.afterDown c d oldStatus result).Inv first := by
  have inside := drives.inside inv
  have channel := inv.channels c inside
  have asked := channel.asked
  have waited := channel.waited
  rw [outstanding_of drives.1, if_pos pending] at waited
  obtain ⟨ended, m⟩ := result
  have driver := drive_driver s c { d with place := if ended then .answered else .waits }
  have others : ∀ query ≠ s.kernel.machine.running,
      (s.kernel.spot query).sema ≠ some (s.diskDone c) := by
    intro query other spot
    obtain ⟨d', driver', -, rfl⟩ := (channel.spot query).mp spot
    cases drives.1.symm.trans driver'
    exact other drives.2
  refine inv.of_about taken inside ⟨rfl, fun other different =>
    ⟨rfl, Function.update_of_ne different .., rfl⟩, rfl, rfl, ?_, fun sema different =>
      .afterTry here different _ _⟩ (fun d' driver' => ?_) ?_ ?_ fun query => ?_
  · cases ended <;> rfl
  · cases driver.symm.trans driver'
    exact inv.notIdle c d drives.1
  · cases ended <;> exact asked
  · have out : (s.afterDown c d oldStatus (ended, m)).outstanding c = _ := outstanding_of driver
    rw [out]
    cases ended with
    | true =>
        change Function.update s.kernel.downs (s.diskDone c) _ (s.diskDone c) + 0 = _
        rw [Function.update_self]
        exact waited
    | false => exact waited
  · by_cases self : query = s.kernel.machine.running
    · subst self
      cases ended with
      | true =>
          refine iff_of_false (fun spot => ?_) (not_waiting driver (fun waits => ?_) _)
          · simp only [DiskRun.afterDown, Kernel.afterTry, Kernel.goto,
              Function.update_self] at spot
            cases spot
          · cases waits
      | false =>
          refine iff_of_true ?_ ⟨_, driver, rfl, drives.2⟩
          simp only [DiskRun.afterDown, Kernel.afterTry, Kernel.goto, Function.update_self]
          rfl
    · have spot : ((s.afterDown c d oldStatus (ended, m)).kernel.spot query) =
          s.kernel.spot query := by
        cases ended <;> exact Function.update_of_ne self ..
      rw [spot]
      refine iff_of_false (others query self) ?_
      rintro ⟨d', driver', -, rfl⟩
      cases driver.symm.trans driver'
      exact self drives.2

theorem waitsAt_pending (call : DriverCall) : call.waitsAt.pending = true := by
  cases call <;> rfl

theorem Inv.down (inv : s.Inv first) {d : Driver} {result : Bool × Machine}
    (drives : s.Drives c d) (here : s.kernel.here = .outside) (place : d.place = d.call.waitsAt)
    (run : semaTry (intrDisable s.kernel.machine).2 (s.diskDone c) = .ok result) :
    (s.afterDown c d s.kernel.machine.intr result).Inv first := by
  refine inv.afterDown (.down drives here place run) drives ?_ fun seen equal => ?_
  · rw [place]
    exact waitsAt_pending d.call
  · rw [here] at equal
    cases equal

theorem Inv.again (inv : s.Inv first) {d : Driver} {oldStatus : IntrStatus}
    {result : Bool × Machine} (drives : s.Drives c d)
    (here : s.kernel.here = .looks (s.diskDone c) oldStatus)
    (run : semaTry (setIntrStatus s.kernel.machine .off).2 (s.diskDone c) = .ok result) :
    (s.afterDown c d oldStatus result).Inv first := by
  have spot : (s.kernel.spot s.kernel.machine.running).sema = some (s.diskDone c) :=
    congrArg Spot.sema here
  obtain ⟨d', driver, waits, -⟩ := ((inv.channels c (drives.inside inv)).spot _).mp spot
  cases drives.1.symm.trans driver
  refine inv.afterDown (.again drives here run) drives ?_ fun seen equal => ?_
  · rw [waits]
    rfl
  · rw [here] at equal
    exact (Option.some.inj equal).symm

/-- The handler goes up if an interrupt is expected. -/
theorem Inv.interrupt (inv : s.Inv first) (binary : ∀ sema, first sema ≤ 1) {irqNo : Nat}
    {result : Machine × (Nat → IdeChannel)} (here : s.kernel.here = .outside)
    (run : hdIntrHandler s.kernel.machine s.channels irqNo = .ok result) :
    (s.afterIntr irqNo result).Inv first := by
  have taken : Step first s _ := .interrupt irqNo here run
  obtain ⟨m, channels⟩ := result
  obtain ⟨number, same, ⟨quiet, rfl, rfl⟩ | ⟨expected, up, rfl⟩⟩ := hdIntrHandler_eq_ok run
  · have unchanged : s.afterIntr irqNo (s.kernel.machine, s.channels) = s := by
      simp [afterIntr, quiet]
    rwa [unchanged]
  · simp only [afterIntr, if_pos expected] at taken ⊢
    generalize channelNo : irqNo - 0x2e = c at *
    have inside : c < s.count := by
      by_contra beyond
      have zero := (inv.bss c (by omega)).1
      omega
    have channel := inv.channels c inside
    have asked := channel.asked
    obtain ⟨balance, once⟩ := inv.balance binary inside
    refine inv.of_about taken inside ⟨rfl, fun other different =>
      ⟨Function.update_of_ne different .., rfl, rfl⟩, ?_, ?_, rfl, fun sema different =>
        ⟨rfl, Function.update_of_ne different .., fun _ => Iff.rfl⟩⟩ (inv.notIdle c) ?_
      channel.waited channel.spot
    · simp only [diskDone, Function.update_self]
    · simp only [Function.update_self]
    · simp only [Function.update_self]
      omega

/-- A channel is set up. -/
theorem Inv.setup (inv : s.Inv first) (binary : ∀ sema, first sema ≤ 1)
    (here : s.kernel.here = .outside) (few : s.count < 2)
    (fresh : s.diskDone s.count ∉ s.kernel.semas)
    (placed : SemaPlaced s.kernel.machine.image s.kernel.threads (s.diskDone s.count))
    (apart : ∀ other ∈ s.kernel.semas,
      s.diskDone s.count + 20 ≤ other ∨ other + 20 ≤ s.diskDone s.count)
    (zero : first (s.diskDone s.count) = 0) :
    Inv first { s with
      kernel := { s.kernel with
        machine := semaInit s.kernel.machine (s.diskDone s.count) 0
        semas := s.diskDone s.count :: s.kernel.semas }
      channels := Function.update s.channels s.count (ideInitChannel s.count (s.channels s.count))
      count := s.count + 1 } := by
  obtain ⟨reachable, idle⟩ := inv.reachable_step (.setup here few fresh placed apart zero)
  have others : ∀ c ≠ s.count, Function.update s.channels s.count
      (ideInitChannel s.count (s.channels s.count)) c = s.channels c :=
    fun c different => Function.update_of_ne different ..
  have new : Function.update s.channels s.count
      (ideInitChannel s.count (s.channels s.count)) s.count =
        ideInitChannel s.count (s.channels s.count) := Function.update_self ..
  have done : ∀ c, (Function.update s.channels s.count
      (ideInitChannel s.count (s.channels s.count)) c).diskDone = s.diskDone c := by
    intro c
    by_cases same : c = s.count
    · rw [same, new]
      rfl
    · rw [others c same]
      rfl
  have away : ∀ c < s.count, s.diskDone c ≠ s.diskDone s.count := by
    intro c inside equal
    exact fresh (equal ▸ (inv.channels c inside).live)
  refine ⟨reachable, Nat.succ_le_of_lt few, fun c beyond => ?_, fun one inOne other inOther => ?_,
    fun c d driver => ?_, fun c inside => ?_⟩
  · have beyond : s.count + 1 ≤ c := beyond
    simp only [others c (by omega)]
    exact inv.bss c (by omega)
  · have inOne : one < s.count + 1 := inOne
    have inOther : other < s.count + 1 := inOther
    simp only [diskDone, done]
    intro equal
    obtain oneLess | rfl := Nat.lt_succ_iff_lt_or_eq.mp inOne
    · obtain otherLess | rfl := Nat.lt_succ_iff_lt_or_eq.mp inOther
      · exact inv.apart one oneLess other otherLess equal
      · exact absurd equal (away one oneLess)
    · obtain otherLess | rfl := Nat.lt_succ_iff_lt_or_eq.mp inOther
      · exact absurd equal.symm (away other otherLess)
      · rfl
  · rw [idle]
    exact inv.notIdle c d driver
  · obtain less | rfl := Nat.lt_succ_iff_lt_or_eq.mp (show c < s.count + 1 from inside)
    · have channel : ChannelInv { s with
          channels := Function.update s.channels s.count
            (ideInitChannel s.count (s.channels s.count)) } first c :=
        (inv.channels c less).same ⟨others c (by omega), rfl, rfl⟩ (.refl _ _) fun _ live => live
      exact channel.same ⟨rfl, rfl, rfl⟩ ⟨rfl, rfl, fun _ => Iff.rfl⟩ fun _ live =>
        List.mem_cons_of_mem _ live
    · obtain ⟨-, none, noCommands⟩ := inv.bss s.count le_rfl
      obtain ⟨downs, ups⟩ := Kernel.quiet_of_reachable binary inv.kernel _ fresh
      have out : s.outstanding s.count = 0 := by rw [outstanding, none]
      refine ⟨?_, ?_, ?_, ?_, ?_, fun thread => ?_⟩
      · simp only [diskDone, done]
        exact List.mem_cons_self
      · simp only [diskDone, done]
        exact zero
      · exact (congrArg IdeChannel.irqNo new).trans (ideInitChannel_irq few _)
      · simp only [diskDone, new, noCommands]
        exact ups
      · simp only [diskDone, done, noCommands]
        change s.kernel.downs (s.diskDone s.count) + s.outstanding s.count = 0
        rw [downs, out]
      · simp only [diskDone, done]
        refine iff_of_false (fun spot => ?_) ?_
        · obtain ⟨semas, refines⟩ := Kernel.refines_of_reachable binary inv.kernel
          exact fresh (refines.known thread _ ((refines.spot thread).trans spot)).2
        · rintro ⟨d, driver, -⟩
          cases none.symm.trans driver

/-- A step that is no call on the semaphore of a channel. -/
theorem Inv.other (inv : s.Inv first) {kernel : Kernel}
    (taken : Kernel.Step first False s.kernel kernel)
    (alone : ∀ c < s.count, Untouched s.kernel kernel (s.diskDone c)) :
    Inv first { s with kernel := kernel } := by
  obtain ⟨reachable, idle⟩ := inv.reachable_step (.other taken alone)
  refine ⟨reachable, inv.few, inv.bss, inv.apart, fun c d driver => ?_, fun c inside => ?_⟩
  · rw [idle]
    exact inv.notIdle c d driver
  · exact (inv.channels c inside).same ⟨rfl, rfl, rfl⟩ (alone c inside) fun sema live =>
      taken.semas_subset live

theorem Inv.step (inv : s.Inv first) (binary : ∀ sema, first sema ≤ 1)
    (taken : Step first s next) : next.Inv first := by
  cases taken with
  | setup here few fresh placed apart zero =>
      exact inv.setup binary here few fresh placed apart zero
  | enter call here inside idle alone notIdle run =>
      exact inv.enter here inside idle alone notIdle run
  | expect drives here place more => exact inv.expect binary drives here place more
  | issue drives here place =>
      exact inv.drive (.issue drives here place) drives here (by rw [place]; rfl) nofun rfl
  | send drives here place writes =>
      exact inv.drive (.send drives here place writes) drives here (by rw [place]; rfl) nofun rfl
  | down drives here place run => exact inv.down drives here place run
  | again drives here run => exact inv.again drives here run
  | answer drives here place =>
      exact inv.drive (.answer drives here place) drives here (by rw [place]; rfl) nofun rfl
  | leave drives here place ended run => exact inv.leave drives here place ended run
  | interrupt irqNo here run => exact inv.interrupt binary here run
  | other taken alone => exact inv.other taken alone

theorem Initial.inv (initial : s.Initial first) : s.Inv first := by
  obtain ⟨kernel, count, irq, driver, commands⟩ := initial
  refine ⟨kernel, by omega, fun c _ => ⟨irq c, driver c, commands c⟩, fun c inside => ?_,
    fun c d isDriver => ?_, fun c inside => ?_⟩
  · omega
  · cases (driver c).symm.trans isDriver
  · omega

theorem inv_of_reachable (binary : ∀ sema, first sema ≤ 1)
    (reachable : (diskSystem first).Reachable s) : s.Inv first := by
  have preserved (state next : DiskRun) (inv : state.Inv first)
      (taken : (diskSystem first).step state next) : next.Inv first := inv.step binary taken
  have base (state : DiskRun) (initial : state.Initial first) : state.Inv first := initial.inv
  exact reachable.invariant base preserved

end DiskRun

end Pumelo
