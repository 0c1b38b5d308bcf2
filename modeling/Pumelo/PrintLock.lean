import Pumelo.Foundation.Transcript
import Pumelo.LockRun
import Pumelo.Printfmt

/-!
# Threads that print

`kprintf_lock`, `kputs_lock` and `kputchar_lock`, for any number of threads on one processor.
What is done with `console_lock` goes instruction by instruction; `cons_putc` is one step, as it
is called with interrupts off.
-/

namespace Pumelo

open Foundation

/-- A call of one of the functions that print; a format comes with what `vprintfmt` makes of
it. -/
inductive Message where
  | kprintfLock (fmt : List UInt8) (ap : VaList) (text : List (BitVec 32))
      (formatted : vprintfmt fmt ap = .ok text)
  | kputsLock (str : List UInt8)
  | kputcharLock (c : BitVec 32)

/-- What is passed to `cons_putc` between one acquire and its release, one after the other. -/
def Message.sections : Message → List (List (BitVec 32))
  | .kprintfLock _ _ text _ => text.map fun c => [c]
  | .kputsLock str => [kputs str]
  | .kputcharLock c => [[c]]

/-- The characters of a message. -/
def Message.text (message : Message) : List (BitVec 32) := message.sections.flatten

/-- Where a thread is in a function that prints: before the acquires of the sections it has
left, or within one, with the characters it has left. -/
inductive PrintStage where
  | idle
  | before (sections : List (List (BitVec 32)))
  | within (chars : List (BitVec 32)) (sections : List (List (BitVec 32)))

/-- The characters that are still to be printed. -/
def PrintStage.left : PrintStage → List (BitVec 32)
  | .idle => []
  | .before sections => sections.flatten
  | .within chars sections => chars ++ sections.flatten

/-- The thread is in an acquire, with interrupts off from the check on. -/
def Task.Acquiring (task : Task) : Prop :=
  task.depth = 0 ∧
    match task.place with
    | .readHolder | .pushcli => True
    | .checkHeld | .exchange | .setHolder | .assertZero | .setOne => task.intr = .off
    | _ => False

/-- The thread is in the release of a lock that it has acquired once. -/
def Task.Releasing (task : Task) : Prop :=
  task.intr = .off ∧
    match task.place with
    | .assertHolder | .compareNumber | .assertOne | .clearHolder | .clearNumber | .checkTaken
    | .exchangeBack => task.depth = 1
    | .popcli => task.depth = 0
    | _ => False

/-- What holds at the lock of a thread that prints. -/
def PrintStage.Fits : PrintStage → Task → Prop
  | .idle, task => task.place = .outside ∧ task.depth = 0
  | .before _, task => task.place = .outside ∧ task.depth = 0 ∨ task.Releasing
  | .within _ _, task =>
      task.place = .outside ∧ task.depth = 1 ∧ task.intr = .off ∨ task.Acquiring

theorem Task.not_owns {task : Task} (outside : task.place = .outside) (none : task.depth = 0) :
    ¬ task.Owns := by
  simp [Task.Owns, outside, none]

/-- The thread has the lock only with interrupts off, and within a message. -/
theorem PrintStage.Fits.owns {stage : PrintStage} {task : Task} (fits : stage.Fits task)
    (owns : task.Owns) : stage ≠ .idle ∧ task.intr = .off := by
  cases stage with
  | idle => exact absurd owns (Task.not_owns fits.1 fits.2)
  | before sections =>
      refine ⟨nofun, ?_⟩
      rcases fits with ⟨outside, none⟩ | ⟨off, -⟩
      · exact absurd owns (Task.not_owns outside none)
      · exact off
  | within chars sections =>
      refine ⟨nofun, ?_⟩
      obtain ⟨place, intr, depth⟩ := task
      rcases fits with ⟨-, -, off⟩ | ⟨none, acquiring⟩
      · exact off
      · cases place <;> simp_all [Task.Owns]

/-- One instruction of an acquire. -/
theorem Task.Acquiring.advance {lk : Lock} {self : Nat} {task : Task} (acquiring : task.Acquiring)
    (knows : Pumelo.Fits lk self task) (free : task.place = .checkHeld → lk.locked = 0) :
    ∃ lk' task', Pumelo.advance lk self task = .ok (lk', task') ∧
      (task'.place = .outside ∧ task'.depth = 1 ∧ task'.intr = .off ∨ task'.Acquiring) ∧
      (task'.Owns → task.Owns ∨ task.place = .exchange) := by
  obtain ⟨place, intr, depth⟩ := task
  obtain ⟨none, off⟩ := acquiring
  have none : depth = 0 := none
  subst none
  cases place with
  | readHolder =>
      have other : lk.holder ≠ self := by simpa [Pumelo.Fits] using knows
      refine ⟨_, _, rfl, .inr ⟨rfl, ?_⟩, fun owns => .inl ?_⟩
      · simp [Task.goto, other]
      · simp [Task.Owns, Task.goto, other] at owns
  | pushcli => exact ⟨_, _, rfl, .inr ⟨rfl, rfl⟩, fun owns => by simp [Task.Owns] at owns⟩
  | checkHeld =>
      have open' : ¬ holding lk := not_not.mpr (free rfl)
      exact ⟨_, _, if_neg open', .inr ⟨rfl, off⟩,
        fun owns => by simp [Task.Owns, Task.goto] at owns⟩
  | exchange =>
      obtain ⟨-, -, -, open'⟩ := knows
      refine ⟨_, _, rfl, .inr ⟨rfl, ?_⟩, fun _ => .inr rfl⟩
      simpa [Task.goto, open'] using off
  | setHolder =>
      exact ⟨_, _, rfl, .inr ⟨rfl, off⟩, fun _ => .inl (by simp [Task.Owns])⟩
  | assertZero =>
      obtain ⟨-, -, rfl⟩ := knows
      exact ⟨_, _, rfl, .inr ⟨rfl, off⟩, fun _ => .inl (by simp [Task.Owns])⟩
  | setOne =>
      exact ⟨_, _, rfl, .inl ⟨rfl, rfl, off⟩, fun _ => .inl (by simp [Task.Owns])⟩
  | _ => exact off.elim

/-- One instruction of a release. -/
theorem Task.Releasing.advance {lk : Lock} {self : Nat} {task : Task} (releasing : task.Releasing)
    (knows : Pumelo.Fits lk self task) :
    ∃ lk' task', Pumelo.advance lk self task = .ok (lk', task') ∧
      (task'.place = .outside ∧ task'.depth = 0 ∨ task'.Releasing) ∧ (task'.Owns → task.Owns) := by
  obtain ⟨place, intr, depth⟩ := task
  obtain ⟨off, one⟩ := releasing
  cases place with
  | assertHolder =>
      obtain ⟨some, rfl⟩ := knows
      exact ⟨_, _, bind_ok (assert_of rfl _), .inr ⟨off, one⟩, fun _ => .inl some⟩
  | compareNumber =>
      obtain ⟨some, rfl⟩ := knows
      refine ⟨_, _, rfl, .inr ⟨off, ?_⟩, fun _ => .inl some⟩
      have one : depth = 1 := one
      simp [Task.goto, one]
  | assertOne =>
      obtain ⟨-, rfl⟩ := knows
      exact ⟨_, _, rfl, .inr ⟨off, one⟩, fun _ => .inl (Nat.lt_of_lt_of_eq Nat.one_pos one.symm)⟩
  | clearHolder | clearNumber =>
      exact ⟨_, _, rfl, .inr ⟨off, one⟩, fun _ => .inl (Nat.lt_of_lt_of_eq Nat.one_pos one.symm)⟩
  | checkTaken =>
      obtain ⟨-, rfl⟩ := knows
      exact ⟨_, _, rfl, .inr ⟨off, one⟩, fun _ => .inl (Nat.lt_of_lt_of_eq Nat.one_pos one.symm)⟩
  | exchangeBack =>
      have one : depth = 1 := one
      subst one
      exact ⟨_, _, rfl, .inr ⟨off, rfl⟩, fun _ => .inl Nat.one_pos⟩
  | popcli =>
      exact ⟨_, _, rfl, .inl ⟨rfl, one⟩, fun owns => absurd owns (Task.not_owns rfl one)⟩
  | _ => exact one.elim

/-- One instruction at the lock: it succeeds, and only the exchange gives the lock to the thread. -/
theorem PrintStage.Fits.advance {stage : PrintStage} {lk : Lock} {self : Nat} {task : Task}
    (fits : stage.Fits task) (knows : Pumelo.Fits lk self task) (inside : task.place ≠ .outside)
    (free : task.place = .checkHeld → lk.locked = 0) :
    ∃ lk' task', Pumelo.advance lk self task = .ok (lk', task') ∧ stage.Fits task' ∧
      (task'.Owns → task.Owns ∨ task.place = .exchange) := by
  cases stage with
  | idle => exact absurd fits.1 inside
  | before sections =>
      obtain ⟨lk', task', run, fits', owns⟩ :=
        (fits.resolve_left fun done => inside done.1).advance knows
      exact ⟨lk', task', run, fits', fun taken => .inl (owns taken)⟩
  | within chars sections =>
      exact (fits.resolve_left fun done => inside done.1).advance knows free

/-- The threads with `console_lock`, what each one prints, and what it has printed so far. -/
structure Printing where
  threads : Contention
  stage : Nat → PrintStage
  called : Nat → List Message
  output : List (BitVec 32)

namespace Printing

variable (s : Printing)

/-- The number of the running thread. -/
def self : Nat := s.threads.running

/-- The running thread at the lock. -/
def task : Task := s.threads.self

/-- The running thread goes on to a stage. -/
def goto (stage : PrintStage) : Printing := { s with stage := Function.update s.stage s.self stage }

/-- The running thread has changed itself and the lock. -/
def become (lock : Lock) (task : Task) : Printing :=
  { s with threads := s.threads.become lock task }

/-- The running thread calls a function that prints. -/
def call (message : Message) : Printing :=
  { s.goto (.before message.sections) with
    called := Function.update s.called s.self (s.called s.self ++ [message]) }

/-- `cons_putc` -/
def consPutc (c : BitVec 32) : Printing := { s with output := s.output ++ [c] }

/-- A fresh lock, and threads that have not printed. -/
def Initial : Prop :=
  s.threads.Initial ∧ (∀ thread, s.stage thread = .idle) ∧ (∀ thread, s.called thread = []) ∧
    s.output = []

/-- One step.  The processor goes to another thread only where the running one has interrupts
on, or outside the functions, where a thread may do as it likes with its flag. -/
inductive Step : Printing → Printing → Prop where
  | switch {s : Printing} (next : Nat) : s.threads.halted = none → next ≠ 0 →
      s.task.intr = .on ∨ s.stage s.self = .idle →
      Step s { s with threads := s.threads.switchTo next }
  | setFlag {s : Printing} (status : IntrStatus) : s.threads.halted = none →
      s.stage s.self = .idle → Step s (s.become s.threads.lock { s.task with intr := status })
  | call {s : Printing} (message : Message) : s.threads.halted = none →
      s.stage s.self = .idle → Step s (s.call message)
  | acquire {s : Printing} {section' : List (BitVec 32)} {sections : List (List (BitVec 32))} :
      s.threads.halted = none → s.task.place = .outside →
      s.stage s.self = .before (section' :: sections) →
      Step s ((s.become s.threads.lock (s.task.goto .readHolder)).goto (.within section' sections))
  | consPutc {s : Printing} {c : BitVec 32} {chars : List (BitVec 32)}
      {sections : List (List (BitVec 32))} : s.threads.halted = none → s.task.place = .outside →
      s.stage s.self = .within (c :: chars) sections →
      Step s ((s.consPutc c).goto (.within chars sections))
  | release {s : Printing} {sections : List (List (BitVec 32))} : s.threads.halted = none →
      s.task.place = .outside → s.stage s.self = .within [] sections →
      Step s ((s.become s.threads.lock (s.task.goto .assertHolder)).goto (.before sections))
  | ret {s : Printing} : s.threads.halted = none → s.task.place = .outside →
      s.stage s.self = .before [] → Step s (s.goto .idle)
  | advance {s : Printing} {lock : Lock} {task : Task} : s.threads.halted = none →
      s.task.place ≠ .outside → advance s.threads.lock s.self s.task = .ok (lock, task) →
      Step s (s.become lock task)
  | crash {s : Printing} {fault : Fault} : s.threads.halted = none → s.task.place ≠ .outside →
      Pumelo.advance s.threads.lock s.self s.task = .error fault →
      Step s { s with threads := s.threads.crash fault }

end Printing

/-- Threads that print. -/
def printSystem : System Printing where
  init := Printing.Initial
  step := Printing.Step

/-! ## Whole messages -/

namespace Printing

variable {s next : Printing}

theorem become_task (s : Printing) : s.become s.threads.lock s.task = s := by
  have same : s.threads.become s.threads.lock s.threads.self = s.threads := by
    refine congrArg (Contention.mk s.threads.lock s.threads.running · s.threads.halted) ?_
    funext thread
    by_cases self : thread = s.threads.running
    · rw [if_pos self, self]
      rfl
    · rw [if_neg self]
  exact congrArg (Printing.mk · s.stage s.called s.output) same

theorem task_become (s : Printing) (lock : Lock) (task : Task) : (s.become lock task).task = task :=
  s.threads.become_self lock task

theorem become_become (s : Printing) (lock lock' : Lock) (task task' : Task) :
    (s.become lock task).become lock' task' = s.become lock' task' :=
  congrArg (Printing.mk · s.stage s.called s.output) (s.threads.become_become lock lock' task task')

theorem goto_goto (s : Printing) (stage stage' : PrintStage) :
    (s.goto stage).goto stage' = s.goto stage' :=
  congrArg (Printing.mk s.threads · s.called s.output) (Function.update_idem ..)

theorem goto_stage (s : Printing) : s.goto (s.stage s.self) = s :=
  congrArg (Printing.mk s.threads · s.called s.output) (Function.update_eq_self ..)

/-- What the threads print, character by character. -/
def transcript (s : Printing) : Transcript Nat Message (BitVec 32) where
  called := s.called
  left thread := (s.stage thread).left
  output := s.output

/-- The output is made of whole messages, and a part of one more. -/
def Whole (s : Printing) : Prop := s.transcript.Unbroken Message.text

/-- A part of the thread's message is printed, and a part is left. -/
def MidMessage (s : Printing) (thread : Nat) : Prop := s.transcript.Partial Message.text thread

/-- No thread gets the lock while another one is in the middle of a message. -/
def Undisturbed (s : Printing) : Prop :=
  s.task.place = .exchange → ∀ thread, thread ≠ s.self → ¬ s.MidMessage thread

/-- What holds in all states of a run. -/
structure Sound (s : Printing) : Prop where
  live : s.threads.halted = none
  knows : Knows s.threads
  stages : ∀ thread, (s.stage thread).Fits (s.threads.task thread)
  alone : ∀ thread, s.stage thread ≠ .idle → (s.threads.task thread).intr = .off → thread = s.self
  clear : ∀ thread, (s.threads.task thread).Owns → ∀ other, other ≠ thread → ¬ s.MidMessage other
  whole : s.Whole

namespace Sound

theorem initial (fresh : s.Initial) : Sound s := by
  obtain ⟨threads, idle, called, output⟩ := fresh
  have outside (thread : Nat) := threads.2.2.2 thread
  constructor
  · exact threads.2.2.1
  · exact .initial threads
  · intro thread
    rw [idle thread]
    exact outside thread
  · intro thread busy
    exact absurd (idle thread) busy
  · intro thread owns
    exact absurd owns (Task.not_owns (outside thread).1 (outside thread).2)
  · refine .initial called ?_ output
    intro thread
    show (s.stage thread).left = []
    rw [idle thread]
    rfl

variable (sound : Sound s)
include sound

/-- Only the running thread has the lock. -/
theorem owner {thread : Nat} (owns : (s.threads.task thread).Owns) : thread = s.self := by
  obtain ⟨busy, off⟩ := (sound.stages thread).owns owns
  exact sound.alone thread busy off

/-- The lock is free where the running thread comes to the check. -/
theorem free (check : s.task.place = .checkHeld) : s.threads.lock.locked = 0 := by
  have fits : Fits s.threads.lock s.self s.task := sound.knows.fits _ sound.knows.real
  have away : ¬ s.task.Owns := by
    simp only [Fits, check] at fits
    simp [Task.Owns, check, fits.1]
  have nobody : ∀ thread, ¬ (s.threads.task thread).Owns := by
    intro thread owns
    obtain rfl := sound.owner owns
    exact away owns
  rw [sound.knows.free nobody]
  rfl

/-- A thread that is idle is outside the functions of the lock. -/
theorem outside_of_idle (idle : s.stage s.self = .idle) :
    s.task.place = .outside ∧ s.task.depth = 0 := by
  have fits := sound.stages s.self
  rw [idle] at fits
  exact fits

/-- Before an acquire, the thread does not have the lock. -/
theorem depth_of_before {sections : List (List (BitVec 32))} (outside : s.task.place = .outside)
    (before : s.stage s.self = .before sections) : s.task.depth = 0 := by
  have fits := sound.stages s.self
  rw [before] at fits
  rcases fits with ⟨-, none⟩ | ⟨-, releasing⟩
  · exact none
  · rw [show (s.threads.task s.self).place = .outside from outside] at releasing
    exact releasing.elim

/-- Characters are passed to `cons_putc` with interrupts off, by the thread that has the lock. -/
theorem consPutc_off {chars : List (BitVec 32)} {sections : List (List (BitVec 32))}
    (outside : s.task.place = .outside) (within : s.stage s.self = .within chars sections) :
    s.task.intr = .off ∧ s.task.depth = 1 ∧ s.task.Owns := by
  have fits := sound.stages s.self
  rw [within] at fits
  rcases fits with ⟨-, one, off⟩ | ⟨-, acquiring⟩
  · exact ⟨off, one, .inl (Nat.lt_of_lt_of_eq Nat.one_pos one.symm)⟩
  · rw [show (s.threads.task s.self).place = .outside from outside] at acquiring
    exact acquiring.elim

/-- A step after which the other threads are as before. -/
theorem step_self {s' : Printing} (live : s'.threads.halted = none) (knows : Knows s'.threads)
    (self : s'.self = s.self) (fits : (s'.stage s.self).Fits (s'.threads.task s.self))
    (others : ∀ thread, thread ≠ s.self →
      s'.stage thread = s.stage thread ∧ s'.threads.task thread = s.threads.task thread)
    (clear : (s'.threads.task s.self).Owns → ∀ other, other ≠ s.self → ¬ s'.MidMessage other)
    (whole : s'.Whole) : Sound s' := by
  constructor
  · exact live
  · exact knows
  · intro thread
    by_cases own : thread = s.self
    · rw [own]
      exact fits
    · obtain ⟨stage, task⟩ := others thread own
      rw [stage, task]
      exact sound.stages thread
  · intro thread busy off
    rw [self]
    by_cases own : thread = s.self
    · exact own
    · obtain ⟨stage, task⟩ := others thread own
      rw [stage] at busy
      rw [task] at off
      exact sound.alone thread busy off
  · intro thread owns
    by_cases own : thread = s.self
    · rw [own] at owns ⊢
      exact clear owns
    · rw [(others thread own).2] at owns
      exact absurd (sound.owner owns) own
  · exact whole

/-- A step that prints nothing and begins no message. -/
theorem silent {lock : Lock} {task : Task} {stage : PrintStage}
    (knows : Knows (s.threads.become lock task)) (fits : stage.Fits task)
    (left : stage.left = (s.stage s.self).left)
    (owns : task.Owns → s.task.Owns ∨ ∀ thread, thread ≠ s.self → ¬ s.MidMessage thread) :
    Sound ((s.become lock task).goto stage) := by
  have stages (thread : Nat) (other : thread ≠ s.self) :
      ((s.become lock task).goto stage).stage thread = s.stage thread :=
    Function.update_of_ne other ..
  have own : ((s.become lock task).goto stage).stage s.self = stage := Function.update_self ..
  have task_self : (s.threads.become lock task).task s.self = task :=
    s.threads.become_task_self lock task
  have same : ((s.become lock task).goto stage).transcript = s.transcript := by
    refine congrArg (Transcript.mk s.called · s.output) ?_
    funext thread
    by_cases self : thread = s.self
    · rw [self, own, left]
    · rw [stages thread self]
  refine sound.step_self sound.live ?_ ?_ ?_ ?_ ?_ ?_
  · exact knows
  · rfl
  · rw [own]
    show stage.Fits ((s.threads.become lock task).task s.self)
    rw [task_self]
    exact fits
  · intro thread other
    exact ⟨stages thread other, s.threads.become_task_of_ne lock task other⟩
  · intro taken other ne
    have taken : ((s.threads.become lock task).task s.self).Owns := taken
    rw [task_self] at taken
    rw [MidMessage, same]
    rcases owns taken with before | nobody
    · exact sound.clear _ before other ne
    · exact nobody other ne
  · rw [Whole, same]
    exact sound.whole

/-- A step of the lock alone, within a stage. -/
theorem atLock {lock : Lock} {task : Task} (knows : Knows (s.threads.become lock task))
    (fits : (s.stage s.self).Fits task)
    (owns : task.Owns → s.task.Owns ∨ ∀ thread, thread ≠ s.self → ¬ s.MidMessage thread) :
    Sound (s.become lock task) := by
  have kept : (s.become lock task).goto (s.stage s.self) = s.become lock task :=
    (s.become lock task).goto_stage
  rw [← kept]
  exact sound.silent knows fits rfl owns

/-- No thread has the lock acquired twice. -/
theorem counts : s.threads.Counts := by
  intro number store
  have fits := sound.stages s.self
  have store : (s.threads.task s.self).place = .storeMore number := store
  cases h : s.stage s.self with
  | idle =>
      rw [h] at fits
      cases store.symm.trans fits.1
  | before sections =>
      rw [h] at fits
      rcases fits with ⟨outside, -⟩ | ⟨-, releasing⟩
      · cases store.symm.trans outside
      · rw [store] at releasing
        exact releasing.elim
  | within chars sections =>
      rw [h] at fits
      rcases fits with ⟨outside, -⟩ | ⟨-, acquiring⟩
      · cases store.symm.trans outside
      · rw [store] at acquiring
        exact acquiring.elim

/-- A step of the lock alone. -/
theorem knows_step {threads : Contention} (step : Contention.Step s.threads threads) :
    Knows threads := (step.keeps sound.knows sound.counts).1

/-- The processor goes to another thread. -/
theorem switch {next : Nat} (real : next ≠ 0)
    (yields : s.task.intr = .on ∨ s.stage s.self = .idle) :
    Sound { s with threads := s.threads.switchTo next } := by
  have open' : s.threads.self.intr = .on ∨ s.threads.self.place = .outside :=
    yields.imp_right fun idle => (sound.outside_of_idle idle).1
  refine ⟨sound.live, sound.knows.switchTo real open', sound.stages, ?_, sound.clear, sound.whole⟩
  intro thread busy off
  -- a thread that could not be interrupted was the running one, and that one yields
  obtain rfl := sound.alone thread busy off
  rcases yields with on | idle
  · cases on.symm.trans off
  · exact absurd idle busy

/-- A thread begins a message. -/
theorem call (idle : s.stage s.self = .idle) (message : Message) : Sound (s.call message) := by
  obtain ⟨outside, none⟩ := sound.outside_of_idle idle
  have stages (thread : Nat) (other : thread ≠ s.self) :
      (s.call message).stage thread = s.stage thread := Function.update_of_ne other ..
  have own : (s.call message).stage s.self = .before message.sections := Function.update_self ..
  have same : (s.call message).transcript = s.transcript.call Message.text s.self message := by
    refine congrArg (Transcript.mk _ · s.output) ?_
    funext thread
    by_cases self : thread = s.self
    · rw [self, own, Function.update_self]
      rfl
    · rw [stages thread self, Function.update_of_ne self]
      rfl
  refine sound.step_self sound.live sound.knows ?_ ?_ ?_ ?_ ?_
  · rfl
  · rw [own]
    exact .inl ⟨outside, none⟩
  · intro thread other
    exact ⟨stages thread other, rfl⟩
  · intro owns
    exact absurd owns (Task.not_owns outside none)
  · rw [Whole, same]
    refine sound.whole.call ?_ message
    show (s.stage s.self).left = []
    rw [idle]
    rfl

/-- The thread that has the lock prints a character. -/
theorem consPutc {c : BitVec 32} {chars : List (BitVec 32)} {sections : List (List (BitVec 32))}
    (outside : s.task.place = .outside) (within : s.stage s.self = .within (c :: chars) sections) :
    Sound ((s.consPutc c).goto (.within chars sections)) := by
  obtain ⟨-, -, owns⟩ := sound.consPutc_off outside within
  have clear := sound.clear s.self owns
  have stages (thread : Nat) (other : thread ≠ s.self) :
      ((s.consPutc c).goto (.within chars sections)).stage thread = s.stage thread :=
    Function.update_of_ne other ..
  have own : ((s.consPutc c).goto (.within chars sections)).stage s.self = .within chars sections :=
    Function.update_self ..
  have left : s.transcript.left s.self = c :: (chars ++ sections.flatten) := by
    show (s.stage s.self).left = _
    rw [within]
    rfl
  have same : ((s.consPutc c).goto (.within chars sections)).transcript =
      s.transcript.write s.self c (chars ++ sections.flatten) := by
    refine congrArg (Transcript.mk s.called · (s.output ++ [c])) ?_
    funext thread
    by_cases self : thread = s.self
    · rw [self, own, Function.update_self]
      rfl
    · rw [stages thread self, Function.update_of_ne self]
      rfl
  refine sound.step_self sound.live sound.knows ?_ ?_ ?_ ?_ ?_
  · rfl
  · have fits := sound.stages s.self
    rw [within] at fits
    rw [own]
    exact fits
  · intro thread other
    exact ⟨stages thread other, rfl⟩
  · intro _ other ne mid
    apply clear other ne
    rw [MidMessage, same] at mid
    exact (Transcript.partial_write_of_ne ne).mp mid
  · rw [Whole, same]
    exact sound.whole.write left clear

end Sound

/-- Each step keeps what holds, if the lock is not given away within a message. -/
theorem Step.keeps (taken : Step s next) (sound : Sound s) (undisturbed : s.Undisturbed) :
    Sound next := by
  cases taken with
  | switch target live real yields => exact sound.switch real yields
  | setFlag status live idle =>
      obtain ⟨outside, none⟩ := sound.outside_of_idle idle
      refine sound.atLock (sound.knows_step (.setFlag status live outside)) ?_ fun owns =>
        absurd owns (Task.not_owns outside none)
      rw [idle]
      exact ⟨outside, none⟩
  | call message live idle => exact sound.call idle message
  | acquire live outside before =>
      have none : s.task.depth = 0 := sound.depth_of_before outside before
      refine sound.silent (sound.knows_step (.acquire live outside)) (.inr ⟨none, trivial⟩) ?_ ?_
      · rw [before]
        rfl
      · intro owns
        simp [Task.Owns, Task.goto, none] at owns
  | consPutc live outside within => exact sound.consPutc outside within
  | release live outside within =>
      obtain ⟨off, one, owns⟩ := sound.consPutc_off outside within
      have some : 0 < s.task.depth := Nat.lt_of_lt_of_eq Nat.one_pos one.symm
      refine sound.silent (sound.knows_step (.release live outside some)) (.inr ⟨off, one⟩) ?_
        fun _ => .inl owns
      rw [within]
      rfl
  | ret live outside before =>
      have none : s.task.depth = 0 := sound.depth_of_before outside before
      have same : s.become s.threads.lock s.task = s := s.become_task
      have threads : s.threads.become s.threads.lock s.task = s.threads :=
        congrArg Printing.threads same
      have knows : Knows (s.threads.become s.threads.lock s.task) := by
        rw [threads]
        exact sound.knows
      have fits : PrintStage.idle.Fits s.task := ⟨outside, none⟩
      have silent := sound.silent knows fits (by rw [before]; rfl) .inl
      rwa [same] at silent
  | advance live inside run =>
      obtain ⟨lock, task, run', fits, owns⟩ := (sound.stages s.self).advance
        (sound.knows.fits _ sound.knows.real) inside sound.free
      cases run.symm.trans run'
      exact sound.atLock (sound.knows_step (.advance live inside run)) fits fun taken =>
        (owns taken).imp_right undisturbed
  | crash live inside run =>
      obtain ⟨lock, task, run', -⟩ := (sound.stages s.self).advance
        (sound.knows.fits _ sound.knows.real) inside sound.free
      cases run.symm.trans run'

/-- The other threads are where they are in `s`. -/
def Alike (s state : Printing) : Prop :=
  state.self = s.self ∧ ∀ thread, thread ≠ s.self →
    state.stage thread = s.stage thread ∧ state.called thread = s.called thread

namespace Alike

variable {state : Printing}

theorem refl (s : Printing) : Alike s s := ⟨rfl, fun _ _ => ⟨rfl, rfl⟩⟩

theorem become (alike : Alike s state) (lock : Lock) (task : Task) :
    Alike s (state.become lock task) := alike

theorem consPutc (alike : Alike s state) (c : BitVec 32) : Alike s (state.consPutc c) := alike

theorem goto (alike : Alike s state) (stage : PrintStage) : Alike s (state.goto stage) := by
  refine ⟨alike.1, fun thread other => ⟨?_, (alike.2 thread other).2⟩⟩
  rw [← (alike.2 thread other).1]
  exact Function.update_of_ne (by rwa [alike.1]) ..

/-- Where the others have nothing left to print, they are not in the middle of a message. -/
theorem undisturbed (alike : Alike s state) (idle : ∀ thread, thread ≠ s.self →
    s.stage thread = .idle) :
    state.Undisturbed := by
  intro _ thread other
  have other : thread ≠ s.self := by rwa [alike.1] at other
  rintro ⟨_, _, -, some, -⟩
  apply some
  show (state.stage thread).left = []
  rw [(alike.2 thread other).1, idle thread other]
  rfl

end Alike

variable {condition : Printing → Printing → Prop} {origin : Printing}

/-- A function of the lock runs to its end. -/
theorem reachable_finish (allowed : ∀ state next, Alike origin state → condition state next)
    (alike : Alike origin s) (live : s.threads.halted = none) {fuel : Nat} {lock lock' : Lock}
    {task task' : Task} (run : finish lock s.self task fuel = .ok (lock', task'))
    (reached : (printSystem.restrict condition).Reachable (s.become lock task)) :
    (printSystem.restrict condition).Reachable (s.become lock' task') := by
  induction fuel generalizing lock task with
  | zero => cases run
  | succ fuel ih =>
      rw [finish] at run
      split at run
      · cases run
        exact reached
      · next inside =>
          obtain ⟨⟨middle, later⟩, one, rest⟩ := bind_eq_ok.mp run
          have taken : Step (s.become lock task) ((s.become lock task).become middle later) :=
            .advance live (by rwa [task_become]) (by rwa [task_become])
          rw [become_become] at taken
          exact ih rest (.step reached ⟨taken, allowed _ _ (alike.become lock task)⟩)

/-- The characters of a section that is begun. -/
theorem reachable_chars (allowed : ∀ state next, Alike origin state → condition state next)
    {chars : List (BitVec 32)} {sections : List (List (BitVec 32))} (alike : Alike origin s)
    (live : s.threads.halted = none) (outside : s.task.place = .outside)
    (reached : (printSystem.restrict condition).Reachable (s.goto (.within chars sections))) :
    (printSystem.restrict condition).Reachable
      ({ s with output := s.output ++ chars }.goto (.within [] sections)) := by
  induction chars generalizing s with
  | nil =>
      rw [List.append_nil]
      exact reached
  | cons c chars ih =>
      have step : Step (s.goto (.within (c :: chars) sections))
          (((s.consPutc c).goto (.within (c :: chars) sections)).goto (.within chars sections)) :=
        .consPutc live outside (Function.update_self ..)
      rw [goto_goto] at step
      have later := ih (alike.consPutc c) live outside
        (.step reached ⟨step, allowed _ _ (alike.goto _)⟩)
      have output : s.output ++ (c :: chars) = (s.consPutc c).output ++ chars :=
        List.append_cons ..
      rw [output]
      exact later

theorem finish_acquired {self : Nat} (real : self ≠ 0) :
    finish lockInit self ⟨.readHolder, .on, 0⟩ 8 = .ok (⟨1, self, 1⟩, ⟨.outside, .off, 1⟩) := by
  have other : (0 : Nat) ≠ self := real.symm
  simp [finish, Pumelo.advance, Task.goto, lockInit, other, holding, assert, Task.leave, Bind.bind,
    Except.bind]

theorem finish_released (self : Nat) :
    finish ⟨1, self, 1⟩ self ⟨.assertHolder, .off, 1⟩ 9 = .ok (lockInit, ⟨.outside, .on, 0⟩) := by
  simp [finish, Pumelo.advance, Task.goto, lockInit, holding, assert, Bind.bind, Except.bind]

/-- A section that is printed with nothing in between. -/
theorem reachable_section (allowed : ∀ state next, Alike origin state → condition state next)
    {chars : List (BitVec 32)} {sections : List (List (BitVec 32))} (alike : Alike origin s)
    (live : s.threads.halted = none) (real : s.self ≠ 0) (lock : s.threads.lock = lockInit)
    (task : s.task = ⟨.outside, .on, 0⟩)
    (reached : (printSystem.restrict condition).Reachable (s.goto (.before (chars :: sections)))) :
    (printSystem.restrict condition).Reachable
      ({ s with output := s.output ++ chars }.goto (.before sections)) := by
  have outside : s.task.place = .outside := by rw [task]
  have acquires : Step (s.goto (.before (chars :: sections)))
      (((s.become s.threads.lock (s.task.goto .readHolder)).goto (.before (chars :: sections))).goto
        (.within chars sections)) :=
    .acquire live outside (Function.update_self ..)
  rw [goto_goto, lock, task] at acquires
  have acquired : (printSystem.restrict condition).Reachable
      ((s.become ⟨1, s.self, 1⟩ ⟨.outside, .off, 1⟩).goto (.within chars sections)) :=
    reachable_finish allowed (alike.goto _) live (finish_acquired real)
      (reached.step ⟨acquires, allowed _ _ (alike.goto _)⟩)
  have held : (s.become ⟨1, s.self, 1⟩ ⟨.outside, .off, 1⟩).task = ⟨.outside, .off, 1⟩ :=
    s.task_become ..
  have printed := reachable_chars allowed (alike.become ⟨1, s.self, 1⟩ ⟨.outside, .off, 1⟩) live
    (congrArg Task.place held) acquired
  -- the state without its stage, as the release finds it
  let t : Printing := { s with output := s.output ++ chars }
  have releases : Step ((t.become ⟨1, s.self, 1⟩ ⟨.outside, .off, 1⟩).goto (.within [] sections))
      (((t.become ⟨1, s.self, 1⟩ ⟨.outside, .off, 1⟩).become ⟨1, s.self, 1⟩
        ((t.become ⟨1, s.self, 1⟩ ⟨.outside, .off, 1⟩).task.goto .assertHolder)).goto
          (.within [] sections) |>.goto (.before sections)) :=
    .release live (congrArg Task.place held) (Function.update_self ..)
  rw [goto_goto, become_become, task_become] at releases
  have released : (printSystem.restrict condition).Reachable
      ((t.goto (.before sections)).become lockInit ⟨.outside, .on, 0⟩) :=
    reachable_finish allowed (s := t.goto (.before sections)) (alike.goto _) live
      (finish_released s.self)
      (printed.step ⟨releases, allowed _ _ (alike.goto _)⟩)
  have same : (t.goto (.before sections)).become lockInit ⟨.outside, .on, 0⟩ =
      t.goto (.before sections) := by
    have unchanged := (t.goto (.before sections)).become_task
    have lock : (t.goto (.before sections)).threads.lock = lockInit := lock
    have task : (t.goto (.before sections)).task = ⟨.outside, .on, 0⟩ := task
    rwa [lock, task] at unchanged
  rw [same] at released
  exact released

/-- A fresh lock, with thread 1 on the processor, and no thread that has printed. -/
def fresh : Printing where
  threads := .fresh
  stage _ := .idle
  called _ := []
  output := []

/-- `kprintf_lock("ab")` -/
def ab : Message := .kprintfLock (bytes "ab") [] [0x61, 0x62] rfl

/-- Thread 1 has printed the first character of its message. -/
def afterFirst : Printing where
  threads := .fresh
  stage := Function.update fresh.stage 1 (.before [[0x62]])
  called := Function.update fresh.called 1 [ab]
  output := [0x61]

theorem reachable_afterFirst (allowed : ∀ state next, Alike fresh state → condition state next) :
    (printSystem.restrict condition).Reachable afterFirst := by
  have initial : (printSystem.restrict condition).Reachable fresh :=
    .init ⟨⟨rfl, Nat.one_ne_zero, rfl, fun _ => ⟨rfl, rfl⟩⟩, fun _ => rfl, fun _ => rfl, rfl⟩
  have called := initial.step ⟨.call ab rfl rfl, allowed _ _ (.refl fresh)⟩
  have alike : Alike fresh { fresh with called := Function.update fresh.called 1 [ab] } :=
    ⟨rfl, fun thread other => ⟨rfl, Function.update_of_ne other ..⟩⟩
  exact reachable_section allowed alike rfl Nat.one_ne_zero rfl rfl called

/-- Thread 2 is about to print a character after that. -/
def beforeSecond : Printing where
  threads := afterFirst.threads.switchTo 2
  stage := afterFirst.stage
  called := Function.update afterFirst.called 2 [.kputcharLock 0x63]
  output := [0x61]

/-- Thread 2 has printed its character. -/
def afterSecond : Printing := { beforeSecond with output := [0x61, 0x63] }.goto (.before [])

theorem reachable_afterSecond : printSystem.Reachable afterSecond := by
  have first : (printSystem.restrict fun _ _ => True).Reachable afterFirst :=
    reachable_afterFirst fun _ _ _ => trivial
  have switched := first.step ⟨.switch 2 rfl (by decide) (.inl rfl), trivial⟩
  have called := switched.step ⟨.call (.kputcharLock 0x63) rfl rfl, trivial⟩
  have real : beforeSecond.self ≠ 0 := by decide
  exact (reachable_section (fun _ _ _ => trivial) (.refl beforeSecond) rfl real rfl rfl
    called).of_restrict

/-- Thread 1 has its second character left, but the first one is not at the end of the output. -/
theorem not_whole_afterSecond : ¬ afterSecond.Whole := by
  rintro ⟨order, part, writing, output, settled, begun⟩
  have left : afterSecond.transcript.left 1 = [0x62] := rfl
  have called : afterSecond.transcript.called 1 = [ab] := rfl
  have only {before : List Message} {message : Message} (same : [ab] = before ++ [message]) :
      ab = message := by
    have last : [] ++ [ab] = before ++ [message] := same
    exact List.head_eq_of_cons_eq (List.append_inj' last rfl).2
  have mid : ¬ afterSecond.transcript.Settled Message.text order 1 := by
    rintro (⟨none, -⟩ | ⟨message, same, -, whole⟩)
    · cases left.symm.trans none
    · rw [called] at same
      rw [left, ← only same] at whole
      exact absurd whole (by decide)
  have own : ¬ (part = [] ∨ 1 ≠ writing) := fun away => mid (settled 1 away)
  obtain ⟨some, rfl⟩ := (not_or.mp own).imp_right not_not.mp
  obtain ⟨message, same, -, whole⟩ := begun some
  rw [called] at same
  rw [left, ← only same] at whole
  have whole : [0x61] ++ [0x62] = part ++ [0x62] := whole
  rw [← (List.append_inj' whole rfl).1] at output
  have last : [0x61] ++ [0x63] = (order.flatMap fun entry => entry.2.text) ++ [0x61] := output
  exact absurd (List.append_inj' last rfl).2 (by decide)

end Printing

/-- As long as no thread gets the lock while another one is in the middle of a message, all
messages are printed as a whole. -/
theorem printing_whole {s : Printing}
    (reachable : (printSystem.restrict fun s _ => s.Undisturbed).Reachable s) : s.Whole := by
  have sound : s.Sound := by
    induction reachable with
    | init fresh => exact .initial fresh
    | step _ taken ih => exact taken.1.keeps ih taken.2
  exact sound.whole

theorem printing_whole_afterFirst : Printing.afterFirst.Whole :=
  printing_whole (Printing.reachable_afterFirst fun _ _ alike => alike.undisturbed fun _ _ => rfl)

/-- Another thread prints between two characters of a message. -/
theorem not_printing_whole : ¬ ∀ s, printSystem.Reachable s → s.Whole := by
  intro always
  exact Printing.not_whole_afterSecond (always _ Printing.reachable_afterSecond)

end Pumelo
