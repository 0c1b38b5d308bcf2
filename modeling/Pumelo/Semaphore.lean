import Pumelo.Foundation.Semaphore
import Pumelo.Scheduler

/-!
# Semaphores in memory

`sema_init`, `sema_down` and `sema_up` of `sync.c`.  A `struct semaphore` holds its value
in the byte at offset 0 and the list of its waiters at offset 4.  A waiting thread hangs
in that list by the same entry that the ready list uses, so what the functions do is
said for a thread that is in one of the two lists at most.
-/

namespace Pumelo

open Foundation

/-- `&sema->waiters` -/
def waitersOf (sema : Nat) : Nat := sema + 4

/-- `sema_init` -/
def semaInit (m : Machine) (sema : Nat) (value : UInt8) : Machine :=
  listInit { m with mem := m.mem.write8 sema value } (waitersOf sema)

/-- The loop of `sema_down` from its condition on: to its end, with interrupts still off,
or to where another thread runs. -/
def semaTry (m : Machine) (sema : Nat) : Except Fault (Bool × Machine) := do
  if m.mem sema = 0 then
    let list := waitersOf sema
    assert ((← listFind m.mem list (generalTag m.runningThread)) = false)
      "!list_find(&sema->waiters, &running_thread()->general_tag)"
    if ← listFind m.mem list (generalTag m.runningThread) then
      .error (.panic "sema_down: thread blocked has been in waiter list")
    let m := listAppend m list (generalTag m.runningThread)
    let (_, m) ← threadBlock m .blocked
    return (false, m)
  let m := { m with mem := m.mem.write8 sema (m.mem sema - 1) }
  assert (m.mem sema = 0) "sema->value == 0"
  return (true, m)

/-- `thread_unblock` for the first of the waiters in `sema_up`. -/
def wakeWaiter (m : Machine) (sema : Nat) : Except Fault Machine :=
  let (tag, m) := listPop m (waitersOf sema)
  threadUnblock m (ofGeneralTag tag)

/-- `sema_up` -/
def semaUp (m : Machine) (sema : Nat) : Except Fault Machine := do
  let (oldStatus, m) := intrDisable m
  assert (m.mem sema = 0) "sema->value == 0"
  let m ← if listEmpty m.mem (waitersOf sema) then pure m else wakeWaiter m sema
  let m := { m with mem := m.mem.write8 sema (m.mem sema + 1) }
  assert (m.mem sema = 1) "sema->value == 1"
  return (setIntrStatus m oldStatus).2

/-- Where a semaphore may lie: apart from the lists of the scheduler and from all thread
structures. -/
structure SemaPlaced (image : Image) (born : List Nat) (sema : Nat) : Prop where
  fits : sema + 20 ≤ 2 ^ 32
  ready : sema + 20 ≤ image.threadReadyList ∨ image.threadReadyList + 16 ≤ sema
  all : sema + 20 ≤ image.threadListAll ∨ image.threadListAll + 16 ≤ sema
  threads : ∀ thread ∈ born, sema + 20 ≤ thread ∨ thread + 312 ≤ sema

/-- A semaphore with its value and its waiters in order. -/
structure Machine.SemaAt (m : Machine) (born : List Nat) (sema value : Nat)
    (waiters : List Nat) : Prop where
  placed : SemaPlaced m.image born sema
  count : (m.mem sema).toNat = value
  list : ListAt m.mem (waitersOf sema) (waiters.map generalTag)
  known : ∀ thread ∈ waiters, thread ∈ born

/-- The bytes of a semaphore and of the entries of these threads. -/
def OfSema (sema : Nat) (threads : List Nat) (query : Nat) : Prop :=
  (sema ≤ query ∧ query < sema + 20) ∨ ∃ thread ∈ threads, thread + 92 ≤ query ∧
    query < thread + 100

namespace Machine.SemaAt

variable {m m' : Machine} {born moved waiters : List Nat} {sema value thread : Nat}

/-- A semaphore depends on its own bytes and its waiters' entries only. -/
theorem congr (at' : m.SemaAt born sema value waiters) (image : m'.image = m.image)
    (agree : ∀ query, OfSema sema waiters query → m'.mem query = m.mem query) :
    m'.SemaAt born sema value waiters := by
  refine ⟨image ▸ at'.placed, ?_, at'.list.congr fun query inside => agree query ?_, at'.known⟩
  · rw [agree sema (.inl (by omega)), at'.count]
  · by_contra away
    refine inside fun node isNode => ?_
    by_contra near
    rw [mem_listNodes, List.mem_map] at isNode
    simp only [waitersOf, tailer] at isNode
    rcases isNode with rfl | ⟨thread, member, rfl⟩ | rfl
    · exact away (.inl (by omega))
    · simp only [generalTag] at near
      exact away (.inr ⟨thread, member, by omega, by omega⟩)
    · exact away (.inl (by omega))

/-- The scheduler leaves a semaphore alone whose waiters it does not move. -/
theorem keeps (at' : m.SemaAt born sema value waiters) (keeps : m.Keeps m' born moved)
    (pages : ∀ thread ∈ born, ThreadPage thread) (subset : ∀ thread ∈ moved, thread ∈ born)
    (apart : ∀ thread ∈ waiters, thread ∉ moved) : m'.SemaAt born sema value waiters := by
  obtain ⟨fits, ready, all, threads⟩ := at'.placed
  have placed := m.image.ready_placed
  refine at'.congr keeps.image fun query inside => keeps.bytes query ?_
  rcases inside with ⟨lower, upper⟩ | ⟨thread, member, lower, upper⟩
  · refine ⟨by omega, fun other member => ?_, fun other member => ?_, fun other member => ?_⟩
    · have away := threads other member
      omega
    · have away := threads other member
      omega
    · have away := threads other (subset other member)
      omega
  · have page := pages thread (at'.known thread member)
    have low := page.low
    refine ⟨by omega, fun other member' => ?_, fun other member' => ?_, fun other member' => ?_⟩
    · have separate := or_iff_not_imp_left.mpr (page.apart (pages other member'))
      omega
    · have separate := or_iff_not_imp_left.mpr (page.apart (pages other member'))
      omega
    · have different : thread ≠ other := fun equal => apart thread member (equal ▸ member')
      have separate := page.apart (pages other (subset other member')) different
      omega

/-- The entry of a thread that does not wait here overlaps none of the list's. -/
theorem tag_apart (at' : m.SemaAt born sema value waiters)
    (pages : ∀ thread ∈ born, ThreadPage thread) (member : thread ∈ born)
    (fresh : thread ∉ waiters) :
    ∀ node ∈ listNodes (waitersOf sema) (waiters.map generalTag),
      Apart 8 (generalTag thread) node := by
  have away := at'.placed.threads thread member
  intro node isNode
  rw [mem_listNodes, List.mem_map] at isNode
  simp only [Apart, generalTag, waitersOf, tailer] at isNode ⊢
  rcases isNode with rfl | ⟨other, member', rfl⟩ | rfl
  · omega
  · have different : thread ≠ other := fun equal => fresh (equal ▸ member')
    have separate := (pages thread member).apart (pages other (at'.known other member')) different
    omega
  · omega

/-- Bytes that are no part of the list of waiters. -/
theorem outside {query : Nat} (away : ¬OfSema sema waiters query) :
    Outside (listNodes (waitersOf sema) (waiters.map generalTag)) query := by
  intro node isNode
  by_contra near
  rw [mem_listNodes, List.mem_map] at isNode
  simp only [waitersOf, tailer] at isNode
  rcases isNode with rfl | ⟨thread, member, rfl⟩ | rfl
  · exact away (.inl (by omega))
  · simp only [generalTag] at near
    exact away (.inr ⟨thread, member, by omega, by omega⟩)
  · exact away (.inl (by omega))

/-- A thread is appended to the waiters. -/
theorem append (at' : m.SemaAt born sema value waiters)
    (pages : ∀ thread ∈ born, ThreadPage thread) (member : thread ∈ born)
    (fresh : thread ∉ waiters) :
    (listAppend m (waitersOf sema) (generalTag thread)).SemaAt born sema value
        (waiters ++ [thread]) ∧
      ∀ query, ¬OfSema sema (thread :: waiters) query →
        (listAppend m (waitersOf sema) (generalTag thread)).mem query = m.mem query := by
  have away := at'.placed.threads thread member
  have fits := (pages thread member).fits
  rw [listAppend_eq]
  refine ⟨⟨at'.placed, ?_, ?_, fun other member' => ?_⟩, fun query outside => ?_⟩
  · rw [← at'.count]
    refine congrArg UInt8.toNat (at'.list.append_of_outside fun node isNode => ?_)
    rw [List.mem_cons, mem_listNodes, List.mem_map] at isNode
    simp only [waitersOf, tailer, generalTag] at isNode
    rcases isNode with rfl | rfl | ⟨other, member', rfl⟩ | rfl
    · omega
    · omega
    · have away := at'.placed.threads other (at'.known other member')
      omega
    · omega
  · rw [List.map_append, List.map_singleton]
    exact at'.list.append (at'.tag_apart pages member fresh) (by simp only [generalTag]; omega)
  · rcases List.mem_append.mp member' with member' | member'
    · exact at'.known other member'
    · exact List.mem_singleton.mp member' ▸ member
  · refine at'.list.append_of_outside fun node isNode => ?_
    rcases List.mem_cons.mp isNode with rfl | isNode
    · by_contra near
      simp only [generalTag] at near
      exact outside (.inr ⟨thread, by simp, by omega, by omega⟩)
    · refine SemaAt.outside (fun inside => outside ?_) node isNode
      rcases inside with inside | ⟨other, member', inside⟩
      · exact .inl inside
      · exact .inr ⟨other, List.mem_cons_of_mem _ member', inside⟩

/-- The first waiter leaves. -/
theorem pop {rest : List Nat} (at' : m.SemaAt born sema value (thread :: rest)) :
    (listPop m (waitersOf sema)).1 = generalTag thread ∧
      (listPop m (waitersOf sema)).2.SemaAt born sema value rest ∧
      ∀ query, ¬OfSema sema (thread :: rest) query →
        (listPop m (waitersOf sema)).2.mem query = m.mem query := by
  have list : ListAt m.mem (waitersOf sema) ([] ++ generalTag thread :: rest.map generalTag) :=
    at'.list
  have head : nextOf m.mem (waitersOf sema) = generalTag thread := list.next_cons
  simp only [listPop, head, listRemove_eq]
  refine ⟨trivial, ⟨at'.placed, ?_, list.remove, fun other member =>
    at'.known other (List.mem_cons_of_mem _ member)⟩, fun query outside => ?_⟩
  · rw [← at'.count]
    refine congrArg UInt8.toNat (list.remove_of_outside fun node isNode => ?_)
    simp only [List.nil_append, mem_listNodes, List.mem_map, waitersOf, tailer, generalTag]
      at isNode
    rcases isNode with rfl | ⟨other, member', rfl⟩ | rfl
    · omega
    · have away := at'.placed.threads other (at'.known other (by simp [member']))
      omega
    · omega
  · refine list.remove_of_outside (SemaAt.outside fun inside => outside ?_)
    rcases inside with inside | ⟨other, member', inside⟩
    · exact .inl inside
    · exact .inr ⟨other, List.mem_cons_of_mem _ member', inside⟩

/-- The value changes. -/
theorem setValue (at' : m.SemaAt born sema value waiters) (byte : UInt8) :
    ({ m with mem := m.mem.write8 sema byte } : Machine).SemaAt born sema byte.toNat waiters ∧
      ∀ query, ¬OfSema sema [] query → m.mem.write8 sema byte query = m.mem query := by
  have outside : ∀ query, query ≠ sema → m.mem.write8 sema byte query = m.mem query :=
    fun query different => Bytes.write8_of_ne _ _ different
  refine ⟨⟨at'.placed, congrArg UInt8.toNat (if_pos rfl), at'.list.congr fun query inside =>
    outside query ?_, at'.known⟩, fun query away => outside query ?_⟩
  · rintro rfl
    refine inside fun node isNode => ?_
    rw [mem_listNodes, List.mem_map] at isNode
    simp only [waitersOf, tailer] at isNode
    rcases isNode with rfl | ⟨other, member', rfl⟩ | rfl
    · omega
    · have away := at'.placed.threads other (at'.known other member')
      simp only [generalTag]
      omega
    · omega
  · rintro rfl
    exact away (.inl (by omega))

/-- Another semaphore whose waiters are other threads. -/
theorem aside (at' : m.SemaAt born sema value waiters) {mem' : Bytes} {other : Nat}
    {threads : List Nat} (agree : ∀ query, ¬OfSema other threads query → mem' query = m.mem query)
    (placed : SemaPlaced m.image born other) (apart : sema + 20 ≤ other ∨ other + 20 ≤ sema)
    (pages : ∀ thread ∈ born, ThreadPage thread) (subset : ∀ thread ∈ threads, thread ∈ born)
    (separate : ∀ thread ∈ waiters, thread ∉ threads) :
    ({ m with mem := mem' } : Machine).SemaAt born sema value waiters := by
  refine at'.congr rfl fun query inside => agree query ?_
  rintro (inOther | ⟨thread, member, lower, upper⟩)
  · rcases inside with inside | ⟨thread, member, inside⟩
    · omega
    · have away := placed.threads thread (at'.known thread member)
      omega
  · rcases inside with inside | ⟨waiter, member', inside⟩
    · have away := at'.placed.threads thread (subset thread member)
      omega
    · have different : waiter ≠ thread := fun equal => separate waiter member' (equal ▸ member)
      have away := (pages waiter (at'.known waiter member')).apart
        (pages thread (subset thread member)) different
      omega

end Machine.SemaAt

section

variable {m : Machine} {d : Dispatcher Nat Asleep} {sema value : Nat} {waiters threads : List Nat}

/-- The scheduler does not see a semaphore whose waiters are not in the ready list. -/
theorem Machine.Runs.aside (runs : m.Runs d) {mem' : Bytes}
    (agree : ∀ query, ¬OfSema sema threads query → mem' query = m.mem query)
    (placed : SemaPlaced m.image d.born sema) (subset : ∀ thread ∈ threads, thread ∈ d.born)
    (separate : ∀ thread ∈ threads, thread ∉ d.ready) :
    ({ m with mem := mem' } : Machine).Runs d := by
  have ready := placed.ready
  have image := m.image.ready_placed
  refine runs.congr rfl rfl fun query inside => agree query ?_
  rintro (inOther | ⟨thread, member, lower, upper⟩)
  · rcases inside with (inside | ⟨other, member', inside⟩) | ⟨other, member', inside⟩
    · omega
    · have away := placed.threads other (runs.queued other member')
      omega
    · have away := placed.threads other member'
      omega
  · have page := runs.pages thread (subset thread member)
    have low := page.low
    rcases inside with (inside | ⟨other, member', inside⟩) | ⟨other, member', inside⟩
    · omega
    · have different : thread ≠ other := fun equal => separate thread member (equal ▸ member')
      have away := page.apart (runs.pages other (runs.queued other member')) different
      omega
    · have away := or_iff_not_imp_left.mpr (page.apart (runs.pages other member'))
      omega

/-- Nor does the list of all threads. -/
theorem Machine.ListsAll.aside {born : List Nat} (all : m.ListsAll born) {mem' : Bytes}
    (agree : ∀ query, ¬OfSema sema threads query → mem' query = m.mem query)
    (placed : SemaPlaced m.image born sema) (pages : ∀ thread ∈ born, ThreadPage thread)
    (subset : ∀ thread ∈ threads, thread ∈ born) :
    ({ m with mem := mem' } : Machine).ListsAll born := by
  have list := placed.all
  have image := m.image.all_placed
  refine all.congr rfl (fun query lower upper => agree query ?_)
    fun thread member query lower upper => agree query ?_
  · rintro (inOther | ⟨other, member', inside⟩)
    · omega
    · have low := (pages other (subset other member')).low
      omega
  · rintro (inOther | ⟨other, member', inside⟩)
    · have away := placed.threads thread member
      omega
    · have away := or_iff_not_imp_left.mpr
        ((pages thread member).apart (pages other (subset other member')))
      omega

end

/-! ## All semaphores -/

/-- The machine holds these threads and semaphores. -/
structure Machine.Holds (m : Machine) (s : Semaphores Nat Asleep Nat) (live : List Nat) : Prop where
  runs : m.Runs s.threads
  all : m.ListsAll s.threads.born
  semas : ∀ sema ∈ live, m.SemaAt s.threads.born sema (s.value sema) (s.waiters sema)
  apart : ∀ sema ∈ live, ∀ other ∈ live, sema ≠ other → sema + 20 ≤ other ∨ other + 20 ≤ sema

/-- The invariant of the semaphores, with the idle thread of the machine. -/
abbrev Machine.Guards (m : Machine) (first : Nat → Nat) (s : Semaphores Nat Asleep Nat) : Prop :=
  s.Inv m.idleThread .blocked first

namespace Machine.Holds

variable {m m' : Machine} {s : Semaphores Nat Asleep Nat} {live : List Nat} {first : Nat → Nat}
  {sema thread : Nat}

/-- A waiter is not the running thread, nor the idle thread, nor ready. -/
theorem waiter_rests (inv : m.Guards first s) (member : thread ∈ s.waiters sema) :
    thread ∉ m.idleThread :: s.threads.running :: s.threads.ready := by
  obtain ⟨spot, asleep⟩ := inv.waiting sema thread member
  intro moved
  rcases List.mem_cons.mp moved with rfl | moved
  · rw [inv.idle] at spot
    cases spot
  rcases List.mem_cons.mp moved with rfl | ready
  · exact inv.running_not_mem sema member
  · have ready := (inv.sound.ready thread).mp ready
    rw [asleep] at ready
    cases ready

/-- No thread waits at two semaphores. -/
theorem waiter_other (inv : m.Guards first s) {other : Nat} (different : other ≠ sema)
    (member : thread ∈ s.waiters sema) : thread ∉ s.waiters other := by
  intro member'
  have spot := (inv.waiting sema thread member).1
  rw [(inv.waiting other thread member').1] at spot
  exact different (Option.some.inj spot)

/-- What the scheduler moves exists. -/
theorem moved_born (inv : m.Guards first s)
    (moved : thread ∈ m.idleThread :: s.threads.running :: s.threads.ready) :
    thread ∈ s.threads.born := by
  rcases List.mem_cons.mp moved with rfl | moved
  · exact inv.sound.idle
  rcases List.mem_cons.mp moved with rfl | ready
  · exact inv.sound.running_mem
  · exact (inv.sound.born _).mpr (by simp [(inv.sound.ready thread).mp ready])

/-- The scheduler moves threads that do not wait, and leaves the semaphores alone. -/
theorem moves (holds : m.Holds s live) {threads : Dispatcher Nat Asleep} {moved : List Nat}
    (keeps : m.Keeps m' s.threads.born moved) (runs : m'.Runs threads)
    (born : threads.born = s.threads.born) (subset : ∀ thread ∈ moved, thread ∈ s.threads.born)
    (apart : ∀ sema, ∀ thread ∈ s.waiters sema, thread ∉ moved) :
    m'.Holds (s.withThreads threads) live where
  runs := runs
  all := by
    rw [show (s.withThreads threads).threads.born = s.threads.born from born]
    exact keeps.listsAll holds.all holds.runs.pages subset fun _ member => member
  semas sema member := by
    rw [show (s.withThreads threads).threads.born = s.threads.born from born]
    exact (holds.semas sema member).keeps keeps holds.runs.pages subset (apart sema)
  apart := holds.apart

/-- Such are the idle thread, the running one and those that are ready. -/
theorem keeps (holds : m.Holds s live) (inv : m.Guards first s) {threads : Dispatcher Nat Asleep}
    (keeps : m.Keeps m' s.threads.born (m.idleThread :: s.threads.running :: s.threads.ready))
    (runs : m'.Runs threads) (born : threads.born = s.threads.born) :
    m'.Holds (s.withThreads threads) live :=
  holds.moves keeps runs born (fun _ => moved_born inv) fun _ _ => waiter_rests inv

/-- What is held depends on the bytes of the lists, threads and semaphores only. -/
theorem congr (holds : m.Holds s live) (image : m'.image = m.image)
    (running : m'.running = m.running)
    (scheduler : ∀ query, OfScheduler m.image s.threads query → m'.mem query = m.mem query)
    (list : ∀ query, m.image.threadListAll ≤ query → query < m.image.threadListAll + 16 →
      m'.mem query = m.mem query)
    (tags : ∀ thread ∈ s.threads.born, ∀ query, thread + 92 ≤ query → query < thread + 108 →
      m'.mem query = m.mem query)
    (semas : ∀ sema ∈ live, ∀ query, sema ≤ query → query < sema + 20 →
      m'.mem query = m.mem query) : m'.Holds s live where
  runs := holds.runs.congr image running scheduler
  all := holds.all.congr image list fun thread member query lower upper =>
    tags thread member query (by omega) upper
  semas sema member := by
    refine (holds.semas sema member).congr image fun query inside => ?_
    rcases inside with ⟨lower, upper⟩ | ⟨waiter, waits, lower, upper⟩
    · exact semas sema member query lower upper
    · exact tags waiter ((holds.semas sema member).known waiter waits) query lower (by omega)
  apart := holds.apart

/-- Only threads, values and waiters are in memory. -/
theorem congr_state (holds : m.Holds s live) {s' : Semaphores Nat Asleep Nat}
    (threads : s'.threads = s.threads) (value : s'.value = s.value)
    (waiters : s'.waiters = s.waiters) : m.Holds s' live := by
  refine ⟨threads ▸ holds.runs, threads ▸ holds.all, fun sema member => ?_, holds.apart⟩
  rw [threads, value, waiters]
  exact holds.semas sema member

/-- The interrupt flag does not matter. -/
theorem setIntr (holds : m.Holds s live) (status : IntrStatus) :
    ({ m with intr := status } : Machine).Holds s live :=
  ⟨holds.runs.setIntr status, holds.all, fun sema member =>
    (holds.semas sema member).congr rfl fun _ _ => rfl, holds.apart⟩

/-- The value of one semaphore changes. -/
theorem setValue (holds : m.Holds s live) (member : sema ∈ live) (byte : UInt8) :
    ({ m with mem := m.mem.write8 sema byte } : Machine).Holds
      { s with value := Function.update s.value sema byte.toNat } live := by
  have at' := holds.semas sema member
  obtain ⟨changed, agree⟩ := at'.setValue byte
  refine ⟨holds.runs.aside agree at'.placed nofun nofun,
    holds.all.aside agree at'.placed holds.runs.pages nofun, fun other member' => ?_, holds.apart⟩
  by_cases same : other = sema
  · subst same
    simpa only [Function.update_self] using changed
  · simp only [Function.update_of_ne same]
    exact (holds.semas other member').aside agree at'.placed
      (holds.apart other member' sema member same) holds.runs.pages nofun nofun

/-- The first part of waiting: the running thread hangs in the list of waiters. -/
theorem hang (holds : m.Holds s live) (inv : m.Guards first s) (member : sema ∈ live) :
    (listAppend m (waitersOf sema) (generalTag s.threads.running)).Holds
      { s with
        waiters := Function.update s.waiters sema (s.waiters sema ++ [s.threads.running]) } live := by
  have at' := holds.semas sema member
  have born : s.threads.running ∈ s.threads.born := moved_born inv (by simp)
  have known : ∀ thread ∈ s.threads.running :: s.waiters sema, thread ∈ s.threads.born := by
    intro thread hangs
    rcases List.mem_cons.mp hangs with rfl | waits
    · exact born
    · exact at'.known thread waits
  have rests : ∀ thread ∈ s.threads.running :: s.waiters sema, thread ∉ s.threads.ready := by
    intro thread hangs ready
    rcases List.mem_cons.mp hangs with rfl | waits
    · have phase := (inv.sound.ready _).mp ready
      rw [inv.sound.running_phase] at phase
      cases phase
    · exact waiter_rests inv waits (by simp [ready])
  obtain ⟨changed, agree⟩ := at'.append holds.runs.pages born (inv.running_not_mem sema)
  rw [listAppend_eq] at changed agree ⊢
  refine ⟨holds.runs.aside agree at'.placed known rests,
    holds.all.aside agree at'.placed holds.runs.pages known, fun other member' => ?_, holds.apart⟩
  by_cases same : other = sema
  · subst same
    simpa only [Function.update_self] using changed
  · simp only [Function.update_of_ne same]
    refine (holds.semas other member').aside agree at'.placed
      (holds.apart other member' sema member same) holds.runs.pages known fun thread waits hangs =>
        ?_
    rcases List.mem_cons.mp hangs with rfl | waits'
    · exact inv.running_not_mem other waits
    · exact waiter_other inv (Ne.symm same) waits waits'

/-- `list_find` on the waiters. -/
theorem find (holds : m.Holds s live) (member : sema ∈ live) (thread : Nat) :
    listFind m.mem (waitersOf sema) (generalTag thread) =
      .ok (decide (thread ∈ s.waiters sema)) := by
  rw [(holds.semas sema member).list.listFind_eq]
  simp only [generalTag_mem_map]

/-- The value as the byte in memory. -/
theorem byte_zero (holds : m.Holds s live) (member : sema ∈ live) :
    m.mem sema = 0 ↔ s.value sema = 0 := by
  rw [← (holds.semas sema member).count, ← UInt8.toNat_inj]
  rfl

theorem byte_one (holds : m.Holds s live) (member : sema ∈ live) (one : s.value sema = 1) :
    m.mem sema = 1 := by
  rw [← UInt8.toNat_inj, (holds.semas sema member).count, one]
  rfl

/-- `sema_down` with a value of 1 takes it. -/
theorem semaTry_take (holds : m.Holds s live) (inv : m.Guards first s) (member : sema ∈ live)
    (nonzero : s.value sema ≠ 0) :
    ∃ mem, semaTry m sema = .ok (true, { m with mem := mem }) ∧
      ({ m with mem := mem } : Machine).Holds (s.take sema) live := by
  have binary := inv.binary sema
  have byte : m.mem sema = 1 := holds.byte_one member (by omega)
  have taken := holds.setValue member (m.mem sema - 1)
  refine ⟨m.mem.write8 sema (m.mem sema - 1), ?_, taken.runs, taken.all, fun other member' => ?_,
    taken.apart⟩
  · have zero : m.mem.write8 sema (m.mem sema - 1) sema = 0 := by
      rw [byte]
      exact if_pos rfl
    rw [semaTry, if_neg (by rw [byte]; decide)]
    exact bind_ok (assert_of zero _)
  · have value : (m.mem sema - 1).toNat = s.value sema - 1 := by
      rw [byte, show s.value sema = 1 by omega]
      rfl
    have at' := taken.semas other member'
    rw [value] at at'
    exact at'

/-- `sema_down` with a value of 0, whatever thread runs: it hangs in the list of waiters
and gives up the processor. -/
theorem semaTry_zero (holds : m.Holds s live) (inv : m.Guards first s) (member : sema ∈ live)
    (zero : s.value sema = 0) :
    ∃ m', semaTry m sema = .ok (false, m') ∧
      m'.Runs ((s.threads.sleep .blocked).dispatch m.idleThread) ∧
      (listAppend m (waitersOf sema) (generalTag s.threads.running)).Keeps m' s.threads.born
        (m.idleThread :: s.threads.ready) := by
  have hung := holds.hang inv member
  have found := holds.find member s.threads.running
  rw [decide_eq_false (inv.running_not_mem sema), ← holds.runs.running] at found
  rw [listAppend_eq] at hung ⊢
  obtain ⟨m', run, runs, keeps⟩ := threadBlock_runs hung.runs inv.sound .blocked
  refine ⟨m', ?_, runs, keeps⟩
  rw [semaTry, if_pos ((holds.byte_zero member).mpr zero)]
  refine (bind_ok found).trans ((bind_ok (assert_of rfl _)).trans ((bind_ok found).trans ?_))
  rw [← holds.runs.running] at run
  simp only [Bool.false_eq_true, if_false]
  rw [listAppend_eq, Machine.runningThread]
  exact bind_ok run

/-- Any thread but the idle thread then waits. -/
theorem semaTry_wait (holds : m.Holds s live) (inv : m.Guards first s) (member : sema ∈ live)
    (notIdle : s.threads.running ≠ m.idleThread) (zero : s.value sema = 0) :
    ∃ m', semaTry m sema = .ok (false, m') ∧ m.Agrees m' ∧
      m'.Holds (s.wait m.idleThread .blocked sema) live := by
  have hung := holds.hang inv member
  obtain ⟨m', run, runs, keeps⟩ := holds.semaTry_zero inv member zero
  rw [listAppend_eq] at hung keeps
  have pages := hung.runs.pages
  have subset : ∀ thread ∈ m.idleThread :: s.threads.ready, thread ∈ s.threads.born := by
    intro thread moved
    refine moved_born inv ?_
    simp only [List.mem_cons] at moved ⊢
    tauto
  refine ⟨m', run, ⟨keeps.agrees.image, keeps.agrees.mainThread, keeps.agrees.idleThread⟩, runs, ?_,
    fun other member' => ?_, holds.apart⟩
  · exact keeps.listsAll hung.all pages subset fun _ isBorn => isBorn
  · refine (hung.semas other member').keeps keeps pages subset fun thread waits moved => ?_
    have rests : ∀ sema, thread ∈ s.waiters sema → False := fun sema waits => by
      refine waiter_rests inv waits ?_
      simp only [List.mem_cons] at moved ⊢
      tauto
    dsimp only at waits
    by_cases same : other = sema
    · subst same
      rw [Function.update_self, List.mem_append, List.mem_singleton] at waits
      rcases waits with waits | rfl
      · exact rests other waits
      · rcases List.mem_cons.mp moved with idle | ready
        · exact notIdle idle
        · have phase := (inv.sound.ready _).mp ready
          rw [inv.sound.running_phase] at phase
          cases phase
    · rw [Function.update_of_ne same] at waits
      exact rests other waits

/-- The first waiter is taken out of its list and woken. -/
theorem wakeFirst (holds : m.Holds s live) (inv : m.Guards first s) (member : sema ∈ live)
    {rest : List Nat} (waiters : s.waiters sema = thread :: rest) :
    ∃ m', wakeWaiter m sema = .ok m' ∧ m.Agrees m' ∧
      m'.Holds { s with
        threads := s.threads.wake thread
        waiters := Function.update s.waiters sema rest } live := by
  have at' := holds.semas sema member
  have waits : thread ∈ s.waiters sema := by simp [waiters]
  have nodup := inv.nodup sema
  rw [waiters] at at' nodup
  have rests : ∀ other ∈ thread :: rest, other ∉ s.threads.ready := fun other member' ready =>
    waiter_rests inv (waiters ▸ member') (by simp [ready])
  obtain ⟨tag, popped, agree⟩ := at'.pop
  generalize emptied : listPop m (waitersOf sema) = result at tag popped agree
  have image : result.2 = { m with mem := result.2.mem } := by
    rw [← emptied]
    simp only [listPop, listRemove_eq]
  have runs : result.2.Runs s.threads := by
    rw [image]
    exact holds.runs.aside agree at'.placed at'.known rests
  have all : result.2.ListsAll s.threads.born := by
    rw [image]
    exact holds.all.aside agree at'.placed holds.runs.pages at'.known
  obtain ⟨m', run, woken, keeps, -⟩ :=
    threadUnblock_runs runs inv.sound.toQueued (inv.waiting sema thread waits).2
  have subset : ∀ other ∈ thread :: s.threads.ready, other ∈ s.threads.born := by
    intro other moved
    rcases List.mem_cons.mp moved with rfl | ready
    · exact at'.known other (by simp)
    · exact holds.runs.queued other ready
  have agrees := keeps.agrees
  rw [image] at agrees
  refine ⟨m', ?_, ⟨agrees.image, agrees.mainThread, agrees.idleThread⟩, woken,
    keeps.listsAll all holds.runs.pages subset fun _ isBorn => isBorn, fun other member' => ?_,
    holds.apart⟩
  · rw [wakeWaiter, emptied]
    dsimp only
    rw [tag, ofGeneralTag_generalTag, run]
  by_cases same : other = sema
  · subst same
    simp only [Function.update_self]
    refine popped.keeps keeps holds.runs.pages subset fun waiter isRest moved => ?_
    rcases List.mem_cons.mp moved with rfl | ready
    · exact (List.nodup_cons.mp nodup).1 isRest
    · exact rests waiter (List.mem_cons_of_mem _ isRest) ready
  · simp only [Function.update_of_ne same]
    have elsewhere : result.2.SemaAt s.threads.born other (s.value other) (s.waiters other) := by
      rw [image]
      exact (holds.semas other member').aside agree at'.placed
        (holds.apart other member' sema member same) holds.runs.pages at'.known
        fun waiter waits' isWaiter => waiter_other inv (Ne.symm same) waits' (waiters ▸ isWaiter)
    refine elsewhere.keeps keeps holds.runs.pages subset fun waiter waits' moved => ?_
    rcases List.mem_cons.mp moved with rfl | ready
    · exact waiter_other inv same waits waits'
    · exact waiter_rests inv waits' (by simp [ready])

/-- The last part of `sema_up`. -/
theorem raise (holds : m.Holds s live) (member : sema ∈ live) (zero : s.value sema = 0)
    (status : IntrStatus) :
    ∃ m', (do
        let m := { m with mem := m.mem.write8 sema (m.mem sema + 1) }
        assert (m.mem sema = 1) "sema->value == 1"
        return (setIntrStatus m status).2 : Except Fault Machine) = .ok m' ∧
      m.Agrees m' ∧ m'.intr = status ∧
      m'.Holds { s with value := Function.update s.value sema (s.value sema + 1) } live := by
  have byte := (holds.byte_zero member).mpr zero
  have one : m.mem.write8 sema (m.mem sema + 1) sema = 1 := by
    rw [byte]
    exact if_pos rfl
  have raised := (holds.setValue member (m.mem sema + 1)).setIntr status
  have value : (m.mem sema + 1).toNat = s.value sema + 1 := by
    rw [byte, zero]
    rfl
  rw [value] at raised
  refine ⟨{ m with
    mem := m.mem.write8 sema (m.mem sema + 1)
    intr := status }, ?_, ⟨rfl, rfl, rfl⟩, rfl, raised⟩
  refine (bind_ok (assert_of one _)).trans ?_
  rw [setIntrStatus_eq]
  rfl

/-- `sema_up` with a value of 0 wakes the first waiter. -/
theorem semaUp_holds (holds : m.Holds s live) (inv : m.Guards first s) (member : sema ∈ live)
    (zero : s.value sema = 0) :
    ∃ m', semaUp m sema = .ok m' ∧ m.Agrees m' ∧ m'.intr = m.intr ∧ m'.Holds (s.up sema) live := by
  have off := holds.setIntr .off
  have byte := (holds.byte_zero member).mpr zero
  have empty : listEmpty m.mem (waitersOf sema) ↔ s.waiters sema = [] := by
    rw [(holds.semas sema member).list.listEmpty_iff, List.map_eq_nil_iff]
  rw [semaUp, intrDisable_eq]
  cases waitersEq : s.waiters sema with
  | nil =>
      obtain ⟨m', run, agrees, intr, raised⟩ := off.raise member zero m.intr
      refine ⟨m', ?_, ⟨agrees.image, agrees.mainThread, agrees.idleThread⟩, intr,
        raised.congr_state ?_ rfl ?_⟩
      · refine (bind_ok (assert_of byte _)).trans ?_
        rw [if_pos (empty.mpr waitersEq)]
        exact run
      · simp only [Semaphores.up, waitersEq, List.head?_nil, Option.elim_none]
      · simp only [Semaphores.up, waitersEq, List.tail_nil]
        rw [← waitersEq, Function.update_eq_self]
  | cons thread rest =>
      obtain ⟨woken, unblocked, agrees, holds'⟩ := off.wakeFirst inv member waitersEq
      obtain ⟨m', run, agrees', intr, raised⟩ := holds'.raise member zero m.intr
      refine ⟨m', ?_, ?_, intr, raised.congr_state ?_ rfl ?_⟩
      · refine (bind_ok (assert_of byte _)).trans ?_
        rw [if_neg (empty.not.mpr (by simp [waitersEq]))]
        exact (bind_ok unblocked).trans run
      · exact ⟨agrees'.image.trans agrees.image, agrees'.mainThread.trans agrees.mainThread,
          agrees'.idleThread.trans agrees.idleThread⟩
      · simp only [Semaphores.up, waitersEq, List.head?_cons, Option.elim_some]
      · simp only [Semaphores.up, waitersEq, List.tail_cons]

/-- A thread is started on a page that holds no semaphore. -/
theorem start (holds : m.Holds s live) (inv : m.Guards first s) (page : ThreadPage thread)
    (fresh : s.threads.phase thread = .absent) (start : Start) (fits : NameFits start.name)
    (notMain : thread ≠ m.mainThread)
    (clear : ∀ sema ∈ live, sema + 20 ≤ thread ∨ thread + 4096 ≤ sema) :
    ∃ mem, threadStart m thread start = .ok { m with mem := mem } ∧
      ({ m with mem := mem } : Machine).Holds (s.withThreads (s.threads.start thread)) live := by
  obtain ⟨mem, run, runs, all, bytes⟩ :=
    threadStart_runs holds.runs holds.all inv.sound.toQueued page fresh start fits notMain
  have notBorn : thread ∉ s.threads.born := fun born => (inv.sound.born thread).mp born fresh
  refine ⟨mem, run, runs, all, fun sema member => ?_, holds.apart⟩
  have at' := holds.semas sema member
  have placed := at'.placed
  have image := m.image.ready_placed
  have image' := m.image.all_placed
  have clear := clear sema member
  have kept : ({ m with mem := mem } : Machine).SemaAt s.threads.born sema (s.value sema)
      (s.waiters sema) := by
    refine at'.congr rfl fun query inside => ?_
    rcases inside with inside | ⟨waiter, waits, inside⟩
    · have ready := placed.ready
      have all := placed.all
      refine bytes query ⟨by omega, by omega, fun other isReady => ?_, fun other isBorn => ?_⟩
        (by omega)
      · have away := placed.threads other (holds.runs.queued other isReady)
        omega
      · have away := placed.threads other isBorn
        omega
    · have known := at'.known waiter waits
      have page' := holds.runs.pages waiter known
      have low := page'.low
      have away := page.apart page' fun equal => notBorn (equal ▸ known)
      refine bytes query ⟨by omega, by omega, fun other isReady => ?_, fun other isBorn => ?_⟩
        (by omega)
      · have different : waiter ≠ other := fun equal =>
          waiter_rests inv waits (by simp [equal, isReady])
        have separate := page'.apart (holds.runs.pages other (holds.runs.queued other isReady))
          different
        omega
      · have separate := or_iff_not_imp_left.mpr (page'.apart (holds.runs.pages other isBorn))
        omega
  refine ⟨⟨placed.fits, placed.ready, placed.all, fun other isBorn => ?_⟩, kept.count, kept.list,
    fun waiter waits => List.mem_append_left _ (kept.known waiter waits)⟩
  rcases List.mem_append.mp isBorn with isBorn | isBorn
  · exact placed.threads other isBorn
  · rw [List.mem_singleton.mp isBorn]
    omega

/-- `sema_init` makes a semaphore without waiters. -/
theorem init (holds : m.Holds s live) (placed : SemaPlaced m.image s.threads.born sema)
    (apart : ∀ other ∈ live, sema + 20 ≤ other ∨ other + 20 ≤ sema) {value : UInt8}
    (count : s.value sema = value.toNat) (empty : s.waiters sema = []) :
    (semaInit m sema value).Holds s (sema :: live) := by
  have fits := placed.fits
  have agree : ∀ query, ¬OfSema sema [] query →
      linkInit (m.mem.write8 sema value) (waitersOf sema) query = m.mem query := by
    intro query away
    have outside : query < sema ∨ sema + 20 ≤ query := by
      by_contra near
      exact away (.inl (by omega))
    rw [linkInit_of_outside _ (by simp only [waitersOf]; omega)]
    exact Bytes.write8_of_ne _ _ (by omega)
  refine ⟨holds.runs.aside agree placed nofun nofun,
    holds.all.aside agree placed holds.runs.pages nofun, fun other member => ?_,
    fun first member second member' different => ?_⟩
  · by_cases same : other = sema
    · subst same
      refine ⟨placed, ?_, ?_, by simp [empty]⟩
      · rw [count]
        refine congrArg UInt8.toNat ?_
        refine (linkInit_of_outside _ (by simp only [waitersOf]; omega)).trans (if_pos rfl)
      · rw [empty]
        exact linkInit_listAt _ (by simp only [waitersOf]; omega)
    · have member := (List.mem_cons.mp member).resolve_left same
      exact (holds.semas other member).aside agree placed
        (or_comm.mp (apart other member)) holds.runs.pages nofun nofun
  · rcases List.mem_cons.mp member with rfl | isLive
    · exact apart second ((List.mem_cons.mp member').resolve_left (Ne.symm different))
    · rcases List.mem_cons.mp member' with rfl | isLive'
      · exact or_comm.mp (apart first isLive)
      · exact holds.apart first isLive second isLive' different

end Machine.Holds

end Pumelo
