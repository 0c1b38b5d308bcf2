import Pumelo.Machine

/-!
# Waiting for the disk

`busy_wait` with the sleep between two polls of the status register.
-/

namespace Pumelo

open Foundation

/-- `1000 / IRQ0_FREQUENCY` -/
def milSecondsPerIntr : Nat := 1000 / 100

section Sleep

variable (ticks : Nat → BitVec 32)

/-- The loop of `ticks_to_sleep`. `ticks` is read time and again, with a `thread_yield` between. -/
def sleepFrom (sleepTicks startTick : BitVec 32) : (fuel read : Nat) → Except Fault Nat
  | 0, _ => .error .diverge
  | fuel + 1, read =>
      if ticks read - startTick < sleepTicks then sleepFrom sleepTicks startTick fuel (read + 1)
      else .ok (read + 1)

/-- `ticks_to_sleep` -/
def ticksToSleep (sleepTicks : BitVec 32) (fuel read : Nat) : Except Fault Nat :=
  sleepFrom ticks sleepTicks (ticks read) fuel (read + 1)

/-- `mtime_sleep` -/
def mtimeSleep (mSeconds fuel read : Nat) : Except Fault Nat := do
  let sleepTicks := divRoundUp mSeconds milSecondsPerIntr
  assert (sleepTicks > 0) "sleep_ticks > 0"
  ticksToSleep ticks (.ofNat 32 sleepTicks) fuel read

end Sleep

/-- What `ticks` is as it is read, where the timer interrupt comes time and again. -/
structure Clock where
  ticks : Nat → BitVec 32
  runs : ∀ read, ∃ later, read < later ∧ ticks later ≠ ticks read

theorem sub_lt_one {now start : BitVec 32} : now - start < 1 ↔ now = start := by
  have small : ∀ n : BitVec 32, n < 1 ↔ n = 0 := by
    intro n
    rw [BitVec.lt_def, ← BitVec.toNat_inj]
    exact Nat.lt_one_iff
  rw [small, BitVec.sub_eq_iff_eq_add]
  exact Eq.congr_right (BitVec.zero_add start)

/-- The loop ends when the next tick has come. -/
theorem sleepFrom_returns {ticks : Nat → BitVec 32} {startTick : BitVec 32} {read distance : Nat}
    (tick : ticks (read + distance) ≠ startTick) :
    ∃ later, Returns (fun fuel => sleepFrom ticks 1 startTick fuel read) later := by
  induction distance generalizing read with
  | zero =>
      refine ⟨read + 1, 1, fun fuel positive => ?_⟩
      obtain ⟨fuel, rfl⟩ := Nat.exists_eq_succ_of_ne_zero (Nat.ne_of_gt positive)
      exact if_neg fun early => tick (sub_lt_one.mp early)
  | succ distance ih =>
      by_cases early : ticks read = startTick
      · obtain ⟨later, enough, all⟩ := ih (by rwa [← Nat.add_assoc, Nat.add_right_comm] at tick)
        refine ⟨later, enough + 1, fun fuel le => ?_⟩
        obtain ⟨fuel, rfl⟩ := Nat.exists_eq_succ_of_ne_zero (Nat.ne_zero_of_lt le)
        exact (if_pos (sub_lt_one.mpr early)).trans (all fuel (Nat.le_of_succ_le_succ le))
      · refine ⟨read + 1, 1, fun fuel positive => ?_⟩
        obtain ⟨fuel, rfl⟩ := Nat.exists_eq_succ_of_ne_zero (Nat.ne_of_gt positive)
        exact if_neg fun le => early (sub_lt_one.mp le)

/-- 10 ms are one tick. -/
theorem mtimeSleep_returns (clock : Clock) (read : Nat) :
    ∃ later, Returns (fun fuel => mtimeSleep clock.ticks 10 fuel read) later := by
  obtain ⟨later, behind, tick⟩ := clock.runs read
  obtain ⟨distance, rfl⟩ := Nat.exists_eq_add_of_le behind
  exact sleepFrom_returns tick

/-- `check_ide_error`, with what it prints for the value of the error register. -/
def checkIdeError (err : UInt8) : String :=
  if err &&& 0x80 ≠ 0 then "Bad block\n"
  else if err &&& 0x40 ≠ 0 then "Uncorrectable data\n"
  else if err &&& 0x20 ≠ 0 then "Media changed\n"
  else if err &&& 0x10 ≠ 0 then "ID mark not found\n"
  else if err &&& 0x08 ≠ 0 then "Media change request\n"
  else if err &&& 0x04 ≠ 0 then "Command aborted\n"
  else if err &&& 0x20 ≠ 0 then "Track 0 not found\n"
  else "No address mark\n"

/-- What `busy_wait` returns, the polls and the reads of `ticks` up to then, and what was
printed. -/
structure Waited where
  value : Bool
  polls : Nat
  read : Nat
  printed : String

section Wait

variable (statuses : Nat → UInt8) (err : UInt8)

/-- The loop of `busy_wait`. -/
def busyWaitFrom (ticks : Nat → BitVec 32) (fuel : Nat) :
    (rounds : Nat) → (timeLimit : UInt16) → (polls read : Nat) → Except Fault Waited
  | 0, _, _, _ => .error .diverge
  | rounds + 1, timeLimit, polls, read =>
      -- what is taken off is the truth value of `10 > 0`
      let timeLimit := timeLimit - if 10 > 0 then 1 else 0
      if timeLimit = 0 then .ok ⟨false, polls, read, ""⟩
      else
        let status := statuses polls
        if status &&& 0x80 ≠ 0 then do
          let read ← mtimeSleep ticks 10 fuel read
          busyWaitFrom ticks fuel rounds timeLimit (polls + 1) read
        else if status &&& 0x8 ≠ 0 then .ok ⟨true, polls + 1, read, ""⟩
        else if status &&& 0x1 ≠ 0 then .ok ⟨false, polls + 1, read, checkIdeError err⟩
        else busyWaitFrom ticks fuel rounds timeLimit (polls + 1) read

/-- `busy_wait`, with the values that the status register has as it is polled. -/
def busyWait (ticks : Nat → BitVec 32) (fuel : Nat) : Except Fault Waited :=
  busyWaitFrom statuses err ticks fuel (2 ^ 16) (30 * 1000) 0 0

/-- A status at which the wait is over. -/
def decides (status : UInt8) : Prop :=
    status &&& 0x80 = 0 ∧ (status &&& 0x8 ≠ 0 ∨ status &&& 0x1 ≠ 0)

instance (status : UInt8) : Decidable (decides status) := inferInstanceAs (Decidable (_ ∧ _))

/-- What the first of these statuses that decides says. -/
def verdict (polled : List UInt8) : Bool :=
  match polled.find? decides with
  | some status => status &&& 0x8 ≠ 0
  | none => false

/-- At most 3000 polls, and the verdict of these. -/
def HonoursLimit : Prop :=
  ∀ err (clock : Clock), ∃ waited, Returns (busyWait statuses err clock.ticks) waited ∧
    waited.polls ≤ 3000 ∧ waited.value = verdict ((List.range 3000).map statuses)

theorem countDown (left : Nat) :
    UInt16.ofNat (left + 1) - (if 10 > 0 then 1 else 0) = .ofNat left := by
  rw [if_pos (by decide), UInt16.ofNat_add]
  exact UInt16.add_sub_cancel ..

theorem ofNat_eq_zero_iff {left : Nat} (fits : left < 2 ^ 16) :
    UInt16.ofNat left = 0 ↔ left = 0 := by
  rw [← UInt16.toNat_inj, UInt16.toNat_ofNat_of_lt' fits]
  rfl

theorem verdict_cons {status : UInt8} (undecided : ¬ decides status) (polled : List UInt8) :
    verdict (status :: polled) = verdict polled := by
  rw [verdict, verdict, List.find?_cons_of_neg (by simpa using undecided)]

/-- The loop goes on until a status decides, or the limit is counted down by ones. -/
theorem busyWaitFrom_returns (clock : Clock) (left rounds : Nat) (enough : left < rounds)
    (fits : left < 2 ^ 16) (polls read : Nat) :
    ∃ waited, Returns (fun fuel =>
        busyWaitFrom statuses err clock.ticks fuel rounds (.ofNat (left + 1)) polls read) waited ∧
      waited.polls =
        polls + min (((List.range' polls left).map statuses).findIdx decides + 1) left ∧
      waited.value = verdict ((List.range' polls left).map statuses) := by
  induction left generalizing rounds polls read with
  | zero =>
      obtain ⟨rounds, rfl⟩ := Nat.exists_eq_succ_of_ne_zero (Nat.ne_zero_of_lt enough)
      refine ⟨⟨false, polls, read, ""⟩, returns_of_eq fun fuel => ?_, rfl, rfl⟩
      rw [busyWaitFrom, countDown]
      exact if_pos rfl
  | succ left ih =>
      obtain ⟨rounds, rfl⟩ := Nat.exists_eq_succ_of_ne_zero (Nat.ne_zero_of_lt enough)
      have more : UInt16.ofNat (left + 1) ≠ 0 := fun zero =>
        Nat.succ_ne_zero _ ((ofNat_eq_zero_iff fits).mp zero)
      -- a status that does not decide leaves the rest of the polls
      have undecided (status : ¬ decides (statuses polls)) (read : Nat) :
          ∃ waited, Returns (fun fuel =>
              busyWaitFrom statuses err clock.ticks fuel rounds (.ofNat (left + 1))
                (polls + 1) read) waited ∧
            waited.polls = polls +
              min (((List.range' polls (left + 1)).map statuses).findIdx decides + 1) (left + 1) ∧
            waited.value = verdict ((List.range' polls (left + 1)).map statuses) := by
        obtain ⟨waited, run, count, value⟩ := ih rounds (Nat.lt_of_succ_lt_succ enough)
          (Nat.lt_of_succ_lt fits) (polls + 1) read
        refine ⟨waited, run, ?_, ?_⟩
        · rw [count, List.range'_succ, List.map_cons, List.findIdx_cons, decide_eq_false status,
            cond_false]
          omega
        · rw [value, List.range'_succ, List.map_cons, verdict_cons status]
      have decided (status : decides (statuses polls)) :
          polls + 1 = polls +
            min (((List.range' polls (left + 1)).map statuses).findIdx decides + 1) (left + 1) ∧
          (verdict ((List.range' polls (left + 1)).map statuses) = true ↔
            statuses polls &&& 0x8 ≠ 0) := by
        rw [List.range'_succ, List.map_cons, List.findIdx_cons, decide_eq_true status,
          cond_true, verdict,
          List.find?_cons_of_pos (by simpa using status)]
        exact ⟨by omega, decide_eq_true_iff⟩
      have turn (fuel : Nat) :
          busyWaitFrom statuses err clock.ticks fuel (rounds + 1)
            (.ofNat (left + 1 + 1)) polls read =
            if statuses polls &&& 0x80 ≠ 0 then do
              let read ← mtimeSleep clock.ticks 10 fuel read
              busyWaitFrom statuses err clock.ticks fuel rounds (.ofNat (left + 1)) (polls + 1) read
            else if statuses polls &&& 0x8 ≠ 0 then .ok ⟨true, polls + 1, read, ""⟩
            else if statuses polls &&& 0x1 ≠ 0 then .ok ⟨false, polls + 1, read, checkIdeError err⟩
            else busyWaitFrom statuses err clock.ticks fuel rounds (.ofNat (left + 1))
              (polls + 1) read := by
        rw [busyWaitFrom, countDown]
        exact if_neg more
      by_cases busy : statuses polls &&& 0x80 ≠ 0
      · obtain ⟨later, slept⟩ := mtimeSleep_returns clock read
        obtain ⟨waited, run, count, value⟩ := undecided (fun status => busy status.1) later
        exact ⟨waited, (slept.bind run).congr fun fuel => (turn fuel).trans (if_pos busy),
          count, value⟩
      · have ready : statuses polls &&& 0x80 = 0 := not_ne_iff.mp busy
        by_cases data : statuses polls &&& 0x8 ≠ 0
        · obtain ⟨count, value⟩ := decided ⟨ready, .inl data⟩
          refine ⟨⟨true, polls + 1, read, ""⟩, returns_of_eq fun fuel => ?_, count, ?_⟩
          · rw [turn, if_neg busy, if_pos data]
          · exact (value.mpr data).symm
        · by_cases failed : statuses polls &&& 0x1 ≠ 0
          · obtain ⟨count, value⟩ := decided ⟨ready, .inr failed⟩
            refine ⟨⟨false, polls + 1, read, checkIdeError err⟩, returns_of_eq fun fuel => ?_,
              count, ?_⟩
            · rw [turn, if_neg busy, if_neg data, if_pos failed]
            · exact (Bool.eq_false_iff.mpr fun holds => data (value.mp holds)).symm
          · have neither : ¬ decides (statuses polls) := fun status => status.2.elim data failed
            obtain ⟨waited, run, count, value⟩ := undecided neither read
            refine ⟨waited, run.congr fun fuel => ?_, count, value⟩
            rw [turn, if_neg busy, if_neg data, if_neg failed]

/-- The polls up to one that decides, or all of them. -/
def pollsOf (polled : List UInt8) : Nat := min (polled.findIdx decides + 1) polled.length

section Polls

variable {first : List UInt8} (rest : List UInt8)

theorem pollsOf_decided (decided : ∃ status ∈ first, decides status) :
    pollsOf (first ++ rest) ≤ first.length ∧ verdict (first ++ rest) = verdict first := by
  have found : ∃ status ∈ first, decide (decides status) = true := by simpa using decided
  have index := List.findIdx_lt_length.mpr found
  constructor
  · rw [pollsOf, List.findIdx_append, if_pos index]
    exact Nat.le_trans (Nat.min_le_left ..) index
  · obtain ⟨status, first?⟩ := Option.isSome_iff_exists.mp (List.find?_isSome.mpr found)
    rw [verdict, verdict, List.find?_append, first?]
    rfl

theorem pollsOf_undecided (undecided : ¬ ∃ status ∈ first, decides status) :
    pollsOf (first ++ rest) = first.length + pollsOf rest := by
  have none : ¬ ∃ status ∈ first, decide (decides status) = true := by simpa using undecided
  rw [pollsOf, pollsOf, List.findIdx_append,
    if_neg fun index => none (List.findIdx_lt_length.mp index),
    List.length_append]
  omega

end Polls

theorem busyWait_returns (clock : Clock) :
    ∃ waited, Returns (busyWait statuses err clock.ticks) waited ∧
      waited.polls = pollsOf ((List.range 29999).map statuses) ∧
      waited.value = verdict ((List.range 29999).map statuses) := by
  obtain ⟨waited, run, count, value⟩ := busyWaitFrom_returns statuses err clock 29999 (2 ^ 16)
    (by decide) (by decide) 0 0
  rw [← List.range_eq_range'] at count value
  refine ⟨waited, run, ?_, value⟩
  rw [count, pollsOf, List.length_map, List.length_range, Nat.zero_add]

theorem range_statuses :
    (List.range 29999).map statuses =
      (List.range 3000).map statuses ++ (List.range' 3000 26999).map statuses := by
  have split : List.range' 0 3000 ++ List.range' 3000 26999 = List.range' 0 29999 :=
    List.range'_append_1
  rw [← List.map_append, List.range_eq_range', List.range_eq_range', split]

theorem decides_range (count : Nat) :
    (∃ status ∈ (List.range count).map statuses, decides status) ↔
      ∃ poll < count, decides (statuses poll) := by
  simp

/-- A clock that has moved on each time it is read. -/
def everyTick : Clock where
  ticks := BitVec.ofNat 32
  runs := by
    intro read
    refine ⟨read + 1, Nat.lt_succ_self read, fun same => ?_⟩
    have values := congrArg BitVec.toNat same
    rw [BitVec.toNat_ofNat, BitVec.toNat_ofNat] at values
    omega

theorem not_honoursLimit (undecided : ¬ ∃ poll < 3000, decides (statuses poll)) :
    ¬ HonoursLimit statuses := by
  rw [← decides_range] at undecided
  intro honours
  obtain ⟨waited, run, limit, -⟩ := honours 0 everyTick
  obtain ⟨waited', run', count, -⟩ := busyWait_returns statuses 0 everyTick
  rw [run.unique run', count, range_statuses, pollsOf_undecided _ undecided, pollsOf,
    List.length_map,
    List.length_map, List.length_range, List.length_range'] at limit
  omega

/-- The limit is honoured exactly where one of the first 3000 statuses decides. -/
theorem honoursLimit_iff : HonoursLimit statuses ↔ ∃ poll < 3000, decides (statuses poll) := by
  constructor
  · intro honours
    by_contra undecided
    exact not_honoursLimit statuses undecided honours
  · intro decided err clock
    rw [← decides_range] at decided
    obtain ⟨waited, run, count, value⟩ := busyWait_returns statuses err clock
    obtain ⟨limit, same⟩ := pollsOf_decided ((List.range' 3000 26999).map statuses) decided
    rw [range_statuses] at count value
    rw [List.length_map, List.length_range] at limit
    exact ⟨waited, run, count ▸ limit, value.trans same⟩

end Wait

/-- A disk that stays busy is polled ten times as often. -/
theorem not_honoursLimit_busy : ¬ HonoursLimit (fun _ => 0x80) ∧
    ∀ err (clock : Clock), ∃ waited, Returns (busyWait (fun _ => 0x80) err clock.ticks) waited ∧
      waited.polls = 29999 := by
  have busy : ¬ decides 0x80 := by decide
  constructor
  · exact not_honoursLimit _ fun ⟨_, _, status⟩ => busy status
  · intro err clock
    obtain ⟨waited, run, count, -⟩ := busyWait_returns (fun _ => 0x80) err clock
    refine ⟨waited, run, ?_⟩
    have undecided : ¬ ∃ status ∈ (List.range 29999).map fun _ => (0x80 : UInt8),
        decides status := by
      rw [decides_range]
      exact fun ⟨_, _, status⟩ => busy status
    have all := pollsOf_undecided [] undecided
    rw [List.append_nil, List.length_map, List.length_range] at all
    exact count.trans all

end Pumelo
