import Pumelo.Bitmap

/-!
# Searching a bitmap

When `bitmap_scan` finds what its callers ask for.  In each byte the scan looks at one
start of a run, the lowest clear bit, and it counts the bits from there on whether they
are inside the bitmap or not.  A byte is read before its index is compared with the
length, and the assertion behind the loop stops a scan that would return -1.

So the scan is sound, and complete, for the same bitmaps: those in which a run of clear
bits starts at the lowest clear bit of its byte.
-/

namespace Pumelo

open Foundation

/-- The `int` that a bit number is returned as. -/
def bitInt : Option Nat → Int
  | none => -1
  | some bitIdx => if bitIdx < 2 ^ 31 then bitIdx else bitIdx - 2 ^ 32

/-- What a caller of `bitmap_scan` gets. -/
def bitmapScanInt (mem : Bytes) (btmp : Bitmap) (cnt : Nat) : Except Fault Int :=
  (bitmapScan mem btmp cnt).map bitInt

/-- The bytes that the loop over full bytes reads, up to one that is not full or the one
behind the bitmap. -/
def skipReads (mem : Bytes) (btmp : Bitmap) (idxByte : Nat) : List Nat :=
  idxByte ::
    if mem (btmp.bitmapBits + idxByte) = 0xff ∧ idxByte < btmp.bitmapLen then
      skipReads mem btmp (idxByte + 1)
    else []
termination_by btmp.bitmapLen - idxByte

/-- The bytes that the counting loop reads. -/
def countReads (mem : Bytes) (btmp : Bitmap) (nextBit : Nat) : (count : Nat) → List Nat
  | 0 => []
  | count + 1 =>
      nextBit / 8 ::
        if bitmapScanTest mem btmp nextBit ≠ 0 then []
        else countReads mem btmp ((nextBit + 1) % 2 ^ 32) count

/-- The bytes that `bitmap_scan` reads, by their indices. -/
def scanReads (mem : Bytes) (btmp : Bitmap) (cnt : Nat) (start : Nat) : List Nat :=
  let idxByte := skipFull mem btmp start
  skipReads mem btmp start ++
    if inside : idxByte < btmp.bitmapLen then
      let bitIdxStart := idxByte * 8 + firstClear (mem (btmp.bitmapBits + idxByte)) 0
      if cnt = 1 then [idxByte]
      else
        let count := (cnt + 2 ^ 32 - 1) % 2 ^ 32
        let nextBit := (bitIdxStart + 1) % 2 ^ 32
        idxByte :: countReads mem btmp nextBit count ++
          if countClear mem btmp nextBit count = 0 then []
          else scanReads mem btmp cnt (idxByte + 1)
    else []
termination_by btmp.bitmapLen - start
decreasing_by
  have := le_skipFull mem btmp start
  omega

/-- There are `cnt` clear bits from `start` on, inside the bitmap. -/
def ClearRun (mem : Bytes) (btmp : Bitmap) (cnt start : Nat) : Prop :=
  start + cnt ≤ 8 * btmp.bitmapLen ∧ ∀ offset, offset < cnt → btmp.bit mem (start + offset) = false

/-- A run that starts at the lowest clear bit of its byte, with a number that is an
`int`. -/
structure LowestRun (mem : Bytes) (btmp : Bitmap) (cnt start : Nat) : Prop where
  run : ClearRun mem btmp cnt start
  small : start < 2 ^ 31
  lowest : ∀ earlier, earlier / 8 = start / 8 → earlier < start → btmp.bit mem earlier = true

/-- What is returned, unless it is -1, is a run, and only bytes of the bitmap are read. -/
structure ScanSound (mem : Bytes) (btmp : Bitmap) (cnt : Nat) : Prop where
  run : ∀ i, bitmapScanInt mem btmp cnt = .ok i → i ≠ -1 →
    ∃ start : Nat, i = start ∧ ClearRun mem btmp cnt start
  reads : ∀ idx ∈ scanReads mem btmp cnt 0, idx < btmp.bitmapLen

/-- A run is returned if there is one, and -1 otherwise. -/
structure ScanComplete (mem : Bytes) (btmp : Bitmap) (cnt : Nat) : Prop where
  found : (∃ start, ClearRun mem btmp cnt start) →
    ∃ start : Nat, bitmapScanInt mem btmp cnt = .ok start ∧ ClearRun mem btmp cnt start
  missing : (¬∃ start, ClearRun mem btmp cnt start) → bitmapScanInt mem btmp cnt = .ok (-1)

section

variable {mem : Bytes} {btmp : Bitmap} {cnt start : Nat}

/-- The loop over full bytes reads up to the byte that it stops at. -/
theorem mem_skipReads {idxByte query : Nat} :
    query ∈ skipReads mem btmp idxByte ↔ idxByte ≤ query ∧ query ≤ skipFull mem btmp idxByte := by
  fun_induction skipFull mem btmp idxByte with
  | case1 idxByte full ih =>
      have later := le_skipFull mem btmp (idxByte + 1)
      rw [skipReads, if_pos full, List.mem_cons, ih]
      omega
  | case2 idxByte found =>
      rw [skipReads, if_neg found, List.mem_singleton]
      omega

/-- The counting loop reads the bytes of the bits that it counts. -/
theorem lt_of_mem_countReads {bound nextBit count query : Nat} (fits : nextBit + count ≤ 8 * bound)
    (small : 8 * bound < 2 ^ 32) (read : query ∈ countReads mem btmp nextBit count) :
    query < bound := by
  induction count generalizing nextBit with
  | zero => cases read
  | succ count ih =>
      rw [countReads, List.mem_cons] at read
      rcases read with rfl | read
      · omega
      · split at read
        · cases read
        · rw [Nat.mod_eq_of_lt (by omega)] at read
          exact ih (by omega) read

theorem lt_of_mem_countReads_candidate {bound candidate query : Nat} (positive : 1 ≤ cnt)
    (fits : candidate + cnt ≤ 8 * bound) (small : 8 * bound < 2 ^ 32)
    (read : query ∈
      countReads mem btmp ((candidate + 1) % 2 ^ 32) ((cnt + 2 ^ 32 - 1) % 2 ^ 32)) :
    query < bound :=
  lt_of_mem_countReads (by omega) small read

/-- A scan that stops at the assertion has read the byte behind the bitmap. -/
theorem bitmapLen_mem_scanReads {fault : Fault} (inside : start ≤ btmp.bitmapLen)
    (run : bitmapScanFrom mem btmp cnt start = .error fault) :
    btmp.bitmapLen ∈ scanReads mem btmp cnt start := by
  fun_induction bitmapScanFrom mem btmp cnt start with
  | case1 | case2 | case3 => cases run
  | case4 start idxByte less notEnd idxBit found notOne count nextBit notCounted ih =>
      have later := ih (by omega) run
      rw [scanReads]
      dsimp only
      rw [dif_pos less, if_neg notOne, if_neg notCounted]
      simp only [List.mem_append, List.mem_cons]
      exact .inr (.inr later)
  | case5 start idxByte outside =>
      have stop := skipFull_le mem btmp inside
      have whole : btmp.bitmapLen ∈ skipReads mem btmp start := mem_skipReads.mpr ⟨inside, by omega⟩
      rw [scanReads]
      exact List.mem_append_left _ whole

/-- The counting loop stops at the latest at a bit that is set. -/
theorem le_of_mem_countReads {last nextBit count query : Nat} (set : btmp.bit mem last = true)
    (before : nextBit ≤ last) (read : query ∈ countReads mem btmp nextBit count) :
    query ≤ last / 8 := by
  induction count generalizing nextBit with
  | zero => cases read
  | succ count ih =>
      rw [countReads, List.mem_cons] at read
      rcases read with rfl | read
      · exact Nat.div_le_div_right before
      · split at read
        · cases read
        · next clear =>
            have different : nextBit ≠ last := by
              rintro rfl
              exact clear (bitmapScanTest_ne_zero.mpr set)
            exact ih ((Nat.mod_le _ _).trans (by omega)) read

/-- In a bitmap whose last bit is set, a scan that does not stop reads no byte outside. -/
theorem lt_of_mem_scanReads {result : Option Nat} {query : Nat}
    (small : 8 * btmp.bitmapLen ≤ 2 ^ 32) (last : btmp.bit mem (8 * btmp.bitmapLen - 1) = true)
    (run : bitmapScanFrom mem btmp cnt start = .ok result)
    (read : query ∈ scanReads mem btmp cnt start) : query < btmp.bitmapLen := by
  have skipped : ∀ {start}, skipFull mem btmp start < btmp.bitmapLen →
      query ∈ skipReads mem btmp start → query < btmp.bitmapLen := by
    intro start less read
    exact Nat.lt_of_le_of_lt (mem_skipReads.mp read).2 less
  -- the candidate is clear, so it is not the last bit and the next one is inside
  have counted : ∀ {start count}, skipFull mem btmp start < btmp.bitmapLen →
      query ∈ countReads mem btmp ((skipFull mem btmp start * 8 +
        firstClear (mem (btmp.bitmapBits + skipFull mem btmp start)) 0 + 1) % 2 ^ 32) count →
      query < btmp.bitmapLen := by
    intro start count less read
    obtain ⟨bitLt, clear, -⟩ := candidate_spec rfl rfl less
    have different : skipFull mem btmp start * 8 +
        firstClear (mem (btmp.bitmapBits + skipFull mem btmp start)) 0 ≠
        8 * btmp.bitmapLen - 1 := by
      intro equal
      rw [equal, last] at clear
      cases clear
    have before := le_of_mem_countReads last ((Nat.mod_le _ (2 ^ 32)).trans (by omega)) read
    omega
  fun_induction bitmapScanFrom mem btmp cnt start with
  | case1 start idxByte less atEnd => omega
  | case2 start idxByte less notEnd idxBit candidate isOne =>
      rw [scanReads] at read
      dsimp only at read
      rw [dif_pos less, if_pos isOne, List.mem_append, List.mem_singleton] at read
      exact read.elim (skipped less) fun same => same ▸ less
  | case3 start idxByte less notEnd idxBit candidate notOne count nextBit found =>
      rw [scanReads] at read
      dsimp only at read
      rw [dif_pos less, if_neg notOne, if_pos found, List.append_nil, List.mem_append,
        List.mem_cons] at read
      rcases read with read | rfl | read
      · exact skipped less read
      · exact less
      · exact counted less read
  | case4 start idxByte less notEnd idxBit candidate notOne count nextBit notFound ih =>
      rw [scanReads] at read
      dsimp only at read
      rw [dif_pos less, if_neg notOne, if_neg notFound, List.mem_append, List.mem_append,
        List.mem_cons] at read
      rcases read with read | (rfl | read) | read
      · exact skipped less read
      · exact less
      · exact counted less read
      · exact ih run read
  | case5 => cases run

/-! ## What the scan finds -/

theorem ClearRun.bit_start (run : ClearRun mem btmp cnt start) (positive : 1 ≤ cnt) :
    btmp.bit mem start = false :=
  run.2 0 positive

/-- The count from the start of a run comes to its end. -/
theorem ClearRun.counted (run : ClearRun mem btmp cnt start) (positive : 1 ≤ cnt)
    (small : 8 * btmp.bitmapLen < 2 ^ 32) :
    countClear mem btmp ((start + 1) % 2 ^ 32) ((cnt + 2 ^ 32 - 1) % 2 ^ 32) = 0 := by
  obtain ⟨inside, clear⟩ := run
  refine (countClear_eq_zero (Nat.mod_lt _ (by decide))).mpr fun offset offsetLt => ?_
  have later := clear (offset + 1) (by omega)
  rwa [show ((start + 1) % 2 ^ 32 + offset) % 2 ^ 32 = start + (offset + 1) by omega]

/-- A scan returns the lowest clear bit of a byte. -/
theorem lowest_of_bitmapScanFrom {found : Nat}
    (run : bitmapScanFrom mem btmp cnt start = .ok (some found)) :
    ∀ earlier, earlier / 8 = found / 8 → earlier < found → btmp.bit mem earlier = true := by
  fun_induction bitmapScanFrom mem btmp cnt start with
  | case1 | case5 => cases run
  | case2 start idxByte less notEnd idxBit candidate isOne =>
      obtain ⟨small, -, full⟩ := candidate_spec rfl rfl less
      have later := le_skipFull mem btmp start
      have same : candidate = found := by simpa using run
      subst same
      exact fun earlier sameByte before => full earlier (by omega) before
  | case3 start idxByte less notEnd idxBit candidate notOne count nextBit counted =>
      obtain ⟨small, -, full⟩ := candidate_spec rfl rfl less
      have later := le_skipFull mem btmp start
      have same : candidate = found := by simpa using run
      subst same
      exact fun earlier sameByte before => full earlier (by omega) before
  | case4 start idxByte less notEnd idxBit candidate notOne count nextBit notCounted ih =>
      exact ih run

/-- The scan looks at no bit behind a clear one before it looks at the lowest of that
byte. -/
theorem candidate_le {target : Nat} (less : skipFull mem btmp start < btmp.bitmapLen)
    (before : start ≤ target / 8) (clear : btmp.bit mem target = false) :
    skipFull mem btmp start * 8 +
      firstClear (mem (btmp.bitmapBits + skipFull mem btmp start)) 0 ≤ target := by
  by_contra beyond
  have set := (candidate_spec rfl rfl less).2.2 target (by omega) (by omega)
  rw [clear] at set
  cases set

/-- A scan that starts at or before a run that it looks at returns this run or an earlier
one, and reads no byte behind the run. -/
theorem LowestRun.returns {target : Nat} (lowest : LowestRun mem btmp cnt target)
    (positive : 1 ≤ cnt) (small : 8 * btmp.bitmapLen < 2 ^ 32) (before : start ≤ target / 8) :
    (∃ found, found ≤ target ∧ bitmapScanFrom mem btmp cnt start = .ok (some found)) ∧
      ∀ idx ∈ scanReads mem btmp cnt start, idx < btmp.bitmapLen := by
  obtain ⟨inside, clear⟩ := lowest.run
  have first := lowest.run.bit_start positive
  fun_induction bitmapScanFrom mem btmp cnt start with
  | case1 start idxByte less atEnd => omega
  | case2 start idxByte less notEnd idxBit candidate isOne =>
      refine ⟨⟨candidate, candidate_le less before first, rfl⟩, fun idx read => ?_⟩
      rw [scanReads] at read
      dsimp only at read
      rw [dif_pos less, if_pos isOne, List.mem_append, List.mem_singleton, mem_skipReads] at read
      omega
  | case3 start idxByte less notEnd idxBit candidate notOne count nextBit counted =>
      have candidateLe : candidate ≤ target := candidate_le less before first
      have fits := Nat.le_trans (Nat.add_le_add_right candidateLe cnt) inside
      refine ⟨⟨candidate, candidateLe, rfl⟩, fun idx read => ?_⟩
      rw [scanReads] at read
      dsimp only at read
      rw [dif_pos less, if_neg notOne, if_pos counted, List.append_nil, List.mem_append,
        List.mem_cons, mem_skipReads] at read
      rcases read with skipped | rfl | countRead
      · omega
      · exact less
      · exact lt_of_mem_countReads_candidate positive fits small countRead
  | case4 start idxByte less notEnd idxBit candidate notOne count nextBit notCounted ih =>
      obtain ⟨oddLt, candidateClear, -⟩ := candidate_spec rfl rfl less
      have candidateLe : candidate ≤ target := candidate_le less before first
      have fits := Nat.le_trans (Nat.add_le_add_right candidateLe cnt) inside
      -- the run itself passes the count, and no other start in its byte is looked at
      have other : candidate ≠ target := by
        intro same
        have counted := lowest.run.counted positive small
        rw [← same] at counted
        exact notCounted counted
      have laterByte : idxByte + 1 ≤ target / 8 := by
        by_contra sameByte
        have set := lowest.lowest candidate (by omega) (by omega)
        rw [show btmp.bit mem candidate = false from candidateClear] at set
        cases set
      obtain ⟨returns, reads⟩ := ih laterByte
      refine ⟨returns, fun idx read => ?_⟩
      rw [scanReads] at read
      dsimp only at read
      rw [dif_pos less, if_neg notOne, if_neg notCounted, List.mem_append, List.mem_append,
        List.mem_cons, mem_skipReads] at read
      rcases read with skipped | (rfl | countRead) | laterRead
      · omega
      · exact less
      · exact lt_of_mem_countReads_candidate positive fits small countRead
      · exact reads idx laterRead
  | case5 start idxByte outside =>
      have set := bit_of_full (full_of_lt_skipFull mem btmp before (by omega))
      rw [first] at set
      cases set

/-- A bit that is returned has its number, unless the number is no `int`. -/
theorem bitInt_of_lt {bitIdx : Nat} (small : bitIdx < 2 ^ 31) : bitInt (some bitIdx) = bitIdx :=
  if_pos small

theorem bitInt_ne_minus_one {bitIdx : Nat} (small : bitIdx < 2 ^ 32 - 1) :
    bitInt (some bitIdx) ≠ -1 := by
  rw [bitInt]
  split <;> omega

/-- What the scan returns where there is a run that it looks at. -/
theorem LowestRun.bitmapScan {target : Nat} (lowest : LowestRun mem btmp cnt target)
    (positive : 1 ≤ cnt) (cntLt : cnt < 2 ^ 32) (small : 8 * btmp.bitmapLen < 2 ^ 32) :
    (∃ found : Nat, bitmapScanInt mem btmp cnt = .ok found ∧ ClearRun mem btmp cnt found) ∧
      ∀ idx ∈ scanReads mem btmp cnt 0, idx < btmp.bitmapLen := by
  obtain ⟨⟨found, foundLe, run⟩, reads⟩ := lowest.returns positive small (Nat.zero_le _)
  have inside := lowest.run.1
  have number := lowest.small
  obtain ⟨_, equal, -, clear⟩ := bitmapScanFrom_ok positive cntLt (by omega) run
  cases equal
  refine ⟨⟨found, ?_, by omega, fun offset offsetLt => ?_⟩, reads⟩
  · rw [bitmapScanInt, Pumelo.bitmapScan, run]
    exact congrArg Except.ok (bitInt_of_lt (by omega))
  · have bit := clear offset offsetLt
    rwa [Nat.mod_eq_of_lt (by omega)] at bit

/-- A run that is returned is one that the scan looks at. -/
theorem lowestRun_of_bitmapScanInt {found : Nat} (positive : 1 ≤ cnt) (cntLt : cnt < 2 ^ 32)
    (small : 8 * btmp.bitmapLen < 2 ^ 32) (scan : bitmapScanInt mem btmp cnt = .ok found)
    (run : ClearRun mem btmp cnt found) : LowestRun mem btmp cnt found := by
  rw [bitmapScanInt] at scan
  cases result : Pumelo.bitmapScan mem btmp cnt with
  | error fault =>
      rw [result] at scan
      cases scan
  | ok returned =>
      obtain ⟨bitIdx, rfl, bitLt, -⟩ := bitmapScan_ok positive cntLt (by omega) result
      rw [result] at scan
      have equal : bitInt (some bitIdx) = found := by simpa [Except.map] using scan
      rw [bitInt] at equal
      split at equal
      · next number =>
          have same : bitIdx = found := by omega
          subst same
          exact ⟨run, number, lowest_of_bitmapScanFrom result⟩
      · omega

/-- The scan never returns -1. -/
theorem bitmapScanInt_ne_minus_one (positive : 1 ≤ cnt) (cntLt : cnt < 2 ^ 32)
    (small : 8 * btmp.bitmapLen < 2 ^ 32) : bitmapScanInt mem btmp cnt ≠ .ok (-1) := by
  intro scan
  rw [bitmapScanInt] at scan
  cases result : Pumelo.bitmapScan mem btmp cnt with
  | error fault =>
      rw [result] at scan
      cases scan
  | ok returned =>
      obtain ⟨bitIdx, rfl, bitLt, -⟩ := bitmapScan_ok positive cntLt (by omega) result
      rw [result] at scan
      have equal : bitInt (some bitIdx) = -1 := by simpa [Except.map] using scan
      exact bitInt_ne_minus_one (by omega) equal

/-- A sound scan has a run to look at: without one it reads behind the bitmap, before its
assertion fails. -/
theorem ScanSound.lowestRun (sound : ScanSound mem btmp cnt) (positive : 1 ≤ cnt)
    (cntLt : cnt < 2 ^ 32) (small : 8 * btmp.bitmapLen < 2 ^ 32) :
    ∃ start, LowestRun mem btmp cnt start := by
  cases result : Pumelo.bitmapScan mem btmp cnt with
  | error fault =>
      have read := sound.reads _ (bitmapLen_mem_scanReads (Nat.zero_le _) result)
      exact absurd read (Nat.lt_irrefl _)
  | ok returned =>
      obtain ⟨bitIdx, rfl, bitLt, -⟩ := bitmapScan_ok positive cntLt (by omega) result
      have scan : bitmapScanInt mem btmp cnt = .ok (bitInt (some bitIdx)) := by
        rw [bitmapScanInt, result]
        rfl
      obtain ⟨found, equal, run⟩ := sound.run _ scan (bitInt_ne_minus_one (by omega))
      rw [equal] at scan
      exact ⟨found, lowestRun_of_bitmapScanInt positive cntLt small scan run⟩

/-- A complete scan has a run to look at: it never returns -1. -/
theorem ScanComplete.lowestRun (complete : ScanComplete mem btmp cnt) (positive : 1 ≤ cnt)
    (cntLt : cnt < 2 ^ 32) (small : 8 * btmp.bitmapLen < 2 ^ 32) :
    ∃ start, LowestRun mem btmp cnt start := by
  by_cases someRun : ∃ start, ClearRun mem btmp cnt start
  · obtain ⟨found, scan, run⟩ := complete.found someRun
    exact ⟨found, lowestRun_of_bitmapScanInt positive cntLt small scan run⟩
  · exact absurd (complete.missing someRun) (bitmapScanInt_ne_minus_one positive cntLt small)

/-- The scan is sound when it has a run to look at. -/
theorem scanSound_iff (positive : 1 ≤ cnt) (cntLt : cnt < 2 ^ 32)
    (small : 8 * btmp.bitmapLen < 2 ^ 32) :
    ScanSound mem btmp cnt ↔ ∃ start, LowestRun mem btmp cnt start := by
  refine ⟨fun sound => sound.lowestRun positive cntLt small, fun ⟨start, lowest⟩ => ?_⟩
  obtain ⟨⟨found, scan, run⟩, reads⟩ := lowest.bitmapScan positive cntLt small
  refine ⟨fun i returned _ => ⟨found, ?_, run⟩, reads⟩
  rw [scan] at returned
  cases returned
  rfl

/-- The scan is complete when it has a run to look at. -/
theorem scanComplete_iff (positive : 1 ≤ cnt) (cntLt : cnt < 2 ^ 32)
    (small : 8 * btmp.bitmapLen < 2 ^ 32) :
    ScanComplete mem btmp cnt ↔ ∃ start, LowestRun mem btmp cnt start := by
  refine ⟨fun complete => complete.lowestRun positive cntLt small, fun ⟨start, lowest⟩ => ?_⟩
  exact ⟨fun _ => (lowest.bitmapScan positive cntLt small).1,
    fun missing => absurd ⟨start, lowest.run⟩ missing⟩

end

/-- A bitmap of one byte at address 0, with 0 in the bytes behind it. -/
def oneByte (byte : UInt8) : Bytes := fun query => if query = 0 then byte else 0

/-- A run of two bits at the end of the first byte that is not full. -/
theorem lowestRun_oneByte : LowestRun (oneByte 0x3f) ⟨1, 0⟩ 2 6 := by
  refine ⟨⟨by decide, by decide⟩, by decide, fun earlier sameByte before => ?_⟩
  clear sameByte
  decide +revert

theorem scanSound_oneByte : ScanSound (oneByte 0x3f) ⟨1, 0⟩ 2 :=
  (scanSound_iff (by decide) (by decide) (by decide)).mpr ⟨6, lowestRun_oneByte⟩

theorem scanComplete_oneByte : ScanComplete (oneByte 0x3f) ⟨1, 0⟩ 2 :=
  (scanComplete_iff (by decide) (by decide) (by decide)).mpr ⟨6, lowestRun_oneByte⟩

/-- With the last bit clear, two bits are found of which one is behind the bitmap. -/
theorem not_scanSound_oneByte : ¬ScanSound (oneByte 0x7f) ⟨1, 0⟩ 2 := by
  intro sound
  obtain ⟨start, lowest⟩ := sound.lowestRun (by decide) (by decide) (by decide)
  have inside : start + 2 ≤ 8 := lowest.run.1
  have startLt : start < 7 := by omega
  have clear := lowest.run.bit_start (by decide)
  clear lowest inside
  revert start
  decide

/-- With bit 0 clear and bit 1 set, the two clear bits behind them are not found. -/
theorem not_scanComplete_oneByte :
    ClearRun (oneByte 0xf2) ⟨1, 0⟩ 2 2 ∧ ¬ScanComplete (oneByte 0xf2) ⟨1, 0⟩ 2 := by
  refine ⟨⟨by decide, by decide⟩, fun complete => ?_⟩
  obtain ⟨start, lowest⟩ := complete.lowestRun (by decide) (by decide) (by decide)
  have inside : start + 2 ≤ 8 := lowest.run.1
  have bound : start < 7 := by omega
  have first := lowest.run.2 0 (by decide)
  have second := lowest.run.2 1 (by decide)
  have set := lowest.lowest 0
  clear lowest inside
  revert start
  decide

end Pumelo
