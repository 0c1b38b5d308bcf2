import Pumelo.Format
import Pumelo.IdeInit

/-!
# Formatting the partitions

The search of `filesys_init` for partitions.  The index that walks the two arrays of a
disk is set to 0 once, in front of the loop over the channels, so that the slave disk of
the first channel has its partitions formatted and no other disk has.
-/

namespace Pumelo

open Foundation

/-- Memory, the slave disk of each channel, and the calls of `partition_format`: the disk
structure and the partition that they are given. -/
structure FormatState where
  mem : Bytes
  disks : Nat → Bytes
  formatted : List (Nat × Nat)

/-- `*part` -/
def partitionAt (mem : Bytes) (part : Nat) : Partition where
  startLba := .ofNat (mem.read32 part)
  secCnt := .ofNat (mem.read32 (part + 4))
  name := .ofList ((cString mem (part + 20) 8).map fun byte => .ofNat byte.toNat)

section

-- for each partition, whether `partition_format` finds memory, and what its stack holds
variable (room : Nat → Bool) (stack : Nat → SuperBlock) (channels : Nat)

/-- What is done for a partition with sectors. -/
def formatPart (channelNo hd part : Nat) (s : FormatState) : Except Fault FormatState := do
  let p := partitionAt s.mem part
  let _ ← ideRead (s.disks channelNo) (p.startLba + 1).toNat (fun _ => 0) 1
  let (p, disk) ← partitionFormat (room part) (stack part) (s.disks channelNo) p
  return {
    mem := s.mem.write32 (part + 4) p.secCnt.toNat
    disks := Function.update s.disks channelNo disk
    formatted := s.formatted ++ [(hd, part)] }

/-- `while (part_idx < 12)`, with the value of `part_idx` behind it. -/
def formatParts (channelNo hd partIdx part : Nat) (s : FormatState) :
    Except Fault (Nat × FormatState) :=
  if partIdx < 12 then do
    let part := if partIdx = 4 then logicParts hd 0 else part
    let s ←
      if s.mem.read32 (part + 4) ≠ 0 then formatPart room stack channelNo hd part s else pure s
    formatParts channelNo hd (partIdx + 1) (part + 64) s
  else .ok (partIdx, s)
termination_by 12 - partIdx

/-- `while (dev_no < 2)`, with the value of `part_idx` behind it. -/
def formatDevices (channelNo devNo partIdx : Nat) (s : FormatState) :
    Except Fault (Nat × FormatState) :=
  if devNo < 2 then
    if devNo = 0 then formatDevices channelNo (devNo + 1) partIdx s
    else do
      let hd := deviceAt (channelAt channels channelNo) devNo
      let (partIdx, s) ← formatParts room stack channelNo hd partIdx (primParts hd 0) s
      formatDevices channelNo (devNo + 1) partIdx s
  else .ok (partIdx, s)
termination_by 2 - devNo

/-- `while (channel_no < channel_cnt)`, with `left` channels to come. -/
def formatChannels : (left channelNo partIdx : Nat) → FormatState → Except Fault FormatState
  | 0, _, _, s => .ok s
  | left + 1, channelNo, partIdx, s => do
      let (partIdx, s) ← formatDevices room stack channels channelNo 0 partIdx s
      formatChannels left (channelNo + 1) partIdx s

/-- `filesys_init` up to where it mounts a partition; `sbRoom` says whether it finds memory
for its own buffer. -/
def filesysInit (sbRoom : Bool) (channelCnt : Nat) (mem : Bytes) (disks : Nat → Bytes) :
    Except Fault FormatState := do
  let _ ← sysMallocOrPanic sbRoom
  formatChannels room stack channels channelCnt 0 0 ⟨mem, disks, []⟩

end

/-- The entries of the two arrays, which follow each other. -/
def entryAt (hd index : Nat) : Nat := hd + 16 + 64 * index

/-- The entry describes a partition. -/
def Filled (mem : Bytes) (part : Nat) : Prop := mem.read32 (part + 4) ≠ 0

instance (mem : Bytes) (part : Nat) : Decidable (Filled mem part) :=
  inferInstanceAs (Decidable (_ ≠ _))

/-- The partition can be formatted: there is memory, and its sectors are on the disk. -/
def Formattable (room : Nat → Bool) (mem : Bytes) (part : Nat) : Prop :=
  room part = true ∧ ((partitionAt mem part).startLba + 1).toNat + 611 ≤ maxLba

/-- The filled entries from an index on. -/
def filledFrom (mem : Bytes) (hd partIdx : Nat) : List Nat :=
  ((List.range' partIdx (12 - partIdx)).map (entryAt hd)).filter fun part => Filled mem part

section

variable {room : Nat → Bool} {stack : Nat → SuperBlock} {channels channelNo hd partIdx part : Nat}
  {mem mem' : Bytes} {s s' : FormatState}

/-- What the call for an entry does. -/
theorem formatPart_eq_ok (run : formatPart room stack channelNo hd part s = .ok s') :
    Formattable room s.mem part ∧ s'.formatted = s.formatted ++ [(hd, part)] ∧
      ∀ query, query < part + 4 ∨ part + 8 ≤ query → s'.mem query = s.mem query := by
  rw [formatPart] at run
  obtain ⟨sector, -, run⟩ := bind_eq_ok.mp run
  obtain ⟨⟨p, disk⟩, format, run⟩ := bind_eq_ok.mp run
  cases run
  exact ⟨partitionFormat_returns_iff.mp ⟨_, format⟩, rfl, fun query outside =>
    Bytes.write32_of_outside _ _ outside⟩

theorem formatPart_of_formattable (formattable : Formattable room s.mem part) :
    ∃ s', formatPart room stack channelNo hd part s = .ok s' := by
  obtain ⟨formatted, format⟩ : ∃ formatted, partitionFormat (room part) (stack part)
      (s.disks channelNo) (partitionAt s.mem part) = .ok formatted :=
    partitionFormat_returns_iff.mpr formattable
  have inside := formattable.2
  rw [formatPart, bind_ok (ideRead_of_le (by decide) (by omega)), bind_ok format]
  exact ⟨_, rfl⟩

theorem mem_filledFrom :
    part ∈ filledFrom mem hd partIdx ↔
      ∃ index, partIdx ≤ index ∧ index < 12 ∧ part = entryAt hd index ∧ Filled mem part := by
  rw [filledFrom, List.mem_filter, List.mem_map, decide_eq_true_iff]
  constructor
  · rintro ⟨⟨index, member, rfl⟩, filled⟩
    rw [List.mem_range'_1] at member
    exact ⟨index, member.1, by omega, rfl, filled⟩
  · rintro ⟨index, lower, upper, rfl, filled⟩
    exact ⟨⟨index, List.mem_range'_1.mpr ⟨lower, by omega⟩, rfl⟩, filled⟩

/-- The filled entries from an index on are the one at the index and those behind. -/
theorem filledFrom_eq (mem : Bytes) (hd : Nat) (inside : partIdx < 12) :
    filledFrom mem hd partIdx =
      (if Filled mem (entryAt hd partIdx) then [entryAt hd partIdx] else []) ++
        filledFrom mem hd (partIdx + 1) := by
  have count : 12 - partIdx = (12 - (partIdx + 1)) + 1 := by omega
  rw [filledFrom, filledFrom, count, List.range'_succ, List.map_cons, List.filter_cons]
  by_cases filled : Filled mem (entryAt hd partIdx)
  · rw [if_pos (decide_eq_true filled), if_pos filled]
    rfl
  · rw [if_neg (by simpa using filled), if_neg filled]
    rfl

/-- The entries from an index on are the same in two memories. -/
def SameFrom (hd partIdx : Nat) (mem mem' : Bytes) : Prop :=
  ∀ query, entryAt hd partIdx ≤ query → mem' query = mem query

/-- The fields of the entries depend on the bytes from the first of them on. -/
theorem SameFrom.read32 (same : SameFrom hd partIdx mem mem') {index : Nat}
    (lower : partIdx ≤ index)
    (offset : Nat) :
    mem'.read32 (entryAt hd index + offset) = mem.read32 (entryAt hd index + offset) := by
  refine Bytes.read32_congr fun query above _ => same query ?_
  rw [entryAt] at above ⊢
  omega

theorem SameFrom.filledFrom (same : SameFrom hd partIdx mem mem') :
    filledFrom mem' hd partIdx = Pumelo.filledFrom mem hd partIdx := by
  rw [Pumelo.filledFrom, Pumelo.filledFrom]
  refine List.filter_congr fun part member => decide_eq_decide.mpr ?_
  obtain ⟨index, inRange, rfl⟩ := List.mem_map.mp member
  rw [List.mem_range'_1] at inRange
  rw [Filled, Filled, same.read32 inRange.1]

theorem SameFrom.formattable (same : SameFrom hd partIdx mem mem')
    (member : part ∈ Pumelo.filledFrom mem hd partIdx) :
    Formattable room mem' part ↔ Formattable room mem part := by
  obtain ⟨index, lower, -, rfl, -⟩ := mem_filledFrom.mp member
  have first := same.read32 lower 0
  rw [Nat.add_zero] at first
  simp only [Formattable, partitionAt, first]

/-- A call for an entry leaves the entries behind it alone. -/
theorem formatPart_sameFrom
    (run : formatPart room stack channelNo hd (entryAt hd partIdx) s = .ok s') :
    SameFrom hd (partIdx + 1) s.mem s'.mem := fun query behind =>
  (formatPart_eq_ok run).2.2 query (.inr (by rw [entryAt] at behind ⊢; omega))

/-- What is done for the entry at an index. -/
def formatEntry (room : Nat → Bool) (stack : Nat → SuperBlock) (channelNo hd partIdx : Nat)
    (s : FormatState) : Except Fault FormatState :=
  if Filled s.mem (entryAt hd partIdx) then
    formatPart room stack channelNo hd (entryAt hd partIdx) s
  else .ok s

/-- The pointer is at the entry of the index, also where it is set anew. -/
theorem formatParts_succ (inside : partIdx < 12) :
    formatParts room stack channelNo hd partIdx (entryAt hd partIdx) s =
      formatEntry room stack channelNo hd partIdx s >>=
        formatParts room stack channelNo hd (partIdx + 1) (entryAt hd (partIdx + 1)) := by
  have place : (if partIdx = 4 then logicParts hd 0 else entryAt hd partIdx) =
      entryAt hd partIdx := by
    split
    · next middle =>
        rw [middle]
        rfl
    · rfl
  have next : entryAt hd partIdx + 64 = entryAt hd (partIdx + 1) := by
    rw [entryAt, entryAt]
    omega
  rw [formatParts, if_pos inside]
  dsimp only
  rw [place, next, formatEntry]
  by_cases filled : Filled s.mem (entryAt hd partIdx)
  · rw [if_pos filled, if_pos (show s.mem.read32 (entryAt hd partIdx + 4) ≠ 0 from filled)]
  · rw [if_neg filled, if_neg (show ¬s.mem.read32 (entryAt hd partIdx + 4) ≠ 0 from filled)]
    rfl

/-- The walk from an index on formats the filled entries, each of which can be. -/
theorem formatParts_eq_ok {last : Nat} (inside : partIdx ≤ 12)
    (run : formatParts room stack channelNo hd partIdx (entryAt hd partIdx) s = .ok (last, s')) :
    last = 12 ∧ s'.formatted = s.formatted ++ (filledFrom s.mem hd partIdx).map (hd, ·) ∧
      ∀ part ∈ filledFrom s.mem hd partIdx, Formattable room s.mem part := by
  induction left : 12 - partIdx generalizing partIdx s with
  | zero =>
      rw [formatParts, if_neg (by omega)] at run
      cases run
      rw [filledFrom, left]
      exact ⟨by omega, (List.append_nil _).symm, nofun⟩
  | succ left ih =>
      have below : partIdx < 12 := by omega
      rw [formatParts_succ below] at run
      obtain ⟨between, entry, run⟩ := bind_eq_ok.mp run
      obtain ⟨atEnd, formatted, formattable⟩ := ih (by omega) run (by omega)
      rw [filledFrom_eq _ _ below]
      rw [formatEntry] at entry
      split at entry
      · next filled =>
          obtain ⟨first, added, -⟩ := formatPart_eq_ok entry
          have same : SameFrom hd (partIdx + 1) s.mem between.mem := formatPart_sameFrom entry
          rw [if_pos filled]
          refine ⟨atEnd, ?_, fun part member => ?_⟩
          · rw [formatted, added, same.filledFrom, List.map_append, List.append_assoc]
            rfl
          · rcases List.mem_append.mp member with here | behind
            · rwa [List.mem_singleton.mp here]
            · rw [same.filledFrom] at formattable
              exact (same.formattable behind).mp (formattable part behind)
      · next empty =>
          cases entry
          rw [if_neg empty]
          exact ⟨atEnd, formatted, formattable⟩

/-- The walk returns if each filled entry can be formatted. -/
theorem formatParts_of_formattable
    (formattable : ∀ part ∈ filledFrom s.mem hd partIdx, Formattable room s.mem part) :
    ∃ result, formatParts room stack channelNo hd partIdx (entryAt hd partIdx) s = .ok result := by
  induction left : 12 - partIdx generalizing partIdx s with
  | zero =>
      rw [formatParts, if_neg (by omega)]
      exact ⟨_, rfl⟩
  | succ left ih =>
      have below : partIdx < 12 := by omega
      rw [filledFrom_eq _ _ below] at formattable
      have behind : ∀ part ∈ filledFrom s.mem hd (partIdx + 1), Formattable room s.mem part :=
        fun part member => formattable part (List.mem_append_right _ member)
      rw [formatParts_succ below, formatEntry]
      by_cases filled : Filled s.mem (entryAt hd partIdx)
      · rw [if_pos filled] at formattable ⊢
        obtain ⟨between, entry⟩ : ∃ s', formatPart room stack channelNo hd (entryAt hd partIdx) s =
            .ok s' := formatPart_of_formattable (formattable _ (by simp))
        have same : SameFrom hd (partIdx + 1) s.mem between.mem := formatPart_sameFrom entry
        rw [bind_ok entry]
        refine ih (fun part member => ?_) (by omega)
        rw [same.filledFrom] at member
        exact (same.formattable member).mpr (behind part member)
      · rw [if_neg filled]
        exact ih behind (by omega)

/-! ## The channels -/

/-- `&channels[channel_no].devices[1]` -/
def slaveAt (channels channelNo : Nat) : Nat := deviceAt (channelAt channels channelNo) 1

theorem formatDevices_eq : formatDevices room stack channels channelNo 0 partIdx s =
    formatParts room stack channelNo (slaveAt channels channelNo) partIdx
      (entryAt (slaveAt channels channelNo) 0) s := by
  rw [formatDevices, if_pos (by decide), if_pos rfl, formatDevices, if_pos (by decide),
    if_neg (by decide)]
  show formatParts room stack channelNo (slaveAt channels channelNo) partIdx
    (entryAt (slaveAt channels channelNo) 0) s >>= _ = _
  cases formatParts room stack channelNo (slaveAt channels channelNo) partIdx
      (entryAt (slaveAt channels channelNo) 0) s with
  | error fault => rfl
  | ok result =>
      show formatDevices room stack channels channelNo 2 result.1 result.2 = _
      rw [formatDevices, if_neg (by decide)]

/-- The channels that find the index at its end. -/
theorem formatChannels_done {left : Nat} :
    formatChannels room stack channels left channelNo 12 s = .ok s := by
  induction left generalizing channelNo with
  | zero => rfl
  | succ left ih =>
      have done : formatDevices room stack channels channelNo 0 12 s = .ok (12, s) := by
        rw [formatDevices_eq, formatParts, if_neg (by decide)]
      rw [formatChannels, bind_ok done]
      exact ih

/-- The entries of a disk, as the slots that they are. -/
theorem mem_filledFrom_zero :
    part ∈ filledFrom mem hd 0 ↔ ∃ slot :
    Slot, slot.Valid ∧ part = slot.addr hd ∧ Filled mem part := by
  rw [mem_filledFrom]
  constructor
  · rintro ⟨index, -, upper, rfl, filled⟩
    by_cases first : index < 4
    · exact ⟨.prim index, first, rfl, filled⟩
    · refine ⟨.logic (index - 4), ?_, ?_, filled⟩
      · show index - 4 < 8
        omega
      · rw [Slot.addr_eq, Slot.number, entryAt, Nat.add_sub_cancel' (Nat.not_lt.mp first)]
  · rintro ⟨slot, valid, rfl, filled⟩
    exact ⟨slot.number, Nat.zero_le _, valid.number_lt, slot.addr_eq hd, filled⟩

theorem nodup_filledFrom : (filledFrom mem hd partIdx).Nodup := by
  refine List.Nodup.filter _ (List.Nodup.map (fun index index' equal => ?_) List.nodup_range')
  rw [entryAt, entryAt] at equal
  omega

/-- `filesys_init` formats the filled entries of the first slave disk. -/
theorem filesysInit_eq_ok {sbRoom : Bool} {left : Nat} {disks : Nat → Bytes}
    (run : filesysInit room stack channels sbRoom (left + 1) mem disks = .ok s') :
    sbRoom = true ∧ s'.formatted =
        (filledFrom mem (slaveAt channels 0) 0).map (slaveAt channels 0, ·) ∧
      ∀ part ∈ filledFrom mem (slaveAt channels 0) 0, Formattable room mem part := by
  rw [filesysInit] at run
  obtain ⟨buf, malloc, run⟩ := bind_eq_ok.mp run
  rw [formatChannels] at run
  obtain ⟨⟨last, between⟩, walk, run⟩ := bind_eq_ok.mp run
  rw [formatDevices_eq] at walk
  obtain ⟨rfl, formatted, formattable⟩ := formatParts_eq_ok (Nat.zero_le _) walk
  dsimp only at run
  rw [formatChannels_done] at run
  cases run
  refine ⟨?_, formatted, formattable⟩
  cases sbRoom with
  | true => rfl
  | false => cases malloc

theorem filesysInit_of_formattable {channelCnt : Nat} {disks : Nat → Bytes}
    (formattable : 0 < channelCnt →
      ∀ part ∈ filledFrom mem (slaveAt channels 0) 0, Formattable room mem part) :
    ∃ s, filesysInit room stack channels true channelCnt mem disks = .ok s := by
  have malloc : sysMallocOrPanic true = .ok fun _ => 0 := rfl
  rw [filesysInit, bind_ok malloc]
  cases channelCnt with
  | zero => exact ⟨_, rfl⟩
  | succ left =>
      obtain ⟨⟨last, s⟩, walk⟩ : ∃ result, formatParts room stack 0 (slaveAt channels 0) 0
          (entryAt (slaveAt channels 0) 0) ⟨mem, disks, []⟩ = .ok result :=
        formatParts_of_formattable (formattable (Nat.succ_pos _))
      obtain ⟨rfl, -, -⟩ := formatParts_eq_ok (Nat.zero_le _) walk
      rw [formatChannels, formatDevices_eq, bind_ok walk]
      exact ⟨s, formatChannels_done⟩

/-- `partition_format` has been called once for each entry with sectors of the slave disk
of each channel, with this disk and this entry, and for nothing else. -/
structure FormatsEach (channels channelCnt : Nat) (mem : Bytes) (formatted : List (Nat × Nat)) :
    Prop where
  once : formatted.Nodup
  each : ∀ hd part, (hd, part) ∈ formatted ↔ ∃ channelNo, channelNo < channelCnt ∧
    hd = slaveAt channels channelNo ∧ ∃ slot : Slot, slot.Valid ∧ part = slot.addr hd ∧
      mem.read32 (part + 4) ≠ 0

/-- Nothing is formatted behind the first channel. -/
theorem FormatsEach.first {channelCnt : Nat} (formats : FormatsEach channels channelCnt mem
    ((filledFrom mem (slaveAt channels 0) 0).map (slaveAt channels 0, ·))) (behind : 0 < channelNo)
    (below : channelNo < channelCnt) (slot : Slot) (valid : slot.Valid) :
    mem.read32 (slot.addr (slaveAt channels channelNo) + 4) = 0 := by
  by_contra filled
  have member := (formats.each (slaveAt channels channelNo) _).mpr
    ⟨channelNo, below, rfl, slot, valid, rfl, filled⟩
  obtain ⟨part, -, equal⟩ := List.mem_map.mp member
  have same : slaveAt channels 0 = slaveAt channels channelNo := congrArg Prod.fst equal
  rw [slaveAt, slaveAt, deviceAt, deviceAt, channelAt, channelAt] at same
  omega

/-- Each partition is formatted once exactly if memory is found, those of the first slave
disk lie on it, and there are none on the slave disks of other channels. -/
theorem filesysInit_formats_iff (room : Nat → Bool) (stack : Nat → SuperBlock)
    (channels channelCnt : Nat) (sbRoom : Bool) (mem : Bytes) (disks : Nat → Bytes) :
    (∃ s, filesysInit room stack channels sbRoom channelCnt mem disks = .ok s ∧
        FormatsEach channels channelCnt mem s.formatted) ↔
      sbRoom = true ∧
        (0 < channelCnt → ∀ slot : Slot, slot.Valid →
          mem.read32 (slot.addr (slaveAt channels 0) + 4) ≠ 0 →
            Formattable room mem (slot.addr (slaveAt channels 0))) ∧
        ∀ channelNo, 0 < channelNo → channelNo < channelCnt → ∀ slot : Slot, slot.Valid →
          mem.read32 (slot.addr (slaveAt channels channelNo) + 4) = 0 := by
  constructor
  · rintro ⟨s, run, formats⟩
    cases channelCnt with
    | zero =>
        refine ⟨?_, fun positive => absurd positive (Nat.lt_irrefl 0), fun _ _ below =>
          absurd below (Nat.not_lt_zero _)⟩
        rw [filesysInit] at run
        obtain ⟨buf, malloc, -⟩ := bind_eq_ok.mp run
        cases sbRoom with
        | true => rfl
        | false => cases malloc
    | succ left =>
        obtain ⟨found, formatted, formattable⟩ := filesysInit_eq_ok run
        rw [formatted] at formats
        exact ⟨found, fun _ slot valid filled =>
            formattable _ (mem_filledFrom_zero.mpr ⟨slot, valid, rfl, filled⟩),
          fun channelNo behind below slot valid => formats.first behind below slot valid⟩
  · rintro ⟨rfl, formattable, empty⟩
    obtain ⟨s, run⟩ : ∃ s, filesysInit room stack channels true channelCnt mem disks = .ok s :=
      filesysInit_of_formattable fun positive part member => by
        obtain ⟨slot, valid, rfl, filled⟩ := mem_filledFrom_zero.mp member
        exact formattable positive slot valid filled
    refine ⟨s, run, ?_⟩
    cases channelCnt with
    | zero =>
        cases run
        exact ⟨List.nodup_nil, fun hd part => by simp⟩
    | succ left =>
        obtain ⟨-, formatted, -⟩ := filesysInit_eq_ok run
        rw [formatted]
        refine ⟨nodup_filledFrom.map fun part part' equal => congrArg Prod.snd equal,
          fun hd part => ?_⟩
        rw [List.mem_map]
        constructor
        · rintro ⟨part', member, equal⟩
          cases equal
          exact ⟨0, Nat.succ_pos _, rfl, mem_filledFrom_zero.mp member⟩
        · rintro ⟨channelNo, below, rfl, slot, valid, rfl, filled⟩
          rcases Nat.eq_zero_or_pos channelNo with rfl | behind
          · exact ⟨_, mem_filledFrom_zero.mpr ⟨slot, valid, rfl, filled⟩, rfl⟩
          · exact absurd (empty channelNo behind below slot valid) filled

end

/-- Two channels at 8192, with a partition of 2048 sectors from sector 63 on on the slave
disk of the second. -/
def secondSlave : Bytes := fun query =>
  if query = 10656 then 63 else if query = 10661 then 8 else 0

/-- It is not formatted. -/
theorem not_formatsEach_secondSlave :
    (∃ s, filesysInit (fun _ => true) (fun _ => .decode fun _ => 0) 8192 true 2 secondSlave
        (fun _ _ => 0) = .ok s) ∧
      ¬∃ s, filesysInit (fun _ => true) (fun _ => .decode fun _ => 0) 8192 true 2 secondSlave
        (fun _ _ => 0) = .ok s ∧ FormatsEach 8192 2 secondSlave s.formatted := by
  have none : filledFrom secondSlave (slaveAt 8192 0) 0 = [] := by decide
  constructor
  · refine filesysInit_of_formattable fun _ part member => ?_
    rw [none] at member
    cases member
  · rintro ⟨s, run, formats⟩
    obtain ⟨-, formatted, -⟩ := filesysInit_eq_ok run
    rw [formatted] at formats
    have empty := formats.first (show 0 < 1 by decide) (by decide) (.prim 0)
      (show 0 < 4 by decide)
    exact absurd empty (by decide)

end Pumelo
