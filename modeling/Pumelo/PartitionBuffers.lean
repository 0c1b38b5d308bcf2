import Pumelo.PartitionCalls
import Pumelo.PartitionSlots

/-!
# The slots and buffers of the partition scan

`partition_scan` with its calls of `sys_malloc` and `sys_free`.  A call that counts the
eighth logical partition returns without freeing its boot sector, and its callers go on
with their tables: a further logical partition is then stored behind the array.  Four
entries in front of an extended one that leads to sector 0 do the same to the other array.

So a scan keeps to its slots and frees its buffers as long as it does not meet one of these
entries.
-/

namespace Pumelo

open Foundation Relation

/-- The buffers that `sys_malloc` has given out, by number, and those of them that have not
been given to `sys_free`. -/
structure ScanBuffers where
  given : Nat
  live : List Nat
  deriving DecidableEq

namespace ScanBuffers

/-- `sys_malloc(sizeof(struct boot_sector))` -/
def sysMalloc (b : ScanBuffers) : Nat × ScanBuffers := (b.given, ⟨b.given + 1, b.given :: b.live⟩)

/-- `sys_free(bs)` -/
def sysFree (b : ScanBuffers) (bs : Nat) : ScanBuffers := { b with live := b.live.erase bs }

end ScanBuffers

section

variable (plist hd : Nat) (extLba : UInt32)

/-- The loop of `partition_scan`, and whether the call returns in it. -/
def scanEntriesBuffered
    (scan : UInt32 → ScanState → ScanBuffers → Except Fault (ScanState × ScanBuffers)) :
    List PartitionTableEntry → ScanState → ScanBuffers →
      Except Fault (Bool × ScanState × ScanBuffers)
  | [], s, b => .ok (false, s, b)
  | p :: rest, s, b =>
      if p.fsType = 0x5 then do
        let (s, b) ←
          if s.extLbaBase = 0 then scan p.startLba { s with extLbaBase := p.startLba } b
          else scan (s.extLbaBase + p.startLba) s b
        scanEntriesBuffered scan rest s b
      else do
        let (returns, s) ← passPart plist hd extLba p s
        if returns then return (true, s, b) else scanEntriesBuffered scan rest s b

end

/-- `partition_scan` with its buffer; a call that returns in its loop does not free it. -/
def partitionScanBuffered (disk : Bytes) (plist hd : Nat) :
    (fuel : Nat) → UInt32 → ScanState → ScanBuffers → Except Fault (ScanState × ScanBuffers)
  | 0, _, _, _ => .error .diverge
  | fuel + 1, extLba, s, b => do
      let (bs, b) := b.sysMalloc
      let sector ← ideRead disk extLba.toNat (fun _ => 0) 1
      let (returns, s, b) ← scanEntriesBuffered plist hd extLba
        (partitionScanBuffered disk plist hd fuel) (partitionTable sector) s b
      if returns then return (s, b) else return (s, b.sysFree bs)

section

variable {disk : Bytes} {plist hd : Nat} {lba : UInt32} {p : PartitionTableEntry}
  {rest : List PartitionTableEntry} {s s' : ScanState} {b b' : ScanBuffers}
  {scan : UInt32 → ScanState → ScanBuffers → Except Fault (ScanState × ScanBuffers)}

theorem scanEntriesBuffered_extended (extended : p.fsType = 0x5) (s : ScanState)
    (b : ScanBuffers) :
    scanEntriesBuffered plist hd lba scan (p :: rest) s b =
      scan (s.globals.call p).extLba
          { s with extLbaBase := (s.globals.call p).globals.extLbaBase } b >>= fun (s, b) =>
        scanEntriesBuffered plist hd lba scan rest s b := by
  rw [scanEntriesBuffered, if_pos extended, ScanGlobals.call]
  by_cases unset : s.extLbaBase = 0
  · rw [if_pos unset, if_pos (show s.globals.extLbaBase = 0 from unset)]
  · rw [if_neg unset, if_neg (show ¬s.globals.extLbaBase = 0 from unset)]
    rfl

theorem scanEntriesBuffered_plain (plain : p.fsType ≠ 0x5) (s : ScanState) (b : ScanBuffers) :
    scanEntriesBuffered plist hd lba scan (p :: rest) s b =
      passPart plist hd lba p s >>= fun (returns, s) =>
        if returns then .ok (true, s, b) else scanEntriesBuffered plist hd lba scan rest s b := by
  rw [scanEntriesBuffered, if_neg plain]
  rfl

/-- The loop does to the state what the loop without buffers does. -/
theorem scanEntriesBuffered_state {scan' : UInt32 → ScanState → Except Fault ScanState}
    (agree : ∀ lba s b, (scan lba s b).map Prod.fst = scan' lba s)
    (table : List PartitionTableEntry) (s : ScanState) (b : ScanBuffers) :
    (scanEntriesBuffered plist hd lba scan table s b).map (fun result => result.2.1) =
      scanEntries plist hd lba scan' table s := by
  induction table generalizing s b with
  | nil => rfl
  | cons p rest ih =>
      by_cases extended : p.fsType = 0x5
      · rw [scanEntriesBuffered_extended extended, scanEntries_extended extended]
        exact map_bind_congr (agree _ _ _) fun inner => ih inner.1 inner.2
      · rw [scanEntriesBuffered_plain extended, scanEntries_plain extended]
        cases passPart plist hd lba p s with
        | error fault => rfl
        | ok passed =>
            obtain ⟨returns, s'⟩ := passed
            cases returns with
            | true => rfl
            | false => exact ih s' b

/-- The call of a sector that is read. -/
theorem partitionScanBuffered_succ {sector : Bytes} {fuel : Nat}
    (read : ideRead disk lba.toNat (fun _ => 0) 1 = .ok sector) (s : ScanState) (b : ScanBuffers) :
    partitionScanBuffered disk plist hd (fuel + 1) lba s b =
      (scanEntriesBuffered plist hd lba (partitionScanBuffered disk plist hd fuel)
        (partitionTable sector) s b.sysMalloc.2).map fun (returns, s, b') =>
          (s, if returns then b' else b'.sysFree b.given) := by
  rw [partitionScanBuffered]
  dsimp only [ScanBuffers.sysMalloc]
  rw [bind_ok read]
  cases scanEntriesBuffered plist hd lba (partitionScanBuffered disk plist hd fuel)
    (partitionTable sector) s ⟨b.given + 1, b.given :: b.live⟩ with
  | error fault => rfl
  | ok result =>
      obtain ⟨returns, s', b'⟩ := result
      cases returns <;> rfl

/-- A call does to the state what the call without buffers does. -/
theorem partitionScanBuffered_state (disk : Bytes) (fuel : Nat) (lba : UInt32) (s : ScanState)
    (b : ScanBuffers) :
    (partitionScanBuffered disk plist hd fuel lba s b).map Prod.fst =
      partitionScan disk plist hd fuel lba s := by
  induction fuel generalizing lba s b with
  | zero => rfl
  | succ fuel ih =>
      cases read : ideRead disk lba.toNat (fun _ => 0) 1 with
      | error fault =>
          rw [partitionScanBuffered, partitionScan, read]
          rfl
      | ok sector =>
          rw [partitionScanBuffered_succ read, partitionScan, bind_ok read,
            ← scanEntriesBuffered_state ih (partitionTable sector) s b.sysMalloc.2]
          cases scanEntriesBuffered plist hd lba (partitionScanBuffered disk plist hd fuel)
            (partitionTable sector) s b.sysMalloc.2 with
          | error fault => rfl
          | ok result => rfl

/-- What a loop or a call leaves: the buffers `kept`, obtained in it and not freed.  There
are some, or the loop was left early, exactly when the eighth logical partition was
counted. -/
structure Leaves (s s' : ScanState) (b b' : ScanBuffers) (returns : Bool) (kept : List Nat) :
    Prop where
  live : b'.live = kept ++ b.live
  given : b.given ≤ b'.given
  fresh : ∀ bs ∈ kept, b.given ≤ bs
  counts : s.lNo ≤ s'.lNo
  full : returns = true ∨ kept ≠ [] ↔ s.lNo < 8 ∧ 8 ≤ s'.lNo

theorem advance_eq_ok {g g' : ScanGlobals} (run : g.advance = .ok g') :
    g'.extLbaBase = g.extLbaBase ∧ g'.lNo = g.lNo := by
  rw [ScanGlobals.advance] at run
  obtain ⟨_, -, run⟩ := bind_eq_ok.mp run
  cases run
  split <;> exact ⟨rfl, rfl⟩

/-- What an entry counts, and that it leaves a loop when it is the eighth logical
partition. -/
theorem pass_eq_ok {g g' : ScanGlobals} {returns : Bool} (run : g.pass p = .ok (returns, g')) :
    g'.extLbaBase = g.extLbaBase ∧ g'.lNo = g.lNo + (if p.fsType = 0x66 then 1 else 0) ∧
      (returns = true ↔ g.lNo < 8 ∧ 8 ≤ g'.lNo) := by
  have advanced : ∀ plain : p.fsType ≠ 0x66, g.advance.map (fun g => (false, g)) =
    .ok (returns, g') →
      g'.extLbaBase = g.extLbaBase ∧ g'.lNo = g.lNo + (if p.fsType = 0x66 then 1 else 0) ∧
        (returns = true ↔ g.lNo < 8 ∧ 8 ≤ g'.lNo) := by
    intro plain run
    obtain ⟨g'', result, same⟩ := map_eq_ok.mp run
    cases same
    obtain ⟨base, counts⟩ := advance_eq_ok result
    rw [if_neg plain, counts]
    exact ⟨base, rfl, by simp⟩
  rw [ScanGlobals.pass] at run
  split at run
  · next linux =>
      split at run
      · exact advanced (by rw [linux]; decide) run
      · cases run
  · split at run
    · next empty => exact advanced (by rw [empty]; decide) run
    · split at run
      · next logical =>
          split at run
          · cases run
            rw [if_pos logical]
            refine ⟨rfl, rfl, ?_⟩
            simp
            omega
          · cases run
      · next plain =>
          cases run
          rw [if_neg plain]
          exact ⟨rfl, rfl, by simp⟩

theorem passPart_lNo {returns : Bool} (run : passPart plist hd lba p s = .ok (returns, s')) :
    s.lNo ≤ s'.lNo ∧ (returns = true ↔ s.lNo < 8 ∧ 8 ≤ s'.lNo) := by
  have view : (passPart plist hd lba p s).map (fun passed => (passed.1, passed.2.globals)) =
      s.globals.pass p := passPart_globals p s
  rw [run] at view
  obtain ⟨-, counts, left⟩ := pass_eq_ok view.symm
  exact ⟨(Nat.le_add_right _ _).trans_eq counts.symm, left⟩

/-- A loop leaves what its inner calls leave, up to where it is left itself. -/
theorem scanEntriesBuffered_leaves
    (inner : ∀ lba s b s' b', scan lba s b = .ok (s', b') → ∃ kept, Leaves s s' b b' false kept)
    {table : List PartitionTableEntry} {returns : Bool}
    (run : scanEntriesBuffered plist hd lba scan table s b = .ok (returns, s', b')) :
    ∃ kept, Leaves s s' b b' returns kept := by
  induction table generalizing s b with
  | nil =>
      cases run
      refine ⟨[], rfl, Nat.le_refl _, nofun, Nat.le_refl _, ?_⟩
      simp
  | cons p rest ih =>
      by_cases extended : p.fsType = 0x5
      · rw [scanEntriesBuffered_extended extended] at run
        obtain ⟨⟨s1, b1⟩, first, run⟩ := bind_eq_ok.mp run
        obtain ⟨kept1, live1, given1, fresh1, counts1, full1⟩ := inner _ _ _ _ _ first
        obtain ⟨kept2, live2, given2, fresh2, counts2, full2⟩ := ih run
        refine ⟨kept2 ++ kept1, ?_, Nat.le_trans given1 given2, fun bs member => ?_,
          Nat.le_trans counts1 counts2, ?_⟩
        · rw [live2, live1, List.append_assoc]
        · rcases List.mem_append.mp member with later | earlier
          · exact Nat.le_trans given1 (fresh2 bs later)
          · exact fresh1 bs earlier
        · simp only [Bool.false_eq_true, false_or] at full1
          have either : returns = true ∨ kept2 ++ kept1 ≠ [] ↔
              (returns = true ∨ kept2 ≠ []) ∨ kept1 ≠ [] := by
            rw [ne_eq, List.append_eq_nil_iff]
            tauto
          rw [either, full2, full1]
          dsimp only at counts1 ⊢
          omega
      · rw [scanEntriesBuffered_plain extended] at run
        obtain ⟨⟨early, s1⟩, passed, run⟩ := bind_eq_ok.mp run
        obtain ⟨counts, left⟩ := passPart_lNo passed
        cases early with
        | true =>
            cases run
            exact ⟨[], rfl, Nat.le_refl _, nofun, counts, by simpa using left⟩
        | false =>
            obtain ⟨kept, live, given, fresh, counts', full⟩ := ih run
            refine ⟨kept, live, given, fresh, Nat.le_trans counts counts', ?_⟩
            rw [full]
            simp at left
            omega

/-- A call leaves buffers when it counts the eighth logical partition. -/
theorem partitionScanBuffered_leaves {fuel : Nat}
    (run : partitionScanBuffered disk plist hd fuel lba s b = .ok (s', b')) :
    ∃ kept, Leaves s s' b b' false kept := by
  induction fuel generalizing lba s b s' b' with
  | zero => cases run
  | succ fuel ih =>
      cases read : ideRead disk lba.toNat (fun _ => 0) 1 with
      | error fault =>
          rw [partitionScanBuffered, read] at run
          cases run
      | ok sector =>
          rw [partitionScanBuffered_succ read] at run
          cases loop : scanEntriesBuffered plist hd lba (partitionScanBuffered disk plist hd fuel)
              (partitionTable sector) s b.sysMalloc.2 with
          | error fault =>
              rw [loop] at run
              cases run
          | ok result =>
              obtain ⟨returns, s1, b1⟩ := result
              rw [loop] at run
              obtain ⟨kept, live, given, fresh, counts, full⟩ :=
                scanEntriesBuffered_leaves (fun lba s b s' b' => ih) loop
              have fresh' : ∀ bs ∈ kept, b.given + 1 ≤ bs := fresh
              cases returns with
              | true =>
                  cases run
                  refine ⟨kept ++ [b.given], ?_, Nat.le_of_succ_le given, fun bs member => ?_,
                    counts, ?_⟩
                  · show b1.live = _
                    rw [live]
                    simp [ScanBuffers.sysMalloc]
                  · rcases List.mem_append.mp member with earlier | own
                    · exact Nat.le_of_succ_le (fresh' bs earlier)
                    · exact Nat.le_of_eq (List.mem_singleton.mp own).symm
                  · simpa using full
              | false =>
                  cases run
                  refine ⟨kept, ?_, Nat.le_of_succ_le given, fun bs member =>
                    Nat.le_of_succ_le (fresh' bs member), counts, full⟩
                  have absent : b.given ∉ kept := fun member => by
                    have := fresh' _ member
                    omega
                  show b1.live.erase b.given = _
                  rw [live, List.erase_append_right _ absent]
                  simp [ScanBuffers.sysMalloc]

/-- Recording a partition in either array. -/
theorem recordIn_keeps {keeps : Bytes → Prop}
    (step : ∀ mem (slot : Slot) number lba p, slot.Valid → keeps mem →
      keeps (recordPart mem plist hd (slot.addr hd) number lba p))
    {array : String} {size counter number : Nat} (slot : Slot) (valid : counter < size → slot.Valid)
    (before : keeps s.mem)
    (run : recordIn plist hd lba array size counter (slot.addr hd) number p s = .ok s') :
    keeps s'.mem := by
  rw [recordIn] at run
  split at run
  · next small =>
      cases run
      exact step _ slot _ _ _ (valid small) before
  · cases run

theorem advancePNo_mem (run : advancePNo s = .ok s') : s'.mem = s.mem := by
  rw [advancePNo] at run
  obtain ⟨_, -, run⟩ := bind_eq_ok.mp run
  cases run
  split <;> rfl

/-- A property of the memory that every recorded partition keeps is kept by an entry. -/
theorem passPart_keeps {keeps : Bytes → Prop}
    (step : ∀ mem (slot : Slot) number lba p, slot.Valid → keeps mem →
      keeps (recordPart mem plist hd (slot.addr hd) number lba p))
    (before : keeps s.mem) {returns : Bool}
    (run : passPart plist hd lba p s = .ok (returns, s')) : keeps s'.mem := by
  rw [passPart] at run
  split at run
  · obtain ⟨recorded, record, run⟩ := bind_eq_ok.mp run
    obtain ⟨counted, advance, run⟩ := bind_eq_ok.mp run
    cases run
    rw [advancePNo_mem advance]
    exact recordIn_keeps step (.prim s.pNo) id before record
  · split at run
    · obtain ⟨counted, advance, run⟩ := bind_eq_ok.mp run
      cases run
      rwa [advancePNo_mem advance]
    · split at run
      · obtain ⟨recorded, record, run⟩ := bind_eq_ok.mp run
        have kept : keeps recorded.mem := recordIn_keeps step (.logic s.lNo) id before record
        cases run
        exact kept
      · cases run
        exact before

theorem scanEntries_keeps {keeps : Bytes → Prop}
    {scan : UInt32 → ScanState → Except Fault ScanState}
    (step : ∀ mem (slot : Slot) number lba p, slot.Valid → keeps mem →
      keeps (recordPart mem plist hd (slot.addr hd) number lba p))
    (inner : ∀ lba s s', keeps s.mem → scan lba s = .ok s' → keeps s'.mem)
    {table : List PartitionTableEntry} (before : keeps s.mem)
    (run : scanEntries plist hd lba scan table s = .ok s') : keeps s'.mem := by
  induction table generalizing s with
  | nil =>
      cases run
      exact before
  | cons p rest ih =>
      by_cases extended : p.fsType = 0x5
      · rw [scanEntries_extended extended] at run
        obtain ⟨between, entered, run⟩ := bind_eq_ok.mp run
        have kept : keeps between.mem :=
          inner _ { s with extLbaBase := (s.globals.call p).globals.extLbaBase } _ before entered
        exact ih kept run
      · rw [scanEntries_plain extended] at run
        obtain ⟨⟨returns, between⟩, passed, run⟩ := bind_eq_ok.mp run
        have kept : keeps between.mem := passPart_keeps step before passed
        cases returns with
        | true =>
            cases run
            exact kept
        | false => exact ih kept run

/-- A property of the memory that every recorded partition keeps is kept by a scan. -/
theorem partitionScan_keeps {keeps : Bytes → Prop}
    (step : ∀ mem (slot : Slot) number lba p, slot.Valid → keeps mem →
      keeps (recordPart mem plist hd (slot.addr hd) number lba p))
    (before : keeps s.mem) {fuel : Nat} (run : partitionScan disk plist hd fuel lba s = .ok s') :
    keeps s'.mem := by
  induction fuel generalizing lba s s' with
  | zero => cases run
  | succ fuel ih =>
      rw [partitionScan] at run
      obtain ⟨bs, -, run⟩ := bind_eq_ok.mp run
      exact scanEntries_keeps step (fun lba s s' before run => ih before run) before run

/-- Linking an entry writes the entry, and the links of its neighbours to it. -/
theorem linkBefore_of_outside (mem : Bytes) {before elem query : Nat}
    (last : query < prevOf mem before + 4 ∨ prevOf mem before + 8 ≤ query)
    (entry : query < elem ∨ elem + 8 ≤ query) (next : query < before ∨ before + 4 ≤ query) :
    linkBefore mem before elem query = mem query := by
  simp only [linkBefore]
  rw [Bytes.write32_of_outside _ _ (by omega), Bytes.write32_of_outside _ _ (by omega),
    Bytes.write32_of_outside _ _ (by omega), Bytes.write32_of_outside _ _ (by omega)]

/-- The bytes of the two arrays and of `partition_list`. -/
def ScanBytes (plist hd query : Nat) : Prop :=
  (hd + 16 ≤ query ∧ query < hd + 784) ∨ (plist ≤ query ∧ query < plist + 16)

/-- Recording a partition in a slot that exists writes in the arrays and the list only. -/
theorem Recorded.recordPart_of_outside {mem : Bytes}
    {recorded : List (Slot × UInt32 × PartitionTableEntry)}
    (stored : Recorded mem plist hd recorded) {slot : Slot} (valid : slot.Valid) (number : Nat)
    (lba : UInt32) (p : PartitionTableEntry) (layout : ScanLayout plist hd) {query : Nat}
    (outside : ¬ScanBytes plist hd query) :
    Pumelo.recordPart mem plist hd (slot.addr hd) number lba p query = mem query := by
  have slotLt := valid.number_lt
  have addr := slot.addr_eq hd
  rw [ScanBytes] at outside
  have filled : ∀ query, query < slot.addr hd ∨ slot.addr hd + 12 ≤ query →
      Pumelo.fillPart mem hd (slot.addr hd) lba p query = mem query :=
    fun _ => fillPart_of_outside mem lba p
  -- filling the slot leaves the links alone, so that the last one is in a slot or the list
  have closed := stored.closed.congr fun query inside =>
    filled query (layout.node_byte stored.valid valid inside).1
  have last := closed.prev _ List.mem_cons_self
  have place : prevOf (Pumelo.fillPart mem hd (slot.addr hd) lba p) (tailer plist) = plist ∨
      ∃ number, number < 12 ∧
        prevOf (Pumelo.fillPart mem hd (slot.addr hd) lba p) (tailer plist) =
          hd + 28 + 64 * number := by
    rcases List.mem_cons.mp last with atHead | member
    · exact .inl atHead
    · obtain ⟨other, otherMem, equal⟩ := List.mem_map.mp member
      exact .inr ⟨other.number, (stored.valid other otherMem).number_lt,
        equal.symm.trans (other.tag_eq hd)⟩
  have tag : partTag (slot.addr hd) = slot.addr hd + 12 := rfl
  simp only [Pumelo.recordPart]
  rw [printName_of_outside _ _ _ (by omega),
    linkBefore_of_outside _ (by omega) (by omega) (by rw [tailer]; omega), filled _ (by omega)]

/-- A scan with an empty list writes in the arrays and the list only. -/
theorem partitionScan_of_outside (layout : ScanLayout plist hd) (empty : ListAt s.mem plist [])
    {fuel : Nat} (run : partitionScan disk plist hd fuel lba s = .ok s') {query : Nat}
    (outside : ¬ScanBytes plist hd query) : s'.mem query = s.mem query := by
  have start : Recorded s.mem plist hd [] :=
    ⟨nofun, .of_empty empty, fun _ => empty, fun _ => nofun⟩
  have step : ∀ (mem : Bytes) (slot : Slot) (number : Nat) (lba : UInt32)
      (p : PartitionTableEntry), slot.Valid →
      (∃ recorded, Recorded mem plist hd recorded) ∧ mem query = s.mem query →
      (∃ recorded, Recorded (recordPart mem plist hd (slot.addr hd) number lba p) plist hd
        recorded) ∧ recordPart mem plist hd (slot.addr hd) number lba p query = s.mem query := by
    rintro mem slot number lba p valid ⟨⟨recorded, stored⟩, same⟩
    exact ⟨⟨_, stored.recordPart layout valid number lba p⟩,
      (stored.recordPart_of_outside valid number lba p layout outside).trans same⟩
  exact (partitionScan_keeps step ⟨⟨_, start⟩, rfl⟩ run).2

/-! ## Tables with fewer than eight logical partitions -/

/-- A loop that ends with fewer than eight logical partitions has read a tree. -/
def ReadsTree (disk : Bytes) (lba : UInt32) (table : List PartitionTableEntry)
    (g g' : ScanGlobals) : Prop :=
  g.lNo ≤ g'.lNo ∧ (g'.lNo < 8 → ∃ tree,
    TablesOf disk g.extLbaBase lba table tree g'.extLbaBase ∧ g'.lNo = g.lNo + tree.logical)

theorem passEntries_readsTree {scan : ScanCall → Except Fault ScanGlobals}
    (inner : ∀ call g', scan call = .ok g' → call.extLba.toNat ≤ maxLba ∧
      ReadsTree disk call.extLba (call.table disk) call.globals g')
    {table : List PartitionTableEntry} {g g' : ScanGlobals}
    (run : passEntries scan table g = .ok g') : ReadsTree disk lba table g g' := by
  induction table generalizing g with
  | nil =>
      cases run
      exact ⟨Nat.le_refl _, fun _ => ⟨.done, .done, rfl⟩⟩
  | cons p rest ih =>
      by_cases extended : p.fsType = 0x5
      · rw [passEntries_cons_extended extended] at run
        obtain ⟨between, entered, run⟩ := bind_eq_ok.mp run
        obtain ⟨inside, counts, reads⟩ := inner _ _ entered
        obtain ⟨counts', reads'⟩ := ih run
        have same : (g.call p).globals.lNo = g.lNo := by
          rw [ScanGlobals.call]
          split <;> rfl
        rw [same] at counts reads
        refine ⟨counts.trans counts', fun few => ?_⟩
        obtain ⟨innerTree, tables, logical⟩ := reads (counts'.trans_lt few)
        obtain ⟨tree, tables', logical'⟩ := reads' few
        refine ⟨.extended innerTree tree, ?_, ?_⟩
        · rw [ScanGlobals.call] at inside tables
          obtain ⟨base, pNo, lNo⟩ := g
          by_cases unset : base = 0
          · rw [if_pos unset] at inside tables
            subst unset
            exact .first extended inside tables tables'
          · rw [if_neg unset] at inside tables
            exact .next extended unset inside tables tables'
        · rw [PartTree.logical, logical', logical, Nat.add_assoc]
      · rw [passEntries_cons_plain extended] at run
        obtain ⟨⟨returns, between⟩, passed, run⟩ := bind_eq_ok.mp run
        obtain ⟨base, counts, left⟩ := pass_eq_ok passed
        cases returns with
        | true =>
            cases run
            refine ⟨(Nat.le_add_right _ _).trans_eq counts.symm, fun few => ?_⟩
            exact absurd few (Nat.not_lt.mpr (left.mp rfl).2)
        | false =>
            obtain ⟨counts', reads⟩ := ih run
            rw [counts] at counts' reads
            refine ⟨(Nat.le_add_right _ _).trans counts', fun few => ?_⟩
            obtain ⟨tree, tables, logical⟩ := reads few
            rw [base] at tables
            exact ⟨.entry lba p tree, .entry extended tables, by
              rw [PartTree.logical, logical, Nat.add_assoc]⟩

/-- A scan that counts fewer than eight logical partitions reads a tree. -/
theorem scanCall_readsTree {fuel : Nat} {call : ScanCall} {g : ScanGlobals}
    (run : scanCall disk fuel call = .ok g) :
    call.extLba.toNat ≤ maxLba ∧ ReadsTree disk call.extLba (call.table disk) call.globals g := by
  induction fuel generalizing call g with
  | zero => cases run
  | succ fuel ih =>
      by_cases inside : call.extLba.toNat ≤ maxLba
      · rw [scanCall_succ inside] at run
        exact ⟨inside, passEntries_readsTree (fun call g => ih) run⟩
      · rw [scanCall_of_gt (Nat.not_le.mp inside)] at run
        cases run

/-- The walk through a boot sector with fewer than eight logical partitions finds a slot
for each partition. -/
theorem PartTree.walk_of_logical {tree : PartTree} {marks : Marks} (bounded : tree.Bounded marks)
    (few : marks.lNo + tree.logical < 8) :
    ∃ marks', tree.walk marks = some marks' ∧ marks'.lNo = marks.lNo + tree.logical ∧
      (marks.entered = true → marks'.entered = true ∧ marks'.pNo = marks.pNo) := by
  induction tree generalizing marks with
  | done => exact ⟨marks, rfl, rfl, fun entered => ⟨entered, rfl⟩⟩
  | entry lba p rest ih =>
      rw [logical] at few
      have small : marks.pNo < 4 := bounded.pNo_lt
      have kept : marks.entered = true → marks.pNext = marks.pNo := fun entered => by
        rw [Marks.pNext, if_pos entered]
      rw [walk, logical]
      split
      · next linux =>
          have plain : p.fsType ≠ 0x66 := by
            rw [linux]
            decide
          rw [if_neg plain] at few ⊢
          have room : (marks.prim lba p).lNo + rest.logical < 8 := by
            rwa [Nat.zero_add] at few
          have behind : rest.Bounded (marks.prim lba p) := bounded.rest rfl (Nat.le_refl _)
          obtain ⟨marks', run, counts, same⟩ := ih behind room
          refine ⟨marks', run, ?_, fun entered => ?_⟩
          · rw [counts, Nat.zero_add]
            rfl
          · exact ⟨(same entered).1, (same entered).2.trans (kept entered)⟩
      · split
        · next empty =>
            have plain : p.fsType ≠ 0x66 := by
              rw [empty]
              decide
            rw [if_neg plain, Nat.zero_add] at few ⊢
            rw [if_pos (marks.pNext_le small)]
            have room : marks.skip.lNo + rest.logical < 8 := few
            have behind : rest.Bounded marks.skip := bounded.rest rfl (Nat.le_refl _)
            obtain ⟨marks', run, counts, same⟩ := ih behind room
            exact ⟨marks', run, counts, fun entered =>
              ⟨(same entered).1, (same entered).2.trans (kept entered)⟩⟩
        · split
          · next logical =>
              rw [if_pos logical] at few
              rw [if_pos (by omega), if_neg (by omega)]
              have room : (marks.logic lba p).lNo + rest.logical < 8 := by
                show marks.lNo + 1 + rest.logical < 8
                omega
              have behind : rest.Bounded (marks.logic lba p) :=
                bounded.rest rfl marks.pNo_le_pNext
              obtain ⟨marks', run, counts, same⟩ := ih behind room
              refine ⟨marks', run, ?_, same⟩
              rw [counts]
              exact Nat.add_assoc _ _ _
          · next plain =>
              rw [if_neg plain, Nat.zero_add] at few
              rw [Nat.zero_add]
              exact ih (bounded.rest rfl marks.pNo_le_pNext) few
  | extended inner rest ihInner ihRest =>
      rw [logical] at few
      have low : marks.pNo ≤ 3 := by
        by_cases entered : marks.entered = true
        · exact bounded.1 entered
        · have := bounded.2 entered
          rw [width] at this
          omega
      have inside : inner.Bounded marks.enter := ⟨fun _ => low, fun outside => absurd rfl outside⟩
      have room : marks.enter.lNo + inner.logical < 8 := by
        show marks.lNo + inner.logical < 8
        omega
      obtain ⟨between, run, counts, same⟩ := ihInner inside room
      have counts : between.lNo = marks.lNo + inner.logical := counts
      obtain ⟨entered, pNo⟩ := same rfl
      have pNo : between.pNo = marks.pNo := pNo
      have behind : rest.Bounded between :=
        ⟨fun _ => pNo ▸ low, fun outside => absurd entered outside⟩
      obtain ⟨marks', run', counts', same'⟩ := ihRest behind (by omega)
      refine ⟨marks', ?_, ?_, fun _ => ⟨(same' entered).1, (same' entered).2.trans pNo⟩⟩
      · rw [walk, run]
        exact run'
      · rw [counts', counts, logical, Nat.add_assoc]

/-- A call fails as its call on the globals does. -/
theorem partitionScanBuffered_eq_error {fuel : Nat} {fault : Fault} :
    partitionScanBuffered disk plist hd fuel lba s b = .error fault ↔
      scanCall disk fuel ⟨lba, s.globals⟩ = .error fault := by
  rw [← partitionScan_globals plist hd, ← partitionScanBuffered_state disk fuel lba s b]
  cases partitionScanBuffered disk plist hd fuel lba s b with
  | error fault => simp [Except.map]
  | ok result => simp [Except.map]

theorem partitionScanBuffered_ok {fuel : Nat}
    (run : partitionScanBuffered disk plist hd fuel lba s b = .ok (s', b')) :
    partitionScan disk plist hd fuel lba s = .ok s' := by
  rw [← partitionScanBuffered_state disk fuel lba s b, run]
  rfl

theorem scanCall_of_partitionScan {fuel : Nat}
    (run : partitionScan disk plist hd fuel lba s = .ok s') :
    scanCall disk fuel ⟨lba, s.globals⟩ = .ok s'.globals := by
  rw [← partitionScan_globals plist hd, run]
  rfl

variable {mem : Bytes} {base : UInt32}

/-- The tables that `partition_scan(hd, 0)` comes to form a tree, with fewer than eight
entries of type 0x66. -/
def FewLogical (disk : Bytes) (base : UInt32) : Prop :=
  ∃ tree base', TablesOf disk base 0 (partitionTable (sectorOf disk 0)) tree base' ∧
    tree.logical < 8

/-- The scan of such tables returns. -/
theorem FewLogical.returns (few : FewLogical disk base) (layout : ScanLayout plist hd)
    (empty : ListAt mem plist []) :
    ∃ fuel s, partitionScan disk plist hd fuel 0 ⟨mem, base, 0, 0⟩ = .ok s ∧ s.lNo < 8 := by
  obtain ⟨tree, base', tables, few⟩ := few
  let marks : Marks := ⟨0, 0, decide (base ≠ 0), []⟩
  have start : Represents plist hd ⟨mem, base, 0, 0⟩ marks :=
    ⟨rfl, rfl, decide_eq_true_iff, nofun, .of_empty empty, fun _ => empty, fun _ => nofun⟩
  have bounded : tree.Bounded marks :=
    ⟨fun _ => Nat.zero_le _, fun _ => (Nat.zero_add _).trans_le tables.width_eq.le⟩
  obtain ⟨marks', run, counts, -⟩ :=
    PartTree.walk_of_logical bounded ((Nat.zero_add _).trans_lt few)
  have elsewhere : base = 0 → ∀ p, (partitionTable (sectorOf disk 0)).find? (·.fsType = 0x5) =
      some p → p.startLba ≠ 0 := by
    rintro rfl p found
    exact tables.first_ne_zero found
  have outcome := scanEntries_walk layout tables (Nat.le_refl _) start rfl elsewhere
  rw [← partitionScan_succ tree.depth (Nat.zero_le _), run] at outcome
  obtain ⟨s, scan, rep, -⟩ := outcome
  refine ⟨_, s, scan, ?_⟩
  rw [rep.lNo, counts]
  exact (Nat.zero_add _).trans_lt few

/-- `partition_scan(hd, 0)` comes to its end: it returns or has left one of the arrays.
A failed assertion stops the kernel for good. -/
def ScanTerminates (disk mem : Bytes) (plist hd : Nat) (base : UInt32) : Prop :=
  ∃ fuel, (∃ s, partitionScan disk plist hd fuel 0 ⟨mem, base, 0, 0⟩ = .ok s) ∨
    ∃ array index, partitionScan disk plist hd fuel 0 ⟨mem, base, 0, 0⟩ =
      .error (.outOfBounds array index)

/-- `partition_scan(hd, 0)` writes in `prim_parts`, `logic_parts` and `partition_list`
only, and frees its buffers before it returns. -/
structure StaysInside (disk mem : Bytes) (plist hd : Nat) (base : UInt32) : Prop where
  slots : ∀ fuel array index, partitionScanBuffered disk plist hd fuel 0 ⟨mem, base, 0, 0⟩ ⟨0, []⟩ ≠
    .error (.outOfBounds array index)
  writes : ∀ fuel s b,
    partitionScanBuffered disk plist hd fuel 0 ⟨mem, base, 0, 0⟩ ⟨0, []⟩ = .ok (s, b) →
      ∀ query, ¬ScanBytes plist hd query → s.mem query = mem query
  frees : ∀ fuel s b,
    partitionScanBuffered disk plist hd fuel 0 ⟨mem, base, 0, 0⟩ ⟨0, []⟩ = .ok (s, b) → b.live = []

/-- A call that comes to its end stays inside the arrays and frees its buffers exactly if
its tables form a tree with fewer than eight entries of type 0x66. -/
theorem staysInside_iff (layout : ScanLayout plist hd) (empty : ListAt mem plist [])
    (terminates : ScanTerminates disk mem plist hd base) :
    StaysInside disk mem plist hd base ↔ FewLogical disk base := by
  constructor
  · rintro ⟨slots, -, frees⟩
    obtain ⟨fuel, result⟩ := terminates
    cases run : partitionScanBuffered disk plist hd fuel 0 ⟨mem, base, 0, 0⟩ ⟨0, []⟩ with
    | error fault =>
        rw [← partitionScanBuffered_state disk fuel 0 _ ⟨0, []⟩, run] at result
        rcases result with ⟨s, fails⟩ | ⟨array, index, fails⟩
        · cases fails
        · cases fails
          exact absurd run (slots fuel array index)
    | ok result =>
        obtain ⟨s, b⟩ := result
        obtain ⟨kept, left⟩ := partitionScanBuffered_leaves run
        have none : kept = [] := by
          have live := left.live
          rw [frees fuel s b run, List.append_nil] at live
          exact live.symm
        have few : s.lNo < 8 := by
          by_contra many
          have full := left.full.mpr ⟨show 0 < 8 by decide, Nat.not_lt.mp many⟩
          exact full.elim nofun fun some => some none
        obtain ⟨-, -, reads⟩ :=
          scanCall_readsTree (scanCall_of_partitionScan (partitionScanBuffered_ok run))
        obtain ⟨tree, tables, logical⟩ := reads few
        refine ⟨tree, _, tables, ?_⟩
        have logical : s.lNo = 0 + tree.logical := logical
        omega
  · intro few
    obtain ⟨deep, last, returns, small⟩ := few.returns layout empty
    have control := scanCall_of_partitionScan returns
    have agree : ∀ {fuel}, scanCall disk fuel ⟨0, ⟨base, 0, 0⟩⟩ ≠ .error .diverge →
        scanCall disk fuel ⟨0, ⟨base, 0, 0⟩⟩ = .ok last.globals := fun ends =>
      (scanCall_unique ends (by rw [show scanCall disk deep ⟨0, ⟨base, 0, 0⟩⟩ = _ from control]
                                exact nofun)).trans control
    refine ⟨fun fuel array index leaves => ?_, fun fuel s b run query outside => ?_,
      fun fuel s b run => ?_⟩
    · have leaves : scanCall disk fuel ⟨0, ⟨base, 0, 0⟩⟩ = _ :=
        partitionScanBuffered_eq_error.mp leaves
      have same := agree (by rw [leaves]; exact nofun)
      rw [leaves] at same
      cases same
    · exact partitionScan_of_outside layout empty (partitionScanBuffered_ok run) outside
    · have returned : scanCall disk fuel ⟨0, ⟨base, 0, 0⟩⟩ = .ok s.globals :=
        scanCall_of_partitionScan (partitionScanBuffered_ok run)
      have same := agree (by rw [returned]; exact nofun)
      rw [returned] at same
      have counts : s.lNo = last.lNo := congrArg ScanGlobals.lNo (Except.ok.inj same)
      obtain ⟨kept, left⟩ := partitionScanBuffered_leaves run
      have none : kept = [] := by
        by_contra some
        have := (left.full.mp (.inr some)).2
        omega
      rw [left.live, none]
      rfl

end

theorem staysInside_mixedPartitions : StaysInside mixedPartitions scanMem 4096 8192 0 := by
  have few : FewLogical mixedPartitions 0 := by
    obtain ⟨base, tables⟩ := mixedPartitions_tables
    exact ⟨mixedPartitionsTree, base, tables, by decide⟩
  obtain ⟨fuel, s, run, -⟩ := few.returns scanLayout scanMem_empty
  exact (staysInside_iff scanLayout scanMem_empty ⟨fuel, .inl ⟨s, run⟩⟩).mpr few

/-- Three extended entries in the boot sector, which lead to the sectors 8, 16 and 24 with
four, four and one logical partitions. -/
def nineLogical : Bytes := fun query =>
  if query = 450 ∨ query = 466 ∨ query = 482 then 0x5
  else if query = 454 ∨ query = 470 then 8 else if query = 486 then 16
  else if query = 4546 ∨ query = 4562 ∨ query = 4578 ∨ query = 4594 ∨ query = 8642 ∨
    query = 8658 ∨ query = 8674 ∨ query = 8690 ∨ query = 12738 then 0x66
  else 0

theorem scanCall_nineLogical :
    scanCall nineLogical 2 ⟨0, ⟨0, 0, 0⟩⟩ = .error (.outOfBounds "logic_parts" 8) := by
  have table0 : ScanCall.table nineLogical ⟨0, ⟨0, 0, 0⟩⟩ =
      [⟨0x5, 8, 0⟩, ⟨0x5, 8, 0⟩, ⟨0x5, 16, 0⟩, ⟨0, 0, 0⟩] := by decide
  have table8 : ScanCall.table nineLogical ⟨8, ⟨8, 0, 0⟩⟩ =
      [⟨0x66, 0, 0⟩, ⟨0x66, 0, 0⟩, ⟨0x66, 0, 0⟩, ⟨0x66, 0, 0⟩] := by decide
  have table16 : ScanCall.table nineLogical ⟨16, ⟨8, 0, 4⟩⟩ =
      [⟨0x66, 0, 0⟩, ⟨0x66, 0, 0⟩, ⟨0x66, 0, 0⟩, ⟨0x66, 0, 0⟩] := by decide
  have table24 : ScanCall.table nineLogical ⟨24, ⟨8, 0, 8⟩⟩ =
      [⟨0x66, 0, 0⟩, ⟨0, 0, 0⟩, ⟨0, 0, 0⟩, ⟨0, 0, 0⟩] := by decide
  have first : scanCall nineLogical 1 ⟨8, ⟨8, 0, 0⟩⟩ = .ok ⟨8, 0, 4⟩ := by
    rw [scanCall_succ (by decide), table8]
    rfl
  have second : scanCall nineLogical 1 ⟨16, ⟨8, 0, 4⟩⟩ = .ok ⟨8, 0, 8⟩ := by
    rw [scanCall_succ (by decide), table16]
    rfl
  have third : scanCall nineLogical 1 ⟨24, ⟨8, 0, 8⟩⟩ = .error (.outOfBounds "logic_parts" 8) := by
    rw [scanCall_succ (by decide), table24]
    rfl
  rw [scanCall_succ (by decide), table0, passEntries_cons_extended rfl]
  refine (bind_ok first).trans ?_
  rw [passEntries_cons_extended rfl]
  refine (bind_ok second).trans ?_
  rw [passEntries_cons_extended rfl]
  exact bind_error third

/-- The ninth is stored behind the array. -/
theorem not_staysInside_nineLogical :
    ScanTerminates nineLogical scanMem 4096 8192 0 ∧
      ¬StaysInside nineLogical scanMem 4096 8192 0 := by
  have leaves : partitionScanBuffered nineLogical 4096 8192 2 0 ⟨scanMem, 0, 0, 0⟩ ⟨0, []⟩ =
      .error (.outOfBounds "logic_parts" 8) :=
    partitionScanBuffered_eq_error.mpr scanCall_nineLogical
  refine ⟨⟨2, .inr ⟨"logic_parts", 8, ?_⟩⟩, fun stays => stays.slots _ _ _ leaves⟩
  rw [← partitionScanBuffered_state nineLogical 2 0 _ ⟨0, []⟩, leaves]
  rfl

end Pumelo
