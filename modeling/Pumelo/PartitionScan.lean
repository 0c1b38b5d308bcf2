import Pumelo.Ide
import Pumelo.List

/-!
# Discovering partitions

`partition_scan` of `ide.c`: it reads the partition table of a sector, records each
partition in a slot of the disk structure and at the end of `partition_list`, and
calls itself for the sector of an extended entry.  The counters and the base of the
extended entries are global, so that what follows an extended entry sees what the
inner calls left.

The contents of the tables are a tree, with an inner table at each extended entry.
The slots that the scan gives to its entries are a walk through the tree.
-/

namespace Pumelo

open Foundation

/-- `struct partition_table_entry`, the fields that the scan reads. -/
structure PartitionTableEntry where
  fsType : UInt8
  startLba : UInt32
  secCnt : UInt32
  deriving DecidableEq, Repr

/-- `bs->partition_table` of a boot sector in a buffer. -/
def partitionTable (bs : Bytes) : List PartitionTableEntry :=
  (List.range 4).map fun partIdx =>
    { fsType := bs (446 + 16 * partIdx + 4)
      startLba := .ofNat (bs.read32 (446 + 16 * partIdx + 8))
      secCnt := .ofNat (bs.read32 (446 + 16 * partIdx + 12)) }

/-- `&hd->prim_parts[index]` -/
def primParts (hd index : Nat) : Nat := hd + 16 + 64 * index

/-- `&hd->logic_parts[index]` -/
def logicParts (hd index : Nat) : Nat := hd + 272 + 64 * index

/-- `&part->part_tag` -/
def partTag (part : Nat) : Nat := part + 12

/-- The characters of the string at `addr`, at most `count`. -/
def cString (mem : Bytes) (addr : Nat) : (count : Nat) → List UInt8
  | 0 => []
  | count + 1 => if mem addr = 0 then [] else mem addr :: cString mem (addr + 1) count

/-- Store characters from `addr` on. -/
def storeString (mem : Bytes) (addr : Nat) : List UInt8 → Bytes
  | [] => mem
  | byte :: rest => storeString (mem.write8 addr byte) (addr + 1) rest

/-- `snprintf(part->name, 8, "%s%d", hd->name, number)` -/
def printName (mem : Bytes) (part hd number : Nat) : Bytes :=
  let digits := (Nat.toDigits 10 number).map fun digit => UInt8.ofNat digit.toNat
  storeString mem (part + 20) ((cString mem hd 7 ++ digits).take 7 ++ [0])

/-- Store the fields of a partition from an entry of the sector `extLba`. -/
def fillPart (mem : Bytes) (hd part : Nat) (extLba : UInt32) (p : PartitionTableEntry) : Bytes :=
  let mem := mem.write32 part (extLba + p.startLba).toNat
  let mem := mem.write32 (part + 4) p.secCnt.toNat
  mem.write32 (part + 8) hd

/-- Record an entry of the sector `extLba` in the slot `part`. -/
def recordPart (mem : Bytes) (plist hd part number : Nat) (extLba : UInt32)
    (p : PartitionTableEntry) : Bytes :=
  let mem := fillPart mem hd part extLba p
  let mem := linkBefore mem (tailer plist) (partTag part)
  printName mem part hd number

/-- Memory and the globals of the scan. -/
structure ScanState where
  mem : Bytes
  extLbaBase : UInt32
  pNo : Nat
  lNo : Nat

section

variable (plist hd : Nat) (extLba : UInt32)

/-- Record an entry in the slot `part`, which lies where `counter` indexes an array. -/
def recordIn (array : String) (size counter part number : Nat) (p : PartitionTableEntry)
    (s : ScanState) : Except Fault ScanState :=
  if counter < size then .ok { s with mem := recordPart s.mem plist hd part number extLba p }
  else .error (.outOfBounds array counter)

/-- Record an entry in `prim_parts[p_no]`. -/
def recordPrim (p : PartitionTableEntry) (s : ScanState) : Except Fault ScanState :=
  recordIn plist hd extLba "prim_parts" 4 s.pNo (primParts hd s.pNo) (s.pNo + 1) p s

/-- Record an entry in `logic_parts[l_no]`. -/
def recordLogic (p : PartitionTableEntry) (s : ScanState) : Except Fault ScanState :=
  recordIn plist hd extLba "logic_parts" 8 s.lNo (logicParts hd s.lNo) (s.lNo + 5) p s

/-- `if (ext_lba_base == 0) p_no++; assert(p_no <= 4);` -/
def advancePNo (s : ScanState) : Except Fault ScanState := do
  let s := if s.extLbaBase = 0 then { s with pNo := s.pNo + 1 } else s
  assert (s.pNo ≤ 4) "p_no <= 4"
  return s

/-- The loop of `partition_scan` over the entries of the sector `extLba`, where `scan`
is the call for an inner sector. -/
def scanEntries (scan : UInt32 → ScanState → Except Fault ScanState) :
    List PartitionTableEntry → ScanState → Except Fault ScanState
  | [], s => .ok s
  | p :: rest, s =>
      if p.fsType = 0x5 then do
        let s ←
          if s.extLbaBase = 0 then scan p.startLba { s with extLbaBase := p.startLba }
          else scan (s.extLbaBase + p.startLba) s
        scanEntries scan rest s
      else if p.fsType = 0x83 then do
        let s ← recordPrim plist hd extLba p s
        let s ← advancePNo s
        scanEntries scan rest s
      else if p.fsType = 0x0 then do
        let s ← advancePNo s
        scanEntries scan rest s
      else if p.fsType = 0x66 then do
        let s ← recordLogic plist hd extLba p s
        let s := { s with lNo := s.lNo + 1 }
        -- the rest of this sector is skipped, and the caller goes on with its own
        if s.lNo ≥ 8 then .ok s else scanEntries scan rest s
      else scanEntries scan rest s

end

/-- `partition_scan`; `fuel` bounds the depth of the recursion. -/
def partitionScan (disk : Bytes) (plist hd : Nat) :
    (fuel : Nat) → UInt32 → ScanState → Except Fault ScanState
  | 0, _, _ => .error .diverge
  | fuel + 1, extLba, s => do
      let bs ← ideRead disk extLba.toNat (fun _ => 0) 1
      scanEntries plist hd extLba (partitionScan disk plist hd fuel) (partitionTable bs) s

/-- The entries of a table from some index on, each with the sector it is in, and the
inner table of each extended entry. -/
inductive PartTree where
  | done
  | entry (lba : UInt32) (p : PartitionTableEntry) (rest : PartTree)
  | extended (inner rest : PartTree)

namespace PartTree

/-- The entries that describe partitions, in the order of a full scan. -/
def entries : PartTree → List (UInt32 × PartitionTableEntry)
  | .done => []
  | .entry lba p rest =>
      if p.fsType = 0x83 ∨ p.fsType = 0x66 then (lba, p) :: rest.entries else rest.entries
  | .extended inner rest => inner.entries ++ rest.entries

/-- How many entries have type 0x66. -/
def logical : PartTree → Nat
  | .done => 0
  | .entry _ p rest => (if p.fsType = 0x66 then 1 else 0) + rest.logical
  | .extended inner rest => inner.logical + rest.logical

/-- How many entries of type 0x83 follow the first extended entry, or all if one has
been entered before. -/
def late : (entered : Bool) → PartTree → Nat
  | _, .done => 0
  | entered, .entry _ p rest =>
      (if entered ∧ p.fsType = 0x83 then 1 else 0) + rest.late entered
  | _, .extended inner rest => inner.late true + rest.late true

/-- Behind the eighth entry of type 0x66, its sector and the sectors reached through
it describe no partition; `before` such entries precede. -/
def EndsAtEighth : (before : Nat) → PartTree → Prop
  | _, .done => True
  | before, .entry _ p rest =>
      if p.fsType = 0x66 then
        if before + 1 = 8 then rest.entries = [] else rest.EndsAtEighth (before + 1)
      else rest.EndsAtEighth before
  | before, .extended inner rest =>
      inner.EndsAtEighth before ∧ rest.EndsAtEighth (before + inner.logical)

instance decidableEndsAtEighth : (before : Nat) → (tree : PartTree) →
    Decidable (tree.EndsAtEighth before)
  | _, .done => inferInstanceAs (Decidable True)
  | before, .entry _ _ rest =>
      have := decidableEndsAtEighth before rest
      have := decidableEndsAtEighth (before + 1) rest
      inferInstanceAs (Decidable (ite _ (ite _ _ _) _))
  | before, .extended inner rest =>
      have := decidableEndsAtEighth before inner
      have := decidableEndsAtEighth (before + inner.logical) rest
      inferInstanceAs (Decidable (_ ∧ _))

/-- How deep the inner tables are nested. -/
def depth : PartTree → Nat
  | .done => 0
  | .entry _ _ rest => rest.depth
  | .extended inner rest => max (inner.depth + 1) rest.depth

/-- How many entries of its own table a tree has. -/
def width : PartTree → Nat
  | .done => 0
  | .entry _ _ rest => rest.width + 1
  | .extended _ rest => rest.width + 1

/-- The number of entries of all its tables. -/
def size : PartTree → Nat
  | .done => 0
  | .entry _ _ rest => rest.size + 1
  | .extended inner rest => inner.size + rest.size + 1

end PartTree

/-- The sector `lba` of a disk in a buffer. -/
def sectorOf (disk : Bytes) (lba : UInt32) : Bytes :=
  Bytes.copy (fun _ => 0) 0 disk (512 * lba.toNat) (512 * 1)

/-- A tree holds the tables that follow from some entries of the sector `lba`, where
`base` is the first sector of the extended partition, or 0 before it is known.  A disk
whose tables form a cycle has no tree. -/
inductive TablesOf (disk : Bytes) :
    (base lba : UInt32) → List PartitionTableEntry → PartTree → (base' : UInt32) → Prop where
  | done {base lba : UInt32} : TablesOf disk base lba [] .done base
  | entry {base lba base' : UInt32} {p : PartitionTableEntry}
      {rest : List PartitionTableEntry} {tree : PartTree} : p.fsType ≠ 0x5 →
      TablesOf disk base lba rest tree base' →
      TablesOf disk base lba (p :: rest) (.entry lba p tree) base'
  | first {lba base' base'' : UInt32} {p : PartitionTableEntry}
      {rest : List PartitionTableEntry} {inner tree : PartTree} : p.fsType = 0x5 →
      p.startLba.toNat ≤ maxLba →
      TablesOf disk p.startLba p.startLba (partitionTable (sectorOf disk p.startLba)) inner base' →
      TablesOf disk base' lba rest tree base'' →
      TablesOf disk 0 lba (p :: rest) (.extended inner tree) base''
  | next {base lba base' base'' : UInt32} {p : PartitionTableEntry}
      {rest : List PartitionTableEntry} {inner tree : PartTree} : p.fsType = 0x5 → base ≠ 0 →
      (base + p.startLba).toNat ≤ maxLba →
      TablesOf disk base (base + p.startLba)
        (partitionTable (sectorOf disk (base + p.startLba))) inner base' →
      TablesOf disk base' lba rest tree base'' →
      TablesOf disk base lba (p :: rest) (.extended inner tree) base''

/-- The tree of the boot sector. -/
def DiskTables (disk : Bytes) (tree : PartTree) : Prop :=
  ∃ base, TablesOf disk 0 0 (partitionTable (sectorOf disk 0)) tree base

/-- An index in one of the two arrays. -/
inductive Slot where
  | prim (index : Nat)
  | logic (index : Nat)
  deriving DecidableEq, Repr

/-- Where the slot is in a disk structure. -/
def Slot.addr (hd : Nat) : Slot → Nat
  | .prim index => primParts hd index
  | .logic index => logicParts hd index

/-- The slot exists. -/
def Slot.Valid : Slot → Prop
  | .prim index => index < 4
  | .logic index => index < 8

/-- The counters, whether an extended entry has been entered, and the entries recorded
so far with their slots. -/
structure Marks where
  pNo : Nat
  lNo : Nat
  entered : Bool
  recorded : List (Slot × UInt32 × PartitionTableEntry)

namespace Marks

/-- The counter behind an entry of type 0x83 or 0x0. -/
def pNext (marks : Marks) : Nat := if marks.entered then marks.pNo else marks.pNo + 1

/-- The slots that were given out. -/
def slots (marks : Marks) : List Slot := marks.recorded.map (·.1)

/-- Give `prim_parts[p_no]` to an entry. -/
def prim (marks : Marks) (lba : UInt32) (p : PartitionTableEntry) : Marks where
  pNo := marks.pNext
  lNo := marks.lNo
  entered := marks.entered
  recorded := marks.recorded ++ [(.prim marks.pNo, lba, p)]

/-- Give `logic_parts[l_no]` to an entry. -/
def logic (marks : Marks) (lba : UInt32) (p : PartitionTableEntry) : Marks where
  pNo := marks.pNo
  lNo := marks.lNo + 1
  entered := marks.entered
  recorded := marks.recorded ++ [(.logic marks.lNo, lba, p)]

/-- Pass an empty entry. -/
def skip (marks : Marks) : Marks := { marks with pNo := marks.pNext }

/-- Enter an extended entry. -/
def enter (marks : Marks) : Marks := { marks with entered := true }

end Marks

/-- The scan of a tree on the counters and slots alone. -/
def PartTree.walk : PartTree → Marks → Option Marks
  | .done, marks => some marks
  | .entry lba p rest, marks =>
      if p.fsType = 0x83 then
        if marks.pNo < 4 then rest.walk (marks.prim lba p) else none
      else if p.fsType = 0x0 then
        if marks.pNext ≤ 4 then rest.walk marks.skip else none
      else if p.fsType = 0x66 then
        if marks.lNo < 8 then
          if marks.lNo + 1 ≥ 8 then some (marks.logic lba p) else rest.walk (marks.logic lba p)
        else none
      else rest.walk marks
  | .extended inner rest, marks => (inner.walk marks.enter).bind rest.walk

/-! ## Slots in memory -/

namespace Slot

/-- The two arrays follow each other. -/
def number : Slot → Nat
  | .prim index => index
  | .logic index => 4 + index

theorem addr_eq (slot : Slot) (hd : Nat) : slot.addr hd = hd + 16 + 64 * slot.number := by
  cases slot with
  | prim index => rfl
  | logic index =>
      simp only [addr, logicParts, number]
      omega

theorem Valid.number_lt {slot : Slot} (valid : slot.Valid) : slot.number < 12 := by
  cases slot with
  | prim index => exact Nat.lt_trans valid (by decide)
  | logic index => exact Nat.add_lt_add_left valid 4

/-- Different slots have different numbers. -/
theorem Valid.number_ne {slot other : Slot} (valid : slot.Valid) (valid' : other.Valid)
    (different : slot ≠ other) : slot.number ≠ other.number := by
  cases slot <;> cases other <;> simp only [Valid, number, ne_eq, prim.injEq, logic.injEq] at * <;>
    omega

/-- The list entry of a slot. -/
def tag (hd : Nat) (slot : Slot) : Nat := partTag (slot.addr hd)

theorem tag_eq (hd : Nat) (slot : Slot) : slot.tag hd = hd + 28 + 64 * slot.number := by
  rw [tag, partTag, addr_eq]
  omega

end Slot

/-- Where the disk structure and `partition_list` are. -/
structure ScanLayout (plist hd : Nat) : Prop where
  hdFits : hd + 784 ≤ 2 ^ 32
  plistFits : plist + 16 ≤ 2 ^ 32
  apart : plist + 16 ≤ hd ∨ hd + 784 ≤ plist

namespace ScanLayout

variable {plist hd : Nat} {slots : List Slot}

/-- Two entries of the list are the same or do not overlap. -/
theorem nodes_apart (layout : ScanLayout plist hd) (valid : ∀ slot ∈ slots, slot.Valid)
    {node other : Nat} (member : node ∈ listNodes plist (slots.map (·.tag hd)))
    (member' : other ∈ listNodes plist (slots.map (·.tag hd))) :
    node = other ∨ Apart 8 node other := by
  have apart := layout.apart
  have place : ∀ {node}, node ∈ listNodes plist (slots.map (·.tag hd)) →
      node = plist ∨ node = plist + 8 ∨ ∃ number, number < 12 ∧ node = hd + 28 + 64 * number := by
    intro node member
    rcases mem_listNodes.mp member with rfl | member | rfl
    · exact .inl rfl
    · obtain ⟨slot, slotMem, rfl⟩ := List.mem_map.mp member
      exact .inr (.inr ⟨slot.number, (valid slot slotMem).number_lt, slot.tag_eq hd⟩)
    · exact .inr (.inl rfl)
  unfold Apart
  rcases place member with rfl | rfl | ⟨number, numberLt, rfl⟩ <;>
    rcases place member' with rfl | rfl | ⟨number', numberLt', rfl⟩ <;> omega

/-- The entries lie in the address space. -/
theorem node_small (layout : ScanLayout plist hd) (valid : ∀ slot ∈ slots, slot.Valid)
    {node : Nat} (member : node ∈ listNodes plist (slots.map (·.tag hd))) :
    node + 8 ≤ 2 ^ 32 := by
  have plistFits := layout.plistFits
  have hdFits := layout.hdFits
  rcases mem_listNodes.mp member with rfl | member | rfl
  · omega
  · obtain ⟨slot, slotMem, rfl⟩ := List.mem_map.mp member
    have numberLt := (valid slot slotMem).number_lt
    rw [slot.tag_eq hd]
    omega
  · rw [tailer]
    omega

end ScanLayout

/-- Every link between some list entries goes to one of them, whether or not they form
a list. -/
structure Closed (mem : Bytes) (plist : Nat) (tags : List Nat) : Prop where
  next : ∀ node ∈ plist :: tags, nextOf mem node ∈ tailer plist :: tags
  prev : ∀ node ∈ tailer plist :: tags, prevOf mem node ∈ plist :: tags

namespace Closed

variable {mem mem' : Bytes} {plist elem : Nat} {tags nodes : List Nat}

/-- Closed links depend on the bytes of the entries only. -/
theorem congr (closed : Closed mem plist tags)
    (agree : ∀ query, ¬Outside (listNodes plist tags) query → mem' query = mem query) :
    Closed mem' plist tags := by
  have word : ∀ node ∈ listNodes plist tags,
      nextOf mem' node = nextOf mem node ∧ prevOf mem' node = prevOf mem node := by
    intro node member
    have byte : ∀ query, node ≤ query → query < node + 8 → mem' query = mem query :=
      fun query lower upper => agree query fun outside => by
        have := outside node member
        omega
    exact ⟨Bytes.read32_congr fun query lower upper => byte query (by omega) (by omega),
      Bytes.read32_congr fun query lower upper => byte query (by omega) (by omega)⟩
  constructor
  · intro node member
    rw [(word node (mem_listNodes.mpr (by simp at member; tauto))).1]
    exact closed.next node member
  · intro node member
    rw [(word node (mem_listNodes.mpr (by simp at member; tauto))).2]
    exact closed.prev node member

/-- The entries of a list are closed. -/
theorem of_empty (list : ListAt mem plist []) : Closed mem plist [] where
  next node member := by
    rw [List.mem_singleton.mp member]
    exact List.mem_singleton.mpr list.links.1
  prev node member := by
    rw [List.mem_singleton.mp member]
    exact List.mem_singleton.mpr list.links.2.1

/-- A list that starts among closed entries stays among them. -/
theorem subset (closed : Closed mem plist tags) (list : ListAt mem plist nodes) :
    nodes ⊆ tags := by
  have follow : ∀ {first nodes},
    Linked (nextOf mem) (prevOf mem) (first :: nodes ++ [tailer plist]) →
      tailer plist ∉ nodes → first ∈ plist :: tags → nodes ⊆ tags := by
    intro first nodes links last start
    induction nodes generalizing first with
    | nil => simp
    | cons node nodes ih =>
        have linked := links.1
        have next := closed.next first start
        rw [linked, List.mem_cons] at next
        rw [List.mem_cons, not_or] at last
        have member := next.resolve_left (Ne.symm last.1)
        exact List.cons_subset.mpr ⟨member, ih links.tail last.2 (List.mem_cons_of_mem _ member)⟩
  exact follow list.links list.tailer_not_mem List.mem_cons_self

/-- `list_append` keeps links closed, also when the entry is in the list already. -/
theorem append (closed : Closed mem plist tags)
    (small : ∀ node ∈ listNodes plist (elem :: tags), node < 2 ^ 32)
    (apart : ∀ node ∈ listNodes plist (elem :: tags), ∀ other ∈ listNodes plist (elem :: tags),
      node = other ∨ Apart 8 node other)
    (notTailer : tailer plist ∉ elem :: tags) :
    Closed (linkBefore mem (tailer plist) elem) plist (elem :: tags) := by
  have widen : ∀ {first node}, node ∈ first :: tags → node ∈ first :: elem :: tags := by
    intro first node member
    exact (List.mem_cons.mp member).elim (· ▸ List.mem_cons_self) fun member =>
      List.mem_cons_of_mem _ (List.mem_cons_of_mem _ member)
  have elemMem : elem ∈ plist :: elem :: tags := List.mem_cons_of_mem _ List.mem_cons_self
  have inList : ∀ {node}, node ∈ plist :: elem :: tags → node ∈ listNodes plist (elem :: tags) :=
    fun member => mem_listNodes.mpr ((List.mem_cons.mp member).imp_right .inl)
  have tailerMem : tailer plist ∈ listNodes plist (elem :: tags) :=
    mem_listNodes.mpr (.inr (.inr rfl))
  have split : ∀ node ∈ plist :: elem :: tags, Apart 8 (tailer plist) node := by
    intro node member
    refine (apart _ tailerMem node (inList member)).resolve_left ?_
    rintro rfl
    rcases List.mem_cons.mp member with equal | member
    · simp [tailer] at equal
    · exact notTailer member
  generalize lastEq : prevOf mem (tailer plist) = last
  have lastMem : last ∈ plist :: tags := lastEq ▸ closed.prev _ List.mem_cons_self
  have elemSmall := small elem (inList elemMem)
  have tailerSmall := small (tailer plist) tailerMem
  have lastSmall := small last (inList (widen lastMem))
  have tailerLast := split last (widen lastMem)
  have tailerElem := split elem elemMem
  have elemLast := apart elem (inList elemMem) last (inList (widen lastMem))
  have linked : linkBefore mem (tailer plist) elem =
      (((mem.write32 (last + 4) elem).write32 elem last).write32 (elem + 4)
        (tailer plist)).write32 (tailer plist) elem := by
    have again : prevOf (mem.write32 (last + 4) elem) (tailer plist) = last := by
      unfold Apart at tailerLast
      rw [prevOf, Bytes.read32_write32_of_disjoint _ _ (by omega)]
      exact lastEq
    simp only [linkBefore, lastEq, again]
  rw [linked]
  constructor
  · intro node member
    have tailerNode := split node member
    have elemNode := apart elem (inList elemMem) node (inList member)
    have lastNode := apart last (inList (widen lastMem)) node (inList member)
    unfold Apart at tailerLast tailerElem elemLast tailerNode elemNode lastNode
    rw [nextOf, Bytes.read32_write32_of_disjoint _ _ (by omega)]
    by_cases self : node = elem
    · rw [self, Bytes.read32_write32_self _ tailerSmall]
      exact List.mem_cons_self
    · rw [Bytes.read32_write32_of_disjoint _ _ (by omega),
        Bytes.read32_write32_of_disjoint _ _ (by omega)]
      by_cases behind : node = last
      · rw [behind, Bytes.read32_write32_self _ elemSmall]
        exact List.mem_cons_of_mem _ List.mem_cons_self
      · rw [Bytes.read32_write32_of_disjoint _ _ (by omega)]
        rw [List.mem_cons, List.mem_cons, or_left_comm] at member
        exact widen (closed.next node (List.mem_cons.mpr (member.resolve_left self)))
  · intro node member
    by_cases front : node = tailer plist
    · rw [front, prevOf, Bytes.read32_write32_self _ elemSmall]
      exact elemMem
    · have inner : node ∈ plist :: elem :: tags :=
        List.mem_cons_of_mem _ ((List.mem_cons.mp member).resolve_left front)
      have tailerNode := split node inner
      have elemNode := apart elem (inList elemMem) node (inList inner)
      have lastNode := apart last (inList (widen lastMem)) node (inList inner)
      unfold Apart at tailerLast tailerElem elemLast tailerNode elemNode lastNode
      rw [prevOf, Bytes.read32_write32_of_disjoint _ _ (by omega),
        Bytes.read32_write32_of_disjoint _ _ (by omega)]
      by_cases self : node = elem
      · rw [self, Bytes.read32_write32_self _ lastSmall]
        exact widen lastMem
      · rw [Bytes.read32_write32_of_disjoint _ _ (by omega),
          Bytes.read32_write32_of_disjoint _ _ (by omega)]
        rw [List.mem_cons, List.mem_cons, or_left_comm] at member
        exact widen (closed.prev node (List.mem_cons.mpr (member.resolve_left self)))

theorem of_subset {tags' : List Nat} (closed : Closed mem plist tags)
    (same : ∀ node, node ∈ tags ↔ node ∈ tags') : Closed mem plist tags' where
  next node member := by
    have next := closed.next node (by rwa [List.mem_cons, same, ← List.mem_cons])
    rwa [List.mem_cons, same, ← List.mem_cons] at next
  prev node member := by
    have prev := closed.prev node (by rwa [List.mem_cons, same, ← List.mem_cons])
    rwa [List.mem_cons, same, ← List.mem_cons] at prev

end Closed

theorem storeString_of_outside (mem : Bytes) {addr query : Nat} {text : List UInt8}
    (outside : query < addr ∨ addr + text.length ≤ query) :
    storeString mem addr text query = mem query := by
  induction text generalizing mem addr with
  | nil => rfl
  | cons byte rest ih =>
      rw [List.length_cons] at outside
      rw [storeString, ih _ (by omega), Bytes.write8_of_ne _ _ (by omega)]

theorem printName_of_outside (mem : Bytes) {part query : Nat} (hd number : Nat)
    (outside : query < part + 20 ∨ part + 28 ≤ query) :
    printName mem part hd number query = mem query := by
  refine storeString_of_outside mem ?_
  rw [List.length_append, List.length_take, List.length_singleton]
  omega

/-- The sector and the size of a partition are in its slot. -/
def FieldsAt (mem : Bytes) (hd : Nat) (entry : Slot × UInt32 × PartitionTableEntry) : Prop :=
  mem.read32 (entry.1.addr hd) = (entry.2.1 + entry.2.2.startLba).toNat ∧
    mem.read32 (entry.1.addr hd + 4) = entry.2.2.secCnt.toNat

theorem fillPart_of_outside (mem : Bytes) {hd part query : Nat} (lba : UInt32)
    (p : PartitionTableEntry) (outside : query < part ∨ part + 12 ≤ query) :
    fillPart mem hd part lba p query = mem query := by
  simp only [fillPart]
  rw [Bytes.write32_of_outside _ _ (by omega), Bytes.write32_of_outside _ _ (by omega),
    Bytes.write32_of_outside _ _ (by omega)]

theorem fieldsAt_fillPart (mem : Bytes) (hd : Nat) (slot : Slot) (lba : UInt32)
    (p : PartitionTableEntry) :
    FieldsAt (fillPart mem hd (slot.addr hd) lba p) hd (slot, lba, p) := by
  simp only [FieldsAt, fillPart]
  rw [Bytes.read32_write32_of_disjoint _ _ (by omega),
    Bytes.read32_write32_of_disjoint _ _ (by omega),
      Bytes.read32_write32_self _ (UInt32.toNat_lt _),
    Bytes.read32_write32_of_disjoint _ _ (by omega),
      Bytes.read32_write32_self _ (UInt32.toNat_lt _)]
  exact ⟨rfl, rfl⟩

/-- The fields depend on the first eight bytes of the slot. -/
theorem FieldsAt.congr {mem mem' : Bytes} {hd : Nat} {entry : Slot × UInt32 × PartitionTableEntry}
    (fields : FieldsAt mem hd entry)
    (agree : ∀ query, entry.1.addr hd ≤ query → query < entry.1.addr hd + 8 →
      mem' query = mem query) : FieldsAt mem' hd entry := by
  constructor
  · rw [← fields.1]
    exact Bytes.read32_congr fun query lower upper => agree query lower (by omega)
  · rw [← fields.2]
    exact Bytes.read32_congr fun query lower upper => agree query (by omega) (by omega)

namespace ScanLayout

variable {plist hd : Nat} {slots : List Slot} {slot : Slot}

/-- The bytes of the list entries are no others of a slot. -/
theorem node_byte (layout : ScanLayout plist hd) (valid : ∀ slot ∈ slots, slot.Valid)
    (validSlot : slot.Valid) {query : Nat}
    (inside : ¬Outside (listNodes plist (slots.map (·.tag hd))) query) :
    (query < slot.addr hd ∨ slot.addr hd + 12 ≤ query) ∧
      (query < slot.addr hd + 20 ∨ slot.addr hd + 28 ≤ query) := by
  have apart := layout.apart
  have numberLt := validSlot.number_lt
  simp only [Outside, not_forall] at inside
  obtain ⟨node, member, near⟩ := inside
  rw [slot.addr_eq]
  rcases mem_listNodes.mp member with rfl | member | rfl
  · omega
  · obtain ⟨other, otherMem, rfl⟩ := List.mem_map.mp member
    have otherLt := (valid other otherMem).number_lt
    rw [other.tag_eq] at near
    omega
  · rw [tailer] at near
    omega

/-- The tailer is no entry of a slot. -/
theorem tailer_not_mem (layout : ScanLayout plist hd) (valid : ∀ slot ∈ slots, slot.Valid) :
    tailer plist ∉ slots.map (·.tag hd) := by
  have apart := layout.apart
  rw [List.mem_map]
  rintro ⟨other, member, equal⟩
  have otherLt := (valid other member).number_lt
  rw [other.tag_eq, tailer] at equal
  omega

/-- The entry of a slot that is not in use overlaps none in use. -/
theorem fresh_tag (layout : ScanLayout plist hd) (valid : ∀ slot ∈ slots, slot.Valid)
    (validSlot : slot.Valid) (fresh : slot ∉ slots) :
    ∀ node ∈ listNodes plist (slots.map (·.tag hd)), Apart 8 (slot.tag hd) node := by
  intro node member
  have apart := layout.apart
  have numberLt := validSlot.number_lt
  unfold Apart
  rw [slot.tag_eq]
  rcases mem_listNodes.mp member with rfl | member | rfl
  · omega
  · obtain ⟨other, otherMem, rfl⟩ := List.mem_map.mp member
    have different := validSlot.number_ne (valid other otherMem) fun equal =>
      fresh (equal ▸ otherMem)
    rw [other.tag_eq]
    omega
  · rw [tailer]
    omega

end ScanLayout

/-- What memory holds for the entries recorded so far: if no two share a slot, then all
that they should, and in any case no list but one of their slots. -/
structure Recorded (mem : Bytes) (plist hd : Nat)
    (recorded : List (Slot × UInt32 × PartitionTableEntry)) : Prop where
  valid : ∀ slot ∈ recorded.map (·.1), slot.Valid
  closed : Closed mem plist ((recorded.map (·.1)).map (·.tag hd))
  list : (recorded.map (·.1)).Nodup → ListAt mem plist ((recorded.map (·.1)).map (·.tag hd))
  fields : (recorded.map (·.1)).Nodup → ∀ entry ∈ recorded, FieldsAt mem hd entry

namespace Recorded

variable {mem mem' : Bytes} {plist hd : Nat} {slot : Slot} {lba : UInt32}
  {p : PartitionTableEntry} {recorded : List (Slot × UInt32 × PartitionTableEntry)}

/-- The name of a slot is part of nothing else. -/
theorem printName (layout : ScanLayout plist hd) (rec : Recorded mem plist hd recorded)
    (validSlot : slot.Valid) (number : Nat) :
    Recorded (printName mem (slot.addr hd) hd number) plist hd recorded := by
  have kept : ∀ query, query < slot.addr hd + 20 ∨ slot.addr hd + 28 ≤ query →
      Pumelo.printName mem (slot.addr hd) hd number query = mem query :=
    fun _ => printName_of_outside mem hd number
  refine ⟨rec.valid, ?_, fun nodup => ?_, fun nodup entry member => ?_⟩
  · exact rec.closed.congr fun query inside =>
      kept query (layout.node_byte rec.valid validSlot inside).2
  · exact (rec.list nodup).congr fun query inside =>
      kept query (layout.node_byte rec.valid validSlot inside).2
  · refine (rec.fields nodup entry member).congr fun query lower upper => kept query ?_
    rw [slot.addr_eq]
    rw [entry.1.addr_eq] at lower upper
    omega

/-- Filling a slot and appending its entry to the list. -/
theorem fillPart (layout : ScanLayout plist hd) (rec : Recorded mem plist hd recorded)
    (validSlot : slot.Valid) :
    Recorded (linkBefore (fillPart mem hd (slot.addr hd) lba p) (tailer plist) (slot.tag hd))
      plist hd (recorded ++ [(slot, lba, p)]) := by
  obtain ⟨valid, closed, list, fields⟩ := rec
  have slotsEq : (recorded ++ [(slot, lba, p)]).map (·.1) = recorded.map (·.1) ++ [slot] := by simp
  have validCons : ∀ other ∈ slot :: recorded.map (·.1), other.Valid :=
    List.forall_mem_cons.mpr ⟨validSlot, valid⟩
  have filledFields := fieldsAt_fillPart mem hd slot lba p
  have filledOutside : ∀ query, query < slot.addr hd ∨ slot.addr hd + 12 ≤ query →
      Pumelo.fillPart mem hd (slot.addr hd) lba p query = mem query :=
    fun _ => fillPart_of_outside mem lba p
  generalize Pumelo.fillPart mem hd (slot.addr hd) lba p = filled at filledFields filledOutside ⊢
  have filledClosed : Closed filled plist ((recorded.map (·.1)).map (·.tag hd)) :=
    closed.congr fun query inside =>
      filledOutside query (layout.node_byte valid validSlot inside).1
  refine ⟨fun other member => ?_, ?_, fun nodup => ?_, fun nodup => ?_⟩
  · rw [slotsEq, List.mem_append, List.mem_singleton] at member
    exact member.elim (valid other) (· ▸ validSlot)
  · have linked : Closed (linkBefore filled (tailer plist) (slot.tag hd)) plist
        ((slot :: recorded.map (·.1)).map (·.tag hd)) := by
      refine filledClosed.append (fun node member => ?_)
        (fun node member other member' => layout.nodes_apart validCons member member')
        (layout.tailer_not_mem validCons)
      have := layout.node_small validCons member
      omega
    rw [slotsEq]
    exact linked.of_subset fun node => by simp [or_comm]
  all_goals
    rw [slotsEq, List.nodup_append] at nodup
    obtain ⟨nodup, -, different⟩ := nodup
    have fresh : slot ∉ recorded.map (·.1) := fun member =>
      different slot member slot (List.mem_singleton.mpr rfl) rfl
    have filledList : ListAt filled plist ((recorded.map (·.1)).map (·.tag hd)) :=
      (list nodup).congr fun query inside =>
        filledOutside query (layout.node_byte valid validSlot inside).1
    have hdFits := layout.hdFits
    have numberLt := validSlot.number_lt
  · have small : slot.tag hd + 8 ≤ 2 ^ 32 := by
      rw [slot.tag_eq]
      omega
    rw [slotsEq, List.map_append]
    exact filledList.append (layout.fresh_tag valid validSlot fresh) small
  · intro entry member
    -- linking writes in list entries only
    have linkedOutside : ∀ other : Slot, other.Valid → ∀ query, other.addr hd ≤ query →
        query < other.addr hd + 8 →
        linkBefore filled (tailer plist) (slot.tag hd) query = filled query := by
      intro other validOther query lower upper
      refine filledList.append_of_outside fun node nodeMem => ?_
      by_contra near
      have inside : ¬Outside (listNodes plist ((slot :: recorded.map (·.1)).map (·.tag hd)))
          query := by
        intro outside
        refine near (outside node ?_)
        rw [mem_listNodes, List.map_cons, List.mem_cons]
        rcases List.mem_cons.mp nodeMem with rfl | nodeMem
        · exact .inr (.inl (.inl rfl))
        · have := mem_listNodes.mp nodeMem
          tauto
      have := (layout.node_byte validCons validOther inside).1
      omega
    rcases List.mem_append.mp member with member | member
    · have validEntry : entry.1.Valid := valid entry.1 (List.mem_map_of_mem member)
      have separate := validEntry.number_ne validSlot fun equal =>
        fresh (equal ▸ List.mem_map_of_mem member)
      refine (fields nodup entry member).congr fun query lower upper => ?_
      rw [linkedOutside entry.1 validEntry query lower upper]
      refine filledOutside query ?_
      rw [slot.addr_eq]
      rw [entry.1.addr_eq] at lower upper
      omega
    · rw [List.mem_singleton.mp member]
      exact filledFields.congr fun query lower upper =>
        linkedOutside slot validSlot query lower upper

/-- Recording an entry in a slot that exists. -/
theorem recordPart (layout : ScanLayout plist hd) (rec : Recorded mem plist hd recorded)
    (validSlot : slot.Valid) (number : Nat) (lba : UInt32) (p : PartitionTableEntry) :
    Recorded (recordPart mem plist hd (slot.addr hd) number lba p) plist hd
      (recorded ++ [(slot, lba, p)]) :=
  (rec.fillPart layout validSlot).printName layout validSlot number

end Recorded

/-! ## The scan walks through the tree -/

namespace TablesOf

variable {disk : Bytes} {base base' lba : UInt32} {table : List PartitionTableEntry}
  {tree : PartTree}

/-- The base is set once. -/
theorem base_eq (tables : TablesOf disk base lba table tree base') (set : base ≠ 0) :
    base' = base := by
  induction tables with
  | done => rfl
  | entry _ _ ih => exact ih set
  | first => exact absurd rfl set
  | next _ _ _ _ _ inner rest =>
      have kept := inner set
      subst kept
      exact rest set

/-- A first extended entry that leads to sector 0 has the boot sector as its inner
table. -/
theorem exists_boot (tables : TablesOf disk base lba table tree base') (unset : base = 0)
    {p : PartitionTableEntry} (found : table.find? (·.fsType = 0x5) = some p)
    (zero : p.startLba = 0) :
    ∃ inner base'', TablesOf disk 0 0 (partitionTable (sectorOf disk 0)) inner base'' ∧
      inner.size < tree.size := by
  induction tables with
  | done => cases found
  | entry plain _ ih =>
      rw [List.find?_cons_of_neg (by simpa using plain)] at found
      obtain ⟨inner, base'', tables, smaller⟩ := ih unset found
      exact ⟨inner, base'', tables, Nat.lt_succ_of_lt smaller⟩
  | first extended _ inner _ _ _ =>
      rw [List.find?_cons_of_pos (by simpa using extended)] at found
      cases found
      rw [zero] at inner
      refine ⟨_, _, inner, ?_⟩
      simp only [PartTree.size]
      omega
  | next _ set => exact absurd unset set

/-- The first extended entry of a boot sector that is not its own inner table leads
elsewhere. -/
theorem first_ne_zero (tables : TablesOf disk 0 0 (partitionTable (sectorOf disk 0)) tree base')
    {p : PartitionTableEntry}
    (found : (partitionTable (sectorOf disk 0)).find? (·.fsType = 0x5) = some p) :
    p.startLba ≠ 0 := by
  intro zero
  induction small : tree.size using Nat.strong_induction_on generalizing tree base' with
  | _ size ih =>
      obtain ⟨inner, base'', tables', smaller⟩ := tables.exists_boot rfl found zero
      exact ih _ (small ▸ smaller) tables' rfl

end TablesOf

/-- The counters and slots of a state of the scan. -/
structure Represents (plist hd : Nat) (s : ScanState) (marks : Marks) : Prop where
  pNo : s.pNo = marks.pNo
  lNo : s.lNo = marks.lNo
  entered : marks.entered = true ↔ s.extLbaBase ≠ 0
  recorded : Recorded s.mem plist hd marks.recorded

/-- How a scan from a state with base `base` ends when the walk ends with `marks`. -/
def Outcome (plist hd : Nat) (base : UInt32) (result : Except Fault ScanState) :
    Option Marks → Prop
  | none => ∃ fault, result = .error fault
  | some marks =>
      ∃ s, result = .ok s ∧ Represents plist hd s marks ∧ (base ≠ 0 → s.extLbaBase = base)

section

variable {plist hd : Nat} {s : ScanState} {marks : Marks} {lba : UInt32}
  {p : PartitionTableEntry} {disk : Bytes} {base base' : UInt32}
  {table : List PartitionTableEntry} {tree : PartTree}

theorem Represents.pNext (rep : Represents plist hd s marks) :
    (if s.extLbaBase = 0 then s.pNo + 1 else s.pNo) = marks.pNext := by
  rw [Marks.pNext, rep.pNo]
  by_cases base : s.extLbaBase = 0
  · have outside : ¬marks.entered = true := fun entered => rep.entered.mp entered base
    rw [if_pos base, if_neg outside]
  · rw [if_neg base, if_pos (rep.entered.mpr base)]

theorem advancePNo_ok (rep : Represents plist hd s marks) (small : marks.pNext ≤ 4) :
    advancePNo s = .ok { s with pNo := marks.pNext } := by
  have next := rep.pNext
  rw [advancePNo]
  by_cases base : s.extLbaBase = 0
  · rw [if_pos base] at next ⊢
    rw [bind_ok (assert_of (next.symm ▸ small) _), next]
    rfl
  · rw [if_neg base] at next ⊢
    rw [bind_ok (assert_of (next.symm ▸ small) _), ← next]
    rfl

theorem advancePNo_error (rep : Represents plist hd s marks) (large : ¬marks.pNext ≤ 4) :
    ∃ fault, advancePNo s = .error fault := by
  have next := rep.pNext
  rw [advancePNo]
  by_cases base : s.extLbaBase = 0
  · rw [if_pos base] at next ⊢
    rw [bind_error (assert_of_not (next.symm ▸ large) _)]
    exact ⟨_, rfl⟩
  · rw [if_neg base] at next ⊢
    rw [bind_error (assert_of_not (next.symm ▸ large) _)]
    exact ⟨_, rfl⟩

theorem Marks.pNo_le_pNext (marks : Marks) : marks.pNo ≤ marks.pNext := by
  rw [Marks.pNext]
  split <;> omega

theorem Marks.pNext_le (marks : Marks) (small : marks.pNo < 4) : marks.pNext ≤ 4 := by
  rw [Marks.pNext]
  split <;> omega

/-- Recording an entry of type 0x83. -/
theorem recordPrim_ok (layout : ScanLayout plist hd) (rep : Represents plist hd s marks)
    (small : marks.pNo < 4) (lba : UInt32) (p : PartitionTableEntry) :
    ∃ recorded s', recordPrim plist hd lba p s = .ok recorded ∧ advancePNo recorded = .ok s' ∧
      Represents plist hd s' (marks.prim lba p) ∧ s'.extLbaBase = s.extLbaBase := by
  have stored := rep.recorded.recordPart layout (show (Slot.prim marks.pNo).Valid from small)
    (s.pNo + 1) lba p
  have between : Represents plist hd
      { s with
        mem := recordPart s.mem plist hd ((Slot.prim marks.pNo).addr hd) (s.pNo + 1) lba p }
      { marks with recorded := marks.recorded ++ [(.prim marks.pNo, lba, p)] } :=
    ⟨rep.pNo, rep.lNo, rep.entered, stored⟩
  refine ⟨_, _, ?_, advancePNo_ok between (marks.pNext_le small), ?_, rfl⟩
  · rw [recordPrim, recordIn, if_pos (rep.pNo ▸ small), rep.pNo]
    rfl
  · exact ⟨rfl, rep.lNo, rep.entered, stored⟩

/-- Recording an entry of type 0x66. -/
theorem recordLogic_ok (layout : ScanLayout plist hd) (rep : Represents plist hd s marks)
    (small : marks.lNo < 8) (lba : UInt32) (p : PartitionTableEntry) :
    ∃ recorded, recordLogic plist hd lba p s = .ok recorded ∧
      Represents plist hd { recorded with lNo := recorded.lNo + 1 } (marks.logic lba p) ∧
      recorded.lNo = marks.lNo ∧ recorded.extLbaBase = s.extLbaBase := by
  have stored := rep.recorded.recordPart layout (show (Slot.logic marks.lNo).Valid from small)
    (s.lNo + 5) lba p
  have run : recordLogic plist hd lba p s = .ok
      { s with
        mem := recordPart s.mem plist hd ((Slot.logic marks.lNo).addr hd) (s.lNo + 5) lba p } := by
    rw [recordLogic, recordIn, if_pos (rep.lNo ▸ small), rep.lNo]
    rfl
  exact ⟨_, run, ⟨rep.pNo, congrArg (· + 1) rep.lNo, rep.entered, stored⟩, rep.lNo, rfl⟩

/-- A scan that ends as a scan from a state with the same base. -/
theorem Outcome.of_base {result : Except Fault ScanState} {walked : Option Marks}
    (outcome : Outcome plist hd base' result walked) (same : base ≠ 0 → base' = base) :
    Outcome plist hd base result walked := by
  cases walked with
  | none => exact outcome
  | some marks =>
      obtain ⟨s, run, rep, kept⟩ := outcome
      refine ⟨s, run, rep, fun set => ?_⟩
      have equal := same set
      exact (kept (equal ▸ set)).trans equal

/-- The scan of a sector on the disk. -/
theorem partitionScan_succ (fuel : Nat) (inside : lba.toNat ≤ maxLba) (s : ScanState) :
    partitionScan disk plist hd (fuel + 1) lba s =
      scanEntries plist hd lba (partitionScan disk plist hd fuel)
        (partitionTable (sectorOf disk lba)) s := by
  rw [partitionScan, bind_ok (ideRead_of_le (by decide) (Nat.succ_le_succ inside))]
  rfl

/-- A scan goes on behind an extended entry as the walk behind its inner table. -/
theorem Outcome.bind {result : Except Fault ScanState} {walked : Option Marks}
    {rest : ScanState → Except Fault ScanState} {walk : Marks → Option Marks} (set : base ≠ 0)
    (outcome : Outcome plist hd base result walked)
    (next : ∀ s marks, Represents plist hd s marks → s.extLbaBase = base →
      Outcome plist hd base (rest s) (walk marks)) :
    Outcome plist hd base (result >>= rest) (walked.bind walk) := by
  cases walked with
  | none =>
      obtain ⟨fault, fails⟩ := outcome
      rw [bind_error fails]
      exact ⟨fault, rfl⟩
  | some marks =>
      obtain ⟨s, run, rep, kept⟩ := outcome
      rw [bind_ok run]
      exact next s marks rep (kept set)

/-- The loop over a table does what the walk through its tree says. -/
theorem scanEntries_walk (layout : ScanLayout plist hd)
    (tables : TablesOf disk base lba table tree base') {fuel : Nat} (deep : tree.depth ≤ fuel)
    (rep : Represents plist hd s marks) (baseEq : s.extLbaBase = base)
    (elsewhere : base = 0 → ∀ p, table.find? (·.fsType = 0x5) = some p → p.startLba ≠ 0) :
    Outcome plist hd base
      (scanEntries plist hd lba (partitionScan disk plist hd fuel) table s) (tree.walk marks) := by
  induction tables generalizing fuel s marks with
  | done => exact ⟨s, rfl, rep, fun _ => baseEq⟩
  | @entry base lba base' p rest tree plain tables ih =>
      have elsewhere' : base = 0 → ∀ p, rest.find? (·.fsType = 0x5) = some p → p.startLba ≠ 0 := by
        intro unset other found
        refine elsewhere unset other ?_
        rw [List.find?_cons_of_neg (by simpa using plain)]
        exact found
      rw [scanEntries, PartTree.walk, if_neg plain]
      split
      · split
        · next linux small =>
            obtain ⟨recorded, s', run, advance, rep', kept⟩ := recordPrim_ok layout rep small lba p
            rw [bind_ok run, bind_ok advance]
            exact ih deep rep' (kept.trans baseEq) elsewhere'
        · next linux large =>
            rw [recordPrim, recordIn, if_neg (rep.pNo ▸ large)]
            exact ⟨_, rfl⟩
      · split
        · next empty =>
            split
            · next small =>
                rw [bind_ok (advancePNo_ok rep small)]
                exact ih deep ⟨rfl, rep.lNo, rep.entered, rep.recorded⟩ baseEq elsewhere'
            · next large =>
                obtain ⟨fault, fails⟩ := advancePNo_error rep large
                rw [bind_error fails]
                exact ⟨_, rfl⟩
        · split
          · split
            · next logical small =>
                obtain ⟨recorded, run, rep', counter, kept⟩ := recordLogic_ok layout rep small lba p
                rw [bind_ok run]
                dsimp only
                rw [counter]
                rw [counter] at rep'
                split
                · exact ⟨_, rfl, rep', fun _ => kept.trans baseEq⟩
                · exact ih deep rep' (kept.trans baseEq) elsewhere'
            · next logical large =>
                rw [recordLogic, recordIn, if_neg (rep.lNo ▸ large)]
                exact ⟨_, rfl⟩
          · exact ih deep rep baseEq elsewhere'
  | @first lba base' base'' p rest inner tree extended inside innerTables restTables ihInner
      ihRest =>
      have set : p.startLba ≠ 0 :=
        elsewhere rfl p (List.find?_cons_of_pos (by simpa using extended))
      have same := innerTables.base_eq set
      subst same
      obtain ⟨fuel, rfl⟩ : ∃ left, fuel = left + 1 :=
        Nat.exists_eq_succ_of_ne_zero (by simp only [PartTree.depth] at deep; omega)
      simp only [PartTree.depth, Nat.max_le, Nat.succ_le_succ_iff] at deep
      have entered : Represents plist hd { s with extLbaBase := p.startLba } marks.enter :=
        ⟨rep.pNo, rep.lNo, iff_of_true rfl set, rep.recorded⟩
      have innerRun := ihInner deep.1 entered rfl fun unset => absurd unset set
      rw [← partitionScan_succ fuel inside] at innerRun
      rw [scanEntries, if_pos extended, if_pos baseEq, PartTree.walk]
      refine Outcome.of_base (Outcome.bind set innerRun fun s marks rep baseEq => ?_)
        (absurd rfl)
      exact ihRest deep.2 rep baseEq fun unset => absurd unset set
  | @next base lba base' base'' p rest inner tree extended set inside innerTables restTables ihInner
      ihRest =>
      have same := innerTables.base_eq set
      subst same
      obtain ⟨fuel, rfl⟩ : ∃ left, fuel = left + 1 :=
        Nat.exists_eq_succ_of_ne_zero (by simp only [PartTree.depth] at deep; omega)
      simp only [PartTree.depth, Nat.max_le, Nat.succ_le_succ_iff] at deep
      have entered : Represents plist hd s marks.enter :=
        ⟨rep.pNo, rep.lNo, iff_of_true rfl (baseEq ▸ set), rep.recorded⟩
      have innerRun := ihInner deep.1 entered baseEq fun unset => absurd unset set
      rw [← partitionScan_succ fuel inside] at innerRun
      rw [scanEntries, if_pos extended, if_neg (baseEq ▸ set), PartTree.walk, baseEq]
      exact Outcome.bind set innerRun fun s marks rep baseEq =>
        ihRest deep.2 rep baseEq fun unset => absurd unset set

end

end Pumelo
