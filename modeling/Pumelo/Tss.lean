import Pumelo.Foundation.TaskState
import Pumelo.IntrRun
import Pumelo.UserRun

/-!
# The task state

`tss_init` puts the task state and the segments of programs outside the kernel into the table that
the loader set up.  What the processor then finds for an interrupt is the gate of the process that
`update_tss_esp` was called for; the ports are another matter.
-/

namespace Pumelo

open Foundation

/-- `GDT_BASE`, as the kernel sees it. -/
def gdtBase : Nat := 0xc0000d08

/-- The words that the loader is assembled with, from `GDT_BASE` to `USER_DATA_DESC`. -/
def gdtWords : List UInt16 :=
  [ 0, 0, 0, 0
  , 0xffff, 0x0000, 0x9800, 0x00cf
  , 0xffff, 0x0000, 0x9200, 0x00cf
  , 0x0007, 0x8000, 0x920b, 0x00c0
  , 0, 0, 0, 0
  , 0, 0, 0, 0
  , 0, 0, 0, 0 ]

/-- The table as the loader leaves it: before the last `lgdt` it moves the video segment up. -/
def loaderGdt (mem : Bytes) : Bytes :=
  let mem := mem.store gdtBase (gdtWords.flatMap bytes16)
  mem.write32 (gdtBase + 0x1c) (mem.read32 (gdtBase + 0x1c) ||| 0xc0000000)

/-- `SELECTOR_TSS` -/
def SELECTOR_TSS : Nat := (0x4 <<< 3) + (0 <<< 2) + 0

/-- `TSS_ATTR_LOW` -/
def tssAttrLow : UInt8 := .ofNat ((1 <<< 7) + (0 <<< 5) + (0 <<< 4) + 9)

/-- `TSS_ATTR_HIGH` -/
def tssAttrHigh : UInt8 := .ofNat ((1 <<< 7) + (0 <<< 6) + (0 <<< 5) + (0 <<< 4) + 0x0)

/-- `GDT_CODE_ATTR_LOW_DPL3` -/
def gdtCodeAttrLowDpl3 : UInt8 := .ofNat ((1 <<< 7) + (3 <<< 5) + (1 <<< 4) + 8)

/-- `GDT_DATA_ATTR_LOW_DPL3` -/
def gdtDataAttrLowDpl3 : UInt8 := .ofNat ((1 <<< 7) + (3 <<< 5) + (1 <<< 4) + 2)

/-- `GDT_ATTR_HIGH` -/
def gdtAttrHigh : UInt8 := .ofNat ((1 <<< 7) + (1 <<< 6) + (0 <<< 5) + (0 <<< 4))

/-- `tss_init`, up to where it loads the registers. -/
def tssInit (mem : Bytes) (tss : UInt32) : Bytes :=
  let mem := mem.fill tss.toNat 0 108
  let mem := mem.write32 (tss.toNat + 8) SELECTOR_KERNEL_STACK
  let mem := mem.write32 (tss.toNat + 104) 108
  let mem := mem.store 0xc0000d28 (makeGdtDesc tss (108 - 1) tssAttrLow tssAttrHigh).image
  let mem := mem.store 0xc0000d30 (makeGdtDesc 0 0xfffff gdtCodeAttrLowDpl3 gdtAttrHigh).image
  mem.store 0xc0000d38 (makeGdtDesc 0 0xfffff gdtDataAttrLowDpl3 gdtAttrHigh).image

/-- What `tss_init` loads with `lgdt`. -/
def tssGdtr : Gdtr := Gdtr.load ((8 * 7 - 1) ||| (0xc0000d08 <<< 16))

/-- `update_tss_esp` -/
def storeTssEsp (mem : Bytes) (tss : UInt32) (pthread : Nat) : Bytes :=
  mem.write32 (tss.toNat + 4) (updateTssEsp pthread)

/-- The tables in memory: the loader's, those of `idt_init` and `tss_init`, and the stack of the
process that runs. -/
def interruptTables (mem : Bytes) (idt tss : UInt32) (entries : Nat → UInt32) (thread : Nat) :
    Bytes :=
  storeTssEsp (tssInit (idtDescInit (loaderGdt mem) idt.toNat entries) tss) tss thread

/-- The tables lie apart from each other. -/
structure TablesApart (idt tss : UInt32) : Prop where
  idtFits : idt.toNat + 400 ≤ 2 ^ 32
  tssFits : tss.toNat + 108 ≤ 2 ^ 32
  gdtIdt : idt.toNat + 400 ≤ gdtBase ∨ gdtBase + 56 ≤ idt.toNat
  gdtTss : tss.toNat + 108 ≤ gdtBase ∨ gdtBase + 56 ≤ tss.toNat
  idtTss : idt.toNat + 400 ≤ tss.toNat ∨ tss.toNat + 108 ≤ idt.toNat

/-- The segments that the table describes. -/
def segmentTable (tss : UInt32) : List (Option Segment) :=
  [ none
  , some ⟨0, 0xfffff, 0x98, 0xc0⟩
  , some ⟨0, 0xfffff, 0x92, 0xc0⟩
  , some ⟨0xc00b8000, 7, 0x92, 0xc0⟩
  , some ⟨tss, 107, tssAttrLow, tssAttrHigh⟩
  , some ⟨0, 0xfffff, gdtCodeAttrLowDpl3, gdtAttrHigh⟩
  , some ⟨0, 0xfffff, gdtDataAttrLowDpl3, gdtAttrHigh⟩ ]

/-- The words of the task state. -/
def tssWord (thread index : Nat) : Nat :=
  if index = 1 then updateTssEsp thread
  else if index = 2 then SELECTOR_KERNEL_STACK
  else if index = 26 then 108
  else 0

/-- A byte of one of the tables. -/
def TableByte (idt tss : UInt32) (query : Nat) : Prop :=
  (gdtBase ≤ query ∧ query < gdtBase + 56) ∨ (idt.toNat ≤ query ∧ query < idt.toNat + 400) ∨
    (tss.toNat ≤ query ∧ query < tss.toNat + 108)

/-- The bits that the processor sets itself: `ltr` marks the task state as busy, and the other
segments are marked when their selectors are loaded. -/
def processorBits (query : Nat) : UInt8 :=
  if query = gdtBase + 37 then 0x02
  else if query ∈ [gdtBase + 13, gdtBase + 21, gdtBase + 29, gdtBase + 45, gdtBase + 53] then 0x01
  else 0

theorem tssGdtr_eq : tssGdtr = ⟨55, gdtBase⟩ := by decide

section Tables

variable {mem : Bytes} {idt tss : UInt32} {entries : Nat → UInt32} {thread : Nat}

theorem idtDescInit_of_outside (base : Nat) {query : Nat}
    (outside : query < base ∨ base + 400 ≤ query) :
    idtDescInit mem base entries query = mem query := by
  have every : ∀ count ≤ 50, (List.range count).foldl (fun mem i => mem.store (base + 8 * i)
      (makeIntrDescriptor idtDescAttrDpl0 (entries i)).image) mem query = mem query := by
    intro count few
    induction count with
    | zero => rfl
    | succ count ih =>
        have split : List.range (count + 1) = List.range count ++ [count] := List.range_succ
        have length : (makeIntrDescriptor idtDescAttrDpl0 (entries count)).image.length = 8 := rfl
        simp only [split, List.foldl_append, List.foldl_cons, List.foldl_nil]
        rw [Bytes.store_of_outside _ (by omega), ih (by omega)]
  exact every 50 (Nat.le_refl _)

/-- `tss_init` and `update_tss_esp` write into the task state and the last three segments. -/
theorem tssInit_of_outside {query : Nat} (tssOutside : query < tss.toNat ∨ tss.toNat + 108 ≤ query)
    (gdtOutside : query < gdtBase + 32 ∨ gdtBase + 56 ≤ query) :
    storeTssEsp (tssInit mem tss) tss thread query = mem query := by
  have length (base limit : UInt32) (low high : UInt8) :
      (makeGdtDesc base limit low high).image.length = 8 :=
    rfl
  simp only [gdtBase] at gdtOutside
  simp only [storeTssEsp, tssInit]
  rw [Bytes.write32_of_outside _ _ (by omega), Bytes.store_of_outside _ (by rw [length]; omega),
    Bytes.store_of_outside _ (by rw [length]; omega),
      Bytes.store_of_outside _ (by rw [length]; omega),
    Bytes.write32_of_outside _ _ (by omega), Bytes.write32_of_outside _ _ (by omega),
    Bytes.fill_of_outside _ _ (by omega)]

theorem loaderGdt_of_inside (mem : Bytes) {query : Nat} (lower : gdtBase ≤ query)
    (upper : query < gdtBase + 56) : loaderGdt mem query = loaderGdt (fun _ => 0) query := by
  have length : (gdtWords.flatMap bytes16).length = 56 := rfl
  have stored : ∀ query, gdtBase ≤ query → query < gdtBase + 56 →
      mem.store gdtBase (gdtWords.flatMap bytes16) query =
        Bytes.store (fun _ => 0) gdtBase (gdtWords.flatMap bytes16) query :=
          fun query lower upper =>
    Bytes.store_of_inside mem _ lower (by rw [length]; exact upper)
  have word : (mem.store gdtBase (gdtWords.flatMap bytes16)).read32 (gdtBase + 0x1c) =
      (Bytes.store (fun _ => 0) gdtBase (gdtWords.flatMap bytes16)).read32 (gdtBase + 0x1c) :=
    Bytes.read32_congr fun query lower upper => stored query (by omega) (by omega)
  simp only [loaderGdt, word, Bytes.write32, stored query lower upper]

/-- The segments of the loader stay as they are. -/
theorem segment_loader (apart : TablesApart idt tss) {selector : Nat} (first : selector / 8 < 4) :
    tssGdtr.segment (interruptTables mem idt tss entries thread) selector =
      tssGdtr.segment (loaderGdt fun _ => 0) selector := by
  have gdtIdt := apart.gdtIdt
  have gdtTss := apart.gdtTss
  refine Gdtr.segment_congr _ ?_
  rw [tssGdtr_eq]
  dsimp only
  intro query lower upper
  rw [interruptTables, tssInit_of_outside (by omega) (by omega),
    idtDescInit_of_outside _ (by omega), loaderGdt_of_inside mem (by omega) (by omega)]

/-- A descriptor of `tss_init` is in its place, whatever is stored behind it. -/
theorem take_tssInit (apart : TablesApart idt tss) (pthread : Nat) :
    (storeTssEsp (tssInit mem tss) tss pthread).take 0xc0000d28 8 =
        (makeGdtDesc tss 107 tssAttrLow tssAttrHigh).image ∧
      (storeTssEsp (tssInit mem tss) tss pthread).take 0xc0000d30 8 =
        (makeGdtDesc 0 0xfffff gdtCodeAttrLowDpl3 gdtAttrHigh).image ∧
      (storeTssEsp (tssInit mem tss) tss pthread).take 0xc0000d38 8 =
        (makeGdtDesc 0 0xfffff gdtDataAttrLowDpl3 gdtAttrHigh).image := by
  have gdtTss := apart.gdtTss
  have length (base limit : UInt32) (low high : UInt8) :
      (makeGdtDesc base limit low high).image.length = 8 :=
    rfl
  have stored (mem : Bytes) (addr : Nat) (base limit : UInt32) (low high : UInt8) :
      (mem.store addr (makeGdtDesc base limit low high).image).take addr 8 =
        (makeGdtDesc base limit low high).image := Bytes.take_store mem
  simp only [gdtBase] at gdtTss
  simp only [storeTssEsp, tssInit]
  refine ⟨?_, ?_, ?_⟩
  · rw [Bytes.take_write32_of_outside _ _ (by omega),
      Bytes.take_store_of_outside _ (.inl (by decide)),
        Bytes.take_store_of_outside _ (.inl (by decide)), stored]
    rfl
  · rw [Bytes.take_write32_of_outside _ _ (by omega),
      Bytes.take_store_of_outside _ (.inl (by decide)), stored]
  · rw [Bytes.take_write32_of_outside _ _ (by omega), stored]

theorem segment_tssGdtr (mem : Bytes) {selector index : Nat} (at' : selector / 8 = index)
    (gdt : ¬selector / 4 % 2 = 1) (first : index ≠ 0) (last : index ≤ 6) :
    tssGdtr.segment mem selector = Segment.decode (mem.take (gdtBase + 8 * index) 8) := by
  rw [tssGdtr_eq, Gdtr.segment, at', if_neg (not_or.mpr ⟨first, gdt⟩),
    if_pos (by dsimp only; omega)]

theorem decode_loaderGdt : ∀ index < 4, index ≠ 0 →
    Segment.decode ((loaderGdt fun _ => 0).take (gdtBase + 8 * index) 8) =
      (segmentTable 0).getD index none := by
  decide +kernel

/-- The segments of the loader and, behind them, those that `tss_init` makes. -/
theorem segment_interruptTables (apart : TablesApart idt tss) (selector : Nat) :
    tssGdtr.segment (interruptTables mem idt tss entries thread) selector =
      if selector / 4 % 2 = 1 then none else (segmentTable tss).getD (selector / 8) none := by
  by_cases ldt : selector / 4 % 2 = 1
  · rw [if_pos ldt, Gdtr.segment, if_pos (.inr ldt)]
  rw [if_neg ldt]
  obtain ⟨tssDesc, codeDesc, dataDesc⟩ :=
    @take_tssInit (idtDescInit (loaderGdt mem) idt.toNat entries) idt tss apart thread
  obtain zero | loader | at4 | at5 | at6 | behind : selector / 8 = 0 ∨
      (selector / 8 < 4 ∧ selector / 8 ≠ 0) ∨ selector / 8 = 4 ∨ selector / 8 = 5 ∨
        selector / 8 = 6 ∨
        7 ≤ selector / 8 := by omega
  · rw [Gdtr.segment, if_pos (.inl zero), zero]
    rfl
  · have same : ∀ index < 4, (segmentTable tss).getD index none =
        (segmentTable 0).getD index none := by
      intro index small
      obtain rfl | rfl | rfl | rfl : index = 0 ∨ index = 1 ∨ index = 2 ∨ index = 3 := by omega
      all_goals rfl
    rw [segment_loader apart loader.1, segment_tssGdtr _ rfl ldt loader.2 (by omega),
      decode_loaderGdt _ loader.1 loader.2, same _ loader.1]
  · rw [segment_tssGdtr _ at4 ldt (by decide) (by decide), at4]
    exact (congrArg Segment.decode tssDesc).trans
      (decode_gdtDesc tss (by decide) tssAttrLow (by decide))
  · rw [segment_tssGdtr _ at5 ldt (by decide) (by decide), at5]
    exact (congrArg Segment.decode codeDesc).trans
      (decode_gdtDesc 0 (by decide) gdtCodeAttrLowDpl3 (by decide))
  · rw [segment_tssGdtr _ at6 ldt (by decide) (by decide), at6]
    exact (congrArg Segment.decode dataDesc).trans
      (decode_gdtDesc 0 (by decide) gdtDataAttrLowDpl3 (by decide))
  · have none : (segmentTable tss).getD (selector / 8) none = none :=
      List.getD_eq_default _ _ behind
    rw [none, tssGdtr_eq, Gdtr.segment, if_neg (not_or.mpr ⟨by omega, ldt⟩),
      if_neg (by dsimp only; omega)]

/-- The gates are those of `idt_init`. -/
theorem gate_interruptTables (apart : TablesApart idt tss) {vec : Nat}
    (inside : vec < IDT_DESC_CNT) :
    (lidt idt (8 * IDT_DESC_CNT)).gate (interruptTables mem idt tss entries thread) vec =
      some ⟨entries vec, selectorKernelCode, idtDescAttrDpl0⟩ := by
  have count : IDT_DESC_CNT = 50 := rfl
  have gdtIdt := apart.gdtIdt
  have idtTss := apart.idtTss
  have same : (lidt idt (8 * IDT_DESC_CNT)).gate (interruptTables mem idt tss entries thread) vec =
      (lidt idt (8 * IDT_DESC_CNT)).gate (idtDescInit (loaderGdt mem) idt.toNat entries) vec := by
    refine Idtr.gate_congr _ ?_
    rw [lidt_idt]
    dsimp only
    intro query lower upper
    exact tssInit_of_outside (by omega) (by omega)
  rw [same, gate_idtDescInit (loaderGdt mem) idt entries inside]

/-- The words of the task state are those of `tss_init`, but for `esp0`. -/
theorem tssWord_interruptTables (apart : TablesApart idt tss) {index : Nat} (small : index < 27) :
    (interruptTables mem idt tss entries thread).read32 (tss.toNat + 4 * index) =
      tssWord thread index := by
  have gdtTss := apart.gdtTss
  have length (base limit : UInt32) (low high : UInt8) :
      (makeGdtDesc base limit low high).image.length = 8 :=
    rfl
  simp only [gdtBase] at gdtTss
  have filled : ∀ index < 27,
    (Bytes.fill (idtDescInit (loaderGdt mem) idt.toNat entries) tss.toNat 0 108).read32
      (tss.toNat + 4 * index) = 0 := by
    intro index small
    have zero : ∀ offset < 108,
      Bytes.fill (idtDescInit (loaderGdt mem) idt.toNat entries) tss.toNat 0 108
        (tss.toNat + offset) = 0 := fun offset inside =>
      Bytes.fill_of_inside _ _ (by omega) (by omega)
    simp only [Bytes.read32, Nat.add_assoc]
    rw [zero _ (by omega), zero _ (by omega), zero _ (by omega), zero _ (by omega)]
    rfl
  simp only [interruptTables, storeTssEsp, tssInit, tssWord]
  by_cases isEsp : index = 1
  · rw [if_pos isEsp, isEsp]
    exact Bytes.read32_write32_self _ (Nat.mod_lt _ (by decide))
  rw [if_neg isEsp, Bytes.read32_write32_of_disjoint _ _ (by omega),
    Bytes.read32_store_of_outside _ (by rw [length]; omega),
    Bytes.read32_store_of_outside _ (by rw [length]; omega),
    Bytes.read32_store_of_outside _ (by rw [length]; omega)]
  by_cases isBase : index = 26
  · rw [if_neg (by omega), if_pos isBase, isBase]
    exact Bytes.read32_write32_self _ (by decide)
  rw [Bytes.read32_write32_of_disjoint _ _ (by omega)]
  by_cases isSs : index = 2
  · rw [if_pos isSs, isSs]
    exact Bytes.read32_write32_self _ (by decide)
  · rw [if_neg isSs, if_neg isBase, Bytes.read32_write32_of_disjoint _ _ (by omega),
      filled index small]

end Tables

/-! ## What the processor finds -/

section Found

variable {old mem : Bytes} {idt tss : UInt32} {entries : Nat → UInt32} {thread : Nat}

theorem processorBits_of_ne {query : Nat} (other : ∀ index < 7, query ≠ gdtBase + 8 * index + 5) :
    processorBits query = 0 := by
  have access1 := other 1 (by decide)
  have access2 := other 2 (by decide)
  have access3 := other 3 (by decide)
  have access4 := other 4 (by decide)
  have access5 := other 5 (by decide)
  have access6 := other 6 (by decide)
  unfold processorBits
  rw [if_neg (by omega), if_neg]
  simp only [List.mem_cons, List.not_mem_nil, or_false]
  omega

theorem byte_kept (kept : ∀ query, TableByte idt tss query → mem query ||| processorBits query =
      interruptTables old idt tss entries thread query ||| processorBits query)
    {query : Nat} (inside : TableByte idt tss query)
    (other : ∀ index < 7, query ≠ gdtBase + 8 * index + 5) :
    mem query = interruptTables old idt tss entries thread query := by
  have byte := kept query inside
  rwa [processorBits_of_ne other, UInt8.or_zero, UInt8.or_zero] at byte

theorem tssWord_kept (apart : TablesApart idt tss)
    (kept : ∀ query, TableByte idt tss query → mem query ||| processorBits query =
      interruptTables old idt tss entries thread query ||| processorBits query)
    {index : Nat} (small : index < 27) :
    mem.read32 (tss.toNat + 4 * index) = tssWord thread index := by
  have gdtTss := apart.gdtTss
  rw [← @tssWord_interruptTables old idt tss entries thread apart index small]
  exact Bytes.read32_congr fun query lower upper =>
    byte_kept kept (.inr (.inr ⟨by omega, by omega⟩)) fun _ _ => by omega

/-- The segments are those of the tables, but for the bits of the processor in the access byte. -/
theorem segment_kept (apart : TablesApart idt tss)
    (kept : ∀ query, TableByte idt tss query → mem query ||| processorBits query =
      interruptTables old idt tss entries thread query ||| processorBits query)
    (selector : Nat) : tssGdtr.segment mem selector =
      (if selector / 4 % 2 = 1 then none else (segmentTable tss).getD (selector / 8) none).map
        fun segment => { segment with access := mem (gdtBase + 8 * (selector / 8) + 5) } := by
  rw [← @segment_interruptTables old idt tss entries thread apart selector]
  by_cases behind : selector / 8 ≤ 6
  · rw [tssGdtr_eq]
    refine Gdtr.segment_access _ fun query lower upper other => ?_
    dsimp only at lower upper other
    refine byte_kept kept (.inl ⟨by omega, by omega⟩) fun index small => ?_
    omega
  · have limit : ¬8 * (selector / 8) + 7 ≤ (⟨55, gdtBase⟩ : Gdtr).limit := by
      dsimp only
      omega
    rw [tssGdtr_eq, Gdtr.segment, Gdtr.segment, if_neg limit, if_neg limit, ite_self]
    rfl

theorem gate_kept (apart : TablesApart idt tss)
    (kept : ∀ query, TableByte idt tss query → mem query ||| processorBits query =
      interruptTables old idt tss entries thread query ||| processorBits query)
    {vec : Nat} (inside : vec < IDT_DESC_CNT) : (lidt idt (8 * IDT_DESC_CNT)).gate mem vec =
      some ⟨entries vec, selectorKernelCode, idtDescAttrDpl0⟩ := by
  have count : IDT_DESC_CNT = 50 := rfl
  have gdtIdt := apart.gdtIdt
  rw [← @gate_interruptTables old idt tss entries thread apart vec inside]
  refine Idtr.gate_congr _ ?_
  rw [lidt_idt]
  dsimp only
  exact fun query lower upper =>
    byte_kept kept (.inr (.inl ⟨by omega, by omega⟩)) fun _ _ => by omega

/-- The access bytes are those of the segments, but for the bits of the processor. -/
theorem access_kept (apart : TablesApart idt tss)
    (kept : ∀ query, TableByte idt tss query → mem query ||| processorBits query =
      interruptTables old idt tss entries thread query ||| processorBits query)
    {index : Nat} {segment : Segment} (at' : (segmentTable tss).getD index none = some segment) :
    mem (gdtBase + 8 * index + 5) ||| processorBits (gdtBase + 8 * index + 5) =
      segment.access ||| processorBits (gdtBase + 8 * index + 5) := by
  have small : index < 7 := by
    by_contra behind
    rw [List.getD_eq_default _ _ (Nat.not_lt.mp behind)] at at'
    cases at'
  have place : 8 * index / 8 = index := Nat.mul_div_cancel_left index (by decide)
  have same := @Gdtr.segment_access tssGdtr (interruptTables old idt tss entries thread)
    (interruptTables old idt tss entries thread) (8 * index) fun _ _ _ _ => rfl
  rw [@segment_interruptTables old idt tss entries thread apart, if_neg (by omega), place, at',
    Option.map_some] at same
  have byte : segment.access = interruptTables old idt tss entries thread
      (tssGdtr.base + 8 * index + 5) := congrArg Segment.access (Option.some.inj same)
  rw [tssGdtr_eq] at byte
  rw [byte]
  exact kept _ (.inl ⟨by omega, by omega⟩)

/-- Whatever else the kernel stores, the processor finds for an interrupt the stub of its vector and
the stack of the process that runs, and its selectors name the segments of the loader and of
`tss_init`, with access bytes that differ in the processor's own bits at most. -/
theorem tables_found (apart : TablesApart idt tss)
    (kept : ∀ query, TableByte idt tss query → mem query ||| processorBits query =
      interruptTables old idt tss entries thread query ||| processorBits query) :
    (∀ vec, Core.Gate.fetch mem (lidt idt (8 * IDT_DESC_CNT)) tssGdtr SELECTOR_TSS vec =
        if vec < IDT_DESC_CNT then some (processGate thread (entries vec).toNat) else none) ∧
      (∀ selector, tssGdtr.segment mem selector =
        (if selector / 4 % 2 = 1 then none else (segmentTable tss).getD (selector / 8) none).map
          fun segment => { segment with access := mem (gdtBase + 8 * (selector / 8) + 5) }) ∧
      ∀ index segment, (segmentTable tss).getD index none = some segment →
        mem (gdtBase + 8 * index + 5) ||| processorBits (gdtBase + 8 * index + 5) =
          segment.access ||| processorBits (gdtBase + 8 * index + 5) := by
  refine ⟨fun vec => ?_, segment_kept apart kept, fun _ _ => access_kept apart kept⟩
  have task : tssGdtr.segment mem SELECTOR_TSS =
      some ⟨tss, 107, mem (gdtBase + 37), tssAttrHigh⟩ :=
    segment_kept apart kept SELECTOR_TSS
  have esp : mem.read32 (tss.toNat + 4) = updateTssEsp thread :=
    @tssWord_kept old mem idt tss entries thread apart kept 1 (by decide)
  have ss : mem.read32 (tss.toNat + 8) = SELECTOR_KERNEL_STACK :=
    @tssWord_kept old mem idt tss entries thread apart kept 2 (by decide)
  rw [Core.Gate.fetch, task]
  split
  · next inside =>
      rw [gate_kept apart kept inside]
      simp only [Option.bind_eq_bind, Option.bind_some, Option.pure_def, Segment.esp0, Segment.ss0,
        esp, ss]
      rfl
  · next behind =>
      rw [@gate_behind mem idt vec (Nat.not_lt.mp behind)]
      rfl

/-- The map of the ports is the task state itself: `io_base` lies behind the place where the
processor looks for it. -/
theorem ports_permitted (apart : TablesApart idt tss)
    (kept : ∀ query, TableByte idt tss query → mem query ||| processorBits query =
      interruptTables old idt tss entries thread query ||| processorBits query)
    (access : UInt8) {port : Nat} (small : port < 8 * 108) :
    Segment.Permits ⟨tss, 107, access, tssAttrHigh⟩ mem port ↔
      port ∉ [68, 834, 835, 837, 838] ∧
        ¬(32 ≤ port ∧ port < 64 ∧ (updateTssEsp thread).testBit (port - 32) = true) := by
  have trace : mem.read32 (tss.toNat + 100) = 0 :=
    @tssWord_kept old mem idt tss entries thread apart kept 25 (by decide)
  have map : Segment.portMap ⟨tss, 107, access, tssAttrHigh⟩ mem = 0 := by
    rw [Segment.portMap, trace, Nat.zero_div]
  have last : Segment.last ⟨tss, 107, access, tssAttrHigh⟩ = 442367 := by
    have pages : (tssAttrHigh &&& 0x80 = 0) = False := by decide
    simp only [Segment.last, pages, if_false]
    rfl
  have place : 8 * (tss.toNat + 0) + port =
    8 * (tss.toNat + 4 * (port / 32)) + port % 32 := by omega
  have word := @tssWord_kept old mem idt tss entries thread apart kept (port / 32) (by omega)
  rw [Segment.Permits, map, last, place, Bytes.bit_word _ _ (Nat.mod_lt _ (by decide)),
    word, tssWord]
  have inside : 0 + port / 8 + 1 ≤ 442367 := by omega
  simp only [inside, true_and, List.mem_cons, List.not_mem_nil, or_false]
  split
  · next isEsp =>
      have shift : port % 32 = port - 32 := by omega
      rw [shift]
      cases (updateTssEsp thread).testBit (port - 32) <;> simp <;> omega
  split
  · next isSs =>
      have bits : ∀ i < 32, SELECTOR_KERNEL_STACK.testBit i = decide (i = 4) := by decide
      rw [bits _ (Nat.mod_lt _ (by decide)), decide_eq_false_iff_not]
      omega
  split
  · next isBase =>
      have bits : ∀ i < 32, Nat.testBit 108 i = decide (i = 2 ∨ i = 3 ∨ i = 5 ∨ i = 6) := by decide
      rw [bits _ (Nat.mod_lt _ (by decide)), decide_eq_false_iff_not]
      omega
  · rw [Nat.zero_testBit]
    refine iff_of_true rfl ?_
    omega

theorem tablesApart_image : TablesApart 0xc0010000 0xc0011000 := by
  refine ⟨?_, ?_, ?_, ?_, ?_⟩ <;> decide

/-- The tables of a kernel with its gates from 0xc0001500 on, when `ltr` has marked the task state
and the kernel's code segment is in use. -/
def markedTables : Bytes := fun query =>
  let mem := interruptTables (fun _ => 0xcc) 0xc0010000 0xc0011000
    (fun vec => 0xc0001500 + .ofNat vec) 0xc0100000
  if query = gdtBase + 37 ∨ query = gdtBase + 13 then mem query ||| processorBits query
  else mem query

theorem markedTables_kept (query : Nat) : markedTables query ||| processorBits query =
    interruptTables (fun _ => 0xcc) 0xc0010000 0xc0011000 (fun vec => 0xc0001500 + .ofNat vec)
      0xc0100000 query ||| processorBits query := by
  unfold markedTables
  split
  · rw [UInt8.or_assoc, UInt8.or_self]
  · rfl

/-- The timer interrupts a process outside the kernel. -/
theorem tables_found_timer :
    Core.Gate.fetch markedTables (lidt 0xc0010000 (8 * IDT_DESC_CNT)) tssGdtr SELECTOR_TSS 0x20 =
      some (processGate 0xc0100000 0xc0001520) :=
  (tables_found tablesApart_image fun query _ => markedTables_kept query).1 0x20

/-- A process may use the first port of the disk, and not port 68. -/
theorem ports_permitted_disk :
    Segment.Permits ⟨0xc0011000, 107, 0x8b, tssAttrHigh⟩ markedTables 0x1f0 ∧
      ¬Segment.Permits ⟨0xc0011000, 107, 0x8b, tssAttrHigh⟩ markedTables 68 := by
  have permitted {port : Nat} :=
    @ports_permitted (fun _ => 0xcc) markedTables 0xc0010000 0xc0011000 _
    0xc0100000 tablesApart_image (fun query _ => markedTables_kept query) 0x8b port
  exact ⟨(permitted (by decide)).mpr (by decide),
    fun permits => ((permitted (by decide)).mp permits).1 (by decide)⟩

end Found

end Pumelo
