import Pumelo.Descriptors
import Pumelo.Foundation.Pic
import Pumelo.Foundation.Priority
import Pumelo.Interrupt

/-!
# Interrupt lines

`idt_init`, and the way of an interrupt from the line of a device through the controllers
and the gate to the stub, in runs.  The timer, the keyboard and the first disk channel
have the lines that are not masked.
-/

namespace Pumelo

open Foundation

def IDT_DESC_CNT : Nat := 0x32

/-- `IDT_DESC_ATTR_DPL0` -/
def idtDescAttrDpl0 : UInt8 := .ofNat ((1 <<< 7) + (0 <<< 5) + 0xe)

/-- `idt_desc_init`; `entries` is what the linker puts in `intr_entry_table`. -/
def idtDescInit (mem : Bytes) (idt : Nat) (entries : Nat → UInt32) : Bytes :=
  (List.range IDT_DESC_CNT).foldl
    (fun mem i => mem.store (idt + 8 * i) (makeIntrDescriptor idtDescAttrDpl0 (entries i)).image)
      mem

/-- The ports and bytes of `pic_init`. -/
def picInit : List (Nat × Nat) :=
  [ (0x20, 0x11), (0x21, 0x20), (0x21, 0x04), (0x21, 0x01)
  , (0xa0, 0x11), (0xa1, 0x28), (0xa1, 0x02), (0xa1, 0x01)
  , (0x21, 0xfe), (0xa1, 0xff)
  , (0x21, 0xfc), (0xa1, 0xff)
  , (0x21, 0xf8), (0xa1, 0xbf) ]

/-- `lidt` -/
def lidt (p : UInt32) (size : Nat) : Idtr :=
  Idtr.load (.ofNat (size - 1)) p.toUInt16 (p >>> 16).toUInt16

/-- The processor and the controllers, as far as interrupts go.  `entered` is the address of the
stub that is entered, up to its call. -/
structure Intr where
  mem : Bytes
  idtr : Idtr
  pics : Pics
  interrupts : Bool
  entered : Option UInt32

/-- `idt_init`, before interrupts are enabled. -/
def idtInit (mem : Bytes) (pics : Pics) (idt : UInt32) (entries : Nat → UInt32) : Option Intr :=
  (pics.outbs picInit).map fun pics => {
    mem := idtDescInit mem idt.toNat entries
    idtr := lidt idt (8 * IDT_DESC_CNT)
    pics
    interrupts := false
    entered := none }

/-- The kernel in memory, with the stubs that `intr_entry_table` points to. -/
structure StubImage where
  entries : Nat → UInt32
  code : UInt32 → List StubInstr
  linked : ∀ vec < 51, code (entries vec) = intrEntryTable.getD vec []

/-- What happens between two instructions of the kernel: a device puts its line up, an
interrupt, one whose line has gone down again, an exception, the instructions of a stub up to its
call, and the interrupt flag. -/
inductive IntrEvent where
  | raise (slave : Bool) (line : Fin 8)
  | irq (vec : Nat)
  | spurious (vec : Nat)
  | exception (vec : Nat)
  | stub
  | flag (on : Bool)
  deriving DecidableEq

namespace Intr

/-- The processor goes through the gate of a vector. -/
def enter (s : Intr) (vec : Nat) : Option Intr :=
  (s.idtr.gate s.mem vec).map fun gate => { s with
    interrupts := s.interrupts && !decide gate.Masks
    entered := some gate.offset }

/-- A device puts its line up. -/
def raise (s : Intr) (slave : Bool) (line : Fin 8) : Intr :=
  { s with pics := s.pics.raise slave line }

variable (image : StubImage)

/-- The steps.  A stub is not left for another interrupt before its call, and the interrupt flag
is its own. -/
inductive Does : IntrEvent → Intr → Intr → Prop where
  | raise (s : Intr) (slave : Bool) (line : Fin 8) : Does (.raise slave line) s (s.raise slave line)
  | irq {s next : Intr} {vec : Nat} {pics : Pics} : s.entered = none → s.interrupts →
      s.pics.acknowledge = some (vec, pics) → { s with pics }.enter vec = some next →
      Does (.irq vec) s next
  | spurious {s next : Intr} {vec : Nat} {pics : Pics} : s.entered = none → s.interrupts →
      s.pics.Spurious vec pics → { s with pics }.enter vec = some next → Does (.spurious vec) s next
  | exception {s next : Intr} {vec : Nat} : s.entered = none → vec < 32 →
      s.enter vec = some next → Does (.exception vec) s next
  | stub {s : Intr} {addr : UInt32} {core : Core} {written : List (Nat × Nat)} {pics : Pics} :
      s.entered = some addr → (core.run (image.code addr)).ports = written ++ core.ports →
      s.pics.outbs written.reverse = some pics →
      Does .stub s { s with pics, entered := none }
  | flag {s : Intr} (on : Bool) : s.entered = none → Does (.flag on) s { s with interrupts := on }

end Intr

section Gates

variable (mem : Bytes) (idt : UInt32) (entries : Nat → UInt32)

/-- The gates that are stored stay as they are. -/
theorem take_gates (base : Nat) {count i : Nat} (inside : i < count) :
    ((List.range count).foldl (fun mem i => mem.store (base + 8 * i)
      (makeIntrDescriptor idtDescAttrDpl0 (entries i)).image) mem).take (base + 8 * i) 8 =
      (makeIntrDescriptor idtDescAttrDpl0 (entries i)).image := by
  induction count with
  | zero => omega
  | succ count ih =>
      have split : List.range (count + 1) = List.range count ++ [count] := List.range_succ
      simp only [split, List.foldl_append, List.foldl_cons, List.foldl_nil]
      by_cases last : i = count
      · rw [last]
        exact Bytes.take_store _
      · rw [← ih (by omega)]
        exact Bytes.take_congr fun query lower upper => Bytes.store_of_outside _ (.inl (by omega))

theorem lidt_idt : lidt idt (8 * IDT_DESC_CNT) = ⟨399, idt.toNat⟩ := by
  have bound := idt.toNat_lt
  have amount : (16 : UInt32).toNat % 32 = 16 := rfl
  have low : idt.toUInt16.toNat = idt.toNat % 2 ^ 16 := UInt32.toNat_toUInt16 idt
  have high : (idt >>> 16).toUInt16.toNat = idt.toNat / 2 ^ 16 % 2 ^ 16 := by
    rw [UInt32.toNat_toUInt16, UInt32.toNat_shiftRight, amount, Nat.shiftRight_eq_div_pow]
  rw [lidt, Idtr.load, low, high]
  refine congrArg (Idtr.mk 399) ?_
  omega

/-- The gate of a vector is an interrupt gate of the kernel, to the vector's stub. -/
theorem gate_idtDescInit {vec : Nat} (inside : vec < IDT_DESC_CNT) :
    (lidt idt (8 * IDT_DESC_CNT)).gate (idtDescInit mem idt.toNat entries) vec =
      some ⟨entries vec, selectorKernelCode, idtDescAttrDpl0⟩ := by
  have count : IDT_DESC_CNT = 50 := rfl
  rw [lidt_idt, Idtr.gate, if_pos (by simp only; omega), idtDescInit,
    take_gates mem entries _ inside,
    decode_intrDescriptor]

/-- Behind the last gate there is none. -/
theorem gate_behind {vec : Nat} (behind : IDT_DESC_CNT ≤ vec) :
    (lidt idt (8 * IDT_DESC_CNT)).gate mem vec = none := by
  have count : IDT_DESC_CNT = 50 := rfl
  rw [lidt_idt, Idtr.gate, if_neg (by simp only; omega)]

end Gates

namespace Intr

/-- The vectors whose lines are not masked. -/
def enabledVecs : Finset Nat := {0x20, 0x21, 0x2e}

/-- The enabled vectors that devices ask for. -/
def waiting (pics : Pics) : Finset Nat := enabledVecs.filter pics.Requests

/-- What `pic_init` has set up. -/
structure Configured (pics : Pics) : Prop where
  masterBase : pics.master.base = 0x20
  slaveBase : pics.slave.base = 0x28
  masterCascade : pics.master.cascade = 4
  slaveCascade : pics.slave.cascade = 2
  masterEnd : pics.master.autoEnd = false
  slaveEnd : pics.slave.autoEnd = false
  masterMasked : ∀ line : Fin 8, pics.master.masked line = Nat.testBit 0xf8 line
  slaveMasked : ∀ line : Fin 8, pics.slave.masked line = Nat.testBit 0xbf line

/-- The controllers serve nothing. -/
def Quiet (pics : Pics) : Prop := pics.master.Idle ∧ pics.slave.Idle

/-- Each controller serves one line at most. -/
def Single (pics : Pics) : Prop :=
  (pics.master.Idle ∨ ∃ line, pics.master.Serves line) ∧
    (pics.slave.Idle ∨ ∃ line, pics.slave.Serves line)

/-- `pic_init` sets up the controllers whatever state they are in. -/
theorem configured_picInit (pics : Pics) : ∃ next, pics.outbs picInit = some next ∧
    Configured next ∧ Quiet next ∧ waiting next = ∅ := by
  refine ⟨_, rfl, ⟨rfl, rfl, rfl, rfl, rfl, rfl, fun _ => rfl, fun _ => rfl⟩,
    ⟨fun _ => rfl, fun _ => rfl⟩, ?_⟩
  refine Finset.filter_eq_empty_iff.mpr fun vec _ requests => ?_
  rcases requests with ⟨line, -, asks⟩ | ⟨line, -, asks⟩ <;> exact Bool.false_ne_true asks

section Controllers

variable {pics : Pics}

theorem masked_master (configured : Configured pics) (line : Fin 8) :
    pics.master.masked line = false ↔ line = 0 ∨ line = 1 ∨ line = 2 := by
  have bits : ∀ line : Fin 8, Nat.testBit 0xf8 line = false ↔ line = 0 ∨ line = 1 ∨ line = 2 := by
    decide
  rw [configured.masterMasked]
  exact bits line

theorem masked_slave (configured : Configured pics) (line : Fin 8) :
    pics.slave.masked line = false ↔ line = 6 := by
  have bits : ∀ line : Fin 8, Nat.testBit 0xbf line = false ↔ line = 6 := by decide
  rw [configured.slaveMasked]
  exact bits line

/-- The requests that wait are those of the three lines. -/
theorem mem_waiting (configured : Configured pics) {vec : Nat} : vec ∈ waiting pics ↔
    vec = 0x20 ∧ pics.master.request 0 ∨ vec = 0x21 ∧ pics.master.request 1 ∨
      vec = 0x2e ∧ pics.slave.request 6 := by
  have master : ∀ line, pics.Requests (0x20 + line.val) ↔ pics.master.request line := fun line => by
    have own : 0x20 + line.val =
      pics.master.vector line := by rw [Pic.vector, configured.masterBase]
    refine (or_iff_left fun asks => ?_).trans (own ▸ Pic.asks_vector)
    have range := configured.slaveBase ▸ asks.range
    omega
  have slave : ∀ line, pics.Requests (0x28 + line.val) ↔ pics.slave.request line := fun line => by
    have own : 0x28 + line.val = pics.slave.vector line := by rw [Pic.vector, configured.slaveBase]
    refine (or_iff_right fun asks => ?_).trans (own ▸ Pic.asks_vector)
    have range := configured.masterBase ▸ asks.range
    omega
  simp only [waiting, enabledVecs, Finset.mem_filter, Finset.mem_insert, Finset.mem_singleton]
  constructor
  · rintro ⟨rfl | rfl | rfl, requests⟩
    · exact .inl ⟨rfl, (master 0).mp requests⟩
    · exact .inr (.inl ⟨rfl, (master 1).mp requests⟩)
    · exact .inr (.inr ⟨rfl, (slave 6).mp requests⟩)
  · rintro (⟨rfl, request⟩ | ⟨rfl, request⟩ | ⟨rfl, request⟩)
    · exact ⟨.inl rfl, (master 0).mpr request⟩
    · exact ⟨.inr (.inl rfl), (master 1).mpr request⟩
    · exact ⟨.inr (.inr rfl), (slave 6).mpr request⟩

/-- The master answers for its own lines. -/
theorem answer_master (configured : Configured pics) {line : Fin 8} (own : line ≠ 2)
    (inner : Option (Fin 8)) : pics.answer line inner =
      some (0x20 + line.val, ⟨pics.master.serve line, pics.slave⟩) := by
  have bits : ∀ line : Fin 8, line ≠ 2 → Nat.testBit 4 line = false := by decide
  unfold Pics.answer
  rw [configured.masterCascade, if_neg (by simp [bits line own]), Pic.vector,
    configured.masterBase]

/-- The slave answers for line 2. -/
theorem answer_slave (configured : Configured pics) (line : Fin 8) : pics.answer 2 (some line) =
      some (0x28 + line.val, ⟨pics.master.serve 2, pics.slave.serve line⟩) := by
  have bit : Nat.testBit 4 (2 : Fin 8) = true := by decide
  have number : 2 % 8 = (2 : Fin 8).val := rfl
  unfold Pics.answer
  rw [configured.masterCascade, if_pos bit, configured.slaveCascade, if_pos number]
  simp only [Pic.vector, configured.slaveBase]

theorem answer_spurious (configured : Configured pics) : pics.answer 2 none =
      some (0x2f, ⟨pics.master.serve 2, pics.slave⟩) := by
  have bit : Nat.testBit 4 (2 : Fin 8) = true := by decide
  have number : 2 % 8 = (2 : Fin 8).val := rfl
  unfold Pics.answer
  rw [configured.masterCascade, if_pos bit, configured.slaveCascade, if_pos number]
  simp only [Pic.vector, configured.slaveBase]
  rfl

/-- Requests and services are not what `pic_init` sets up. -/
theorem Configured.congr (configured : Configured pics) {master slave : Pic}
    (sameMaster : master =
      { pics.master with request := master.request, service := master.service })
    (sameSlave : slave = { pics.slave with request := slave.request, service := slave.service }) :
    Configured ⟨master, slave⟩ where
  masterBase := (congrArg Pic.base sameMaster).trans configured.masterBase
  slaveBase := (congrArg Pic.base sameSlave).trans configured.slaveBase
  masterCascade := (congrArg Pic.cascade sameMaster).trans configured.masterCascade
  slaveCascade := (congrArg Pic.cascade sameSlave).trans configured.slaveCascade
  masterEnd := (congrArg Pic.autoEnd sameMaster).trans configured.masterEnd
  slaveEnd := (congrArg Pic.autoEnd sameSlave).trans configured.slaveEnd
  masterMasked line :=
    (congrFun (congrArg Pic.masked sameMaster) line).trans (configured.masterMasked line)
  slaveMasked line :=
    (congrFun (congrArg Pic.masked sameSlave) line).trans (configured.slaveMasked line)

theorem waiting_erase {next : Pics} {gone : Nat}
    (requests : ∀ vec, next.Requests vec ↔ vec ≠ gone ∧ pics.Requests vec) :
    waiting next = (waiting pics).erase gone := by
  ext vec
  simp only [waiting, Finset.mem_filter, Finset.mem_erase, requests]
  tauto

theorem waiting_insert {next : Pics} {came : Nat}
    (requests : ∀ vec, next.Requests vec ↔ vec = came ∨ pics.Requests vec) :
    waiting next = if came ∈ enabledVecs then insert came (waiting pics) else waiting pics := by
  ext vec
  split
  · rename_i enabled
    simp only [waiting, Finset.mem_filter, Finset.mem_insert, requests]
    constructor
    · rintro ⟨member, rfl | asks⟩
      · exact .inl rfl
      · exact .inr ⟨member, asks⟩
    · rintro (rfl | ⟨member, asks⟩)
      · exact ⟨enabled, .inl rfl⟩
      · exact ⟨member, .inr asks⟩
  · rename_i disabled
    simp only [waiting, Finset.mem_filter, requests]
    refine and_congr_right fun member => or_iff_right ?_
    rintro rfl
    exact disabled member

theorem waiting_serve_master (configured : Configured pics) (line : Fin 8) :
    waiting ⟨pics.master.serve line, pics.slave⟩ = (waiting pics).erase (0x20 + line.val) := by
  refine waiting_erase fun vec => ?_
  simp only [Pics.Requests, Pic.asks_serve, Pic.vector, configured.masterBase]
  constructor
  · rintro (⟨apart, asks⟩ | asks)
    · exact ⟨apart, .inl asks⟩
    · have range := configured.slaveBase ▸ asks.range
      exact ⟨by omega, .inr asks⟩
  · rintro ⟨apart, asks | asks⟩
    · exact .inl ⟨apart, asks⟩
    · exact .inr asks

theorem waiting_serve_slave (configured : Configured pics) (line : Fin 8) :
    waiting ⟨pics.master, pics.slave.serve line⟩ = (waiting pics).erase (0x28 + line.val) := by
  refine waiting_erase fun vec => ?_
  simp only [Pics.Requests, Pic.asks_serve, Pic.vector, configured.slaveBase]
  constructor
  · rintro (asks | ⟨apart, asks⟩)
    · have range := configured.masterBase ▸ asks.range
      exact ⟨by omega, .inl asks⟩
    · exact ⟨apart, .inr asks⟩
  · rintro ⟨apart, asks | asks⟩
    · exact .inl asks
    · exact .inr ⟨apart, asks⟩

/-- The master's line for the slave is not one that waits. -/
theorem waiting_serve_line2 (configured : Configured pics) :
    waiting ⟨pics.master.serve 2, pics.slave⟩ = waiting pics := by
  refine (waiting_serve_master configured 2).trans (Finset.erase_eq_of_notMem fun member => ?_)
  have enabled := Finset.mem_of_mem_filter _ member
  exact absurd enabled (by decide)

/-- The acknowledge of a request: it is the first of those that wait, and waits no more. -/
structure Accepted (pics : Pics) (vec : Nat) (next : Pics) : Prop where
  waits : vec ∈ waiting pics
  least : ∀ other ∈ waiting pics, vec ≤ other
  rest : waiting next = (waiting pics).erase vec
  configured : Configured next
  single : Single next

theorem accepted (configured : Configured pics) (quiet : Quiet pics) {vec : Nat} {next : Pics}
    (taken : pics.acknowledge = some (vec, next)) : Accepted pics vec next := by
  obtain ⟨line, highest, answered⟩ := Option.bind_eq_some_iff.mp taken
  obtain ⟨⟨request, free⟩, above⟩ := Pic.highest_eq_some.mp highest
  have idle : pics.wired.Idle := quiet.1
  have single : Single ⟨pics.master.serve line, pics.slave⟩ :=
    ⟨.inr ⟨line, quiet.1.serves configured.masterEnd⟩, .inl quiet.2⟩
  have kept : Configured ⟨pics.master.serve line, pics.slave⟩ := configured.congr rfl rfl
  have silent : ∀ other < line, other ≠ 2 → pics.master.request other = false := by
    intro other lower own
    have unmasked : pics.master.masked other = false := by
      have bits : ∀ other line : Fin 8, other < line → line = 0 ∨ line = 1 ∨ line = 2 →
          other = 0 ∨ other = 1 ∨ other = 2 := by decide
      exact (masked_master configured other).mpr
        (bits other line lower ((masked_master configured line).mp free.1))
    have quiet' : ¬pics.wired.request other :=
      fun asks => above other lower asks (idle.free.mpr unmasked)
    simpa [Pics.wired, own] using quiet'
  rcases (masked_master configured line).mp free.1 with rfl | rfl | rfl
  · rw [answer_master configured (by decide)] at answered
    obtain ⟨rfl, rfl⟩ := Prod.mk.inj (Option.some.inj answered)
    refine ⟨(mem_waiting configured).mpr (.inl ⟨rfl, request⟩), fun other member => ?_,
      waiting_serve_master configured 0, kept, single⟩
    have found := (mem_waiting configured).mp member
    simp only [Fin.val_zero]
    omega
  · rw [answer_master configured (by decide)] at answered
    obtain ⟨rfl, rfl⟩ := Prod.mk.inj (Option.some.inj answered)
    refine ⟨(mem_waiting configured).mpr (.inr (.inl ⟨rfl, request⟩)), fun other member => ?_,
      waiting_serve_master configured 1, kept, single⟩
    have found := (mem_waiting configured).mp member
    simp only [silent 0 (by decide) (by decide), Bool.false_eq_true, and_false, false_or] at found
    simp only [Fin.val_one]
    omega
  · -- the slave asks, and its own line is the only one that is not masked
    have asks : pics.slave.highest.isSome := by simpa [Pics.wired] using request
    obtain ⟨inner, highest'⟩ := Option.isSome_iff_exists.mp asks
    obtain ⟨⟨request', free'⟩, -⟩ := Pic.highest_eq_some.mp highest'
    obtain rfl := (masked_slave configured inner).mp free'.1
    rw [highest', answer_slave configured] at answered
    obtain ⟨rfl, rfl⟩ := Prod.mk.inj (Option.some.inj answered)
    refine ⟨(mem_waiting configured).mpr (.inr (.inr ⟨rfl, request'⟩)), fun other member => ?_,
      ?_, kept.congr rfl rfl, single.1, .inr ⟨6, quiet.2.serves configured.slaveEnd⟩⟩
    · have found := (mem_waiting configured).mp member
      simp only [silent 0 (by decide) (by decide), silent 1 (by decide) (by decide),
        Bool.false_eq_true, and_false, false_or] at found
      exact found.1.ge
    · exact (waiting_serve_slave kept 6).trans
        (congrArg (Finset.erase · _) (waiting_serve_line2 configured))

/-- As long as a request waits, there is one to acknowledge. -/
theorem exists_acknowledge (configured : Configured pics) (quiet : Quiet pics) {vec : Nat}
    (waits : vec ∈ waiting pics) : ∃ vec next, pics.acknowledge = some (vec, next) := by
  have idle : pics.wired.Idle := quiet.1
  -- one of the master's three lines is up
  have some' : ∃ line, pics.wired.request line ∧ (line = 0 ∨ line = 1 ∨ line = 2) := by
    rcases (mem_waiting configured).mp waits with ⟨-, request⟩ | ⟨-, request⟩ | ⟨-, request⟩
    · exact ⟨0, by simpa [Pics.wired] using request, .inl rfl⟩
    · exact ⟨1, by simpa [Pics.wired] using request, .inr (.inl rfl)⟩
    · refine ⟨2, ?_, .inr (.inr rfl)⟩
      have asks : pics.slave.highest ≠ none := fun none' =>
        Pic.highest_eq_none.mp none' 6 request
          (quiet.2.free.mpr ((masked_slave configured 6).mpr rfl))
      simpa [Pics.wired] using Option.isSome_iff_ne_none.mpr asks
  obtain ⟨line, asks, few⟩ := some'
  cases highest : pics.wired.highest with
  | none =>
      exact absurd (idle.free.mpr ((masked_master configured line).mpr few))
        (Pic.highest_eq_none.mp highest line asks)
  | some line =>
      obtain ⟨⟨request, free⟩, -⟩ := Pic.highest_eq_some.mp highest
      by_cases own : line = 2
      · subst own
        have asks : pics.slave.highest.isSome := by simpa [Pics.wired] using request
        obtain ⟨inner, highest'⟩ := Option.isSome_iff_exists.mp asks
        have answered := answer_slave configured inner
        rw [← highest'] at answered
        exact ⟨_, _, Option.bind_eq_some_iff.mpr ⟨2, highest, answered⟩⟩
      · exact ⟨_, _, Option.bind_eq_some_iff.mpr ⟨line, highest, answer_master configured own _⟩⟩

/-- The vector of a line. -/
def lineVec (slave : Bool) (line : Fin 8) : Nat := (if slave then 0x28 else 0x20) + line.val

/-- A line that goes up waits, unless it is masked. -/
theorem waiting_raise (configured : Configured pics) (slave : Bool) (line : Fin 8) :
    waiting (pics.raise slave line) =
      if lineVec slave line ∈ enabledVecs then insert (lineVec slave line) (waiting pics)
      else waiting pics := by
  refine waiting_insert fun vec => ?_
  cases slave
  · simp only [Pics.raise, lineVec, Bool.false_eq_true, if_false, Pics.Requests, Pic.asks_raise,
      Pic.vector, configured.masterBase, or_assoc]
  · simp only [Pics.raise, lineVec, if_true, Pics.Requests, Pic.asks_raise, Pic.vector,
      configured.slaveBase, or_left_comm]

/-- The end of what both controllers serve. -/
theorem quiet_endOfInterrupt (single : Single pics) :
    Quiet ⟨pics.master.endOfInterrupt, pics.slave.endOfInterrupt⟩ := by
  constructor
  · rcases single.1 with idle | ⟨line, serves⟩
    · exact idle.endOfInterrupt.symm ▸ idle
    · exact serves.endOfInterrupt
  · rcases single.2 with idle | ⟨line, serves⟩
    · exact idle.endOfInterrupt.symm ▸ idle
    · exact serves.endOfInterrupt

theorem waiting_endOfInterrupt :
    waiting ⟨pics.master.endOfInterrupt, pics.slave.endOfInterrupt⟩ = waiting pics := by
  ext vec
  simp only [waiting, Finset.mem_filter, Pics.Requests, Pic.asks_endOfInterrupt]

theorem Configured.endOfInterrupt (configured : Configured pics) :
    Configured ⟨pics.master.endOfInterrupt, pics.slave.endOfInterrupt⟩ :=
  configured.congr (by rw [Pic.endOfInterrupt_eq]) (by rw [Pic.endOfInterrupt_eq])

end Controllers

/-! ## One step -/

/-- The vectors that the processor is given: exceptions, the enabled lines, and those of lines
that have gone down. -/
def Given (vec : Nat) : Prop := vec < 32 ∨ vec ∈ enabledVecs ∨ vec = 0x27 ∨ vec = 0x2f

theorem Given.lt {vec : Nat} (given : Given vec) : vec < IDT_DESC_CNT := by
  have count : IDT_DESC_CNT = 50 := rfl
  simp only [Given, enabledVecs, Finset.mem_insert, Finset.mem_singleton] at given
  omega

/-- A device's line by its vector, an interrupt as the request that it takes. -/
def serverLabel : IntrEvent → ServerLabel Nat
  | .raise slave line =>
      if lineVec slave line ∈ enabledVecs then .request (lineVec slave line) else .silent
  | .irq vec => .take vec
  | _ => .silent

/-- What holds between two instructions of the kernel. -/
structure Ready (image : StubImage) (s : Intr) : Prop where
  gates : ∀ vec < IDT_DESC_CNT,
    s.idtr.gate s.mem vec = some ⟨image.entries vec, selectorKernelCode, idtDescAttrDpl0⟩
  configured : Configured s.pics
  quiet : s.entered = none → Quiet s.pics
  inStub : ∀ addr, s.entered = some addr →
    s.interrupts = false ∧ Single s.pics ∧ ∃ vec, Given vec ∧ addr = image.entries vec

section Steps

variable {image : StubImage} {s next : Intr}

theorem Quiet.single {pics : Pics} (quiet : Quiet pics) : Single pics :=
    ⟨.inl quiet.1, .inl quiet.2⟩

/-- The gate clears the interrupt flag, and leads to the stub. -/
theorem Ready.enter (ready : Ready image s) {pics : Pics} {vec : Nat} (given : Given vec) :
    { s with pics }.enter vec =
      some { s with pics, interrupts := false, entered := some (image.entries vec) } := by
  have masks : (Gate.mk (image.entries vec) selectorKernelCode idtDescAttrDpl0).Masks := by
    have type : idtDescAttrDpl0 &&& 0x0f = 0x0e := by decide
    exact type
  have gate : s.idtr.gate s.mem vec = _ := ready.gates vec given.lt
  simp only [Intr.enter, gate, Option.map_some, masks, decide_true, Bool.not_true, Bool.and_false]

/-- The state behind a gate. -/
theorem Ready.entered (ready : Ready image s) {pics : Pics} (configured : Configured pics)
    (single : Single pics) {vec : Nat} (given : Given vec) :
    Ready image { s with pics, interrupts := false, entered := some (image.entries vec) } where
  gates := ready.gates
  configured := configured
  quiet none' := by simp at none'
  inStub addr entered := ⟨rfl, single, vec, given, (Option.some.inj entered).symm⟩

/-- A stub ends the interrupt at both controllers. -/
theorem ports_stub {vec : Nat} (given : Given vec) (core : Core) :
    (core.run (image.code (image.entries vec))).ports = [(0x20, 0x20), (0xa0, 0x20)] ++
      core.ports := by
  have count : IDT_DESC_CNT = 50 := rfl
  have lt := given.lt
  have al (core : Core) : (core.step (.movbAl 0x20)).regs.value .eax % 2 ^ 8 = 0x20 := by
    simp only [Core.step, Regs.set, if_true]
    omega
  have out (core : Core) (port : Nat) : (core.step (.outbAl port)).ports =
      (port, core.regs.value .eax % 2 ^ 8) :: core.ports ∧ (core.step (.outbAl port)).regs =
        core.regs :=
    ⟨rfl, rfl⟩
  have pushed : (core.run (errorInstrs vec)).ports = core.ports := by
    unfold errorInstrs
    split <;> rfl
  rw [image.linked vec (by omega), intrEntryTable_getD (by omega), stub_eq, Core.run_append,
    ← pushed]
  generalize core.run (errorInstrs vec) = core
  have run : core.run (stub [] vec) =
    (((core.run [.pushSeg .ds, .pushSeg .es, .pushSeg .fs, .pushSeg .gs,
      .pushal, .pushImm vec]).step (.movbAl 0x20)).step (.outbAl 0xa0)).step (.outbAl 0x20) := rfl
  rw [run, (out _ _).1, (out _ _).2, (out _ _).1, al]
  rfl

/-- The bytes that a stub writes. -/
theorem outbs_stub (pics : Pics) : pics.outbs [(0x20, 0x20), (0xa0, 0x20)].reverse =
    some ⟨pics.master.endOfInterrupt, pics.slave.endOfInterrupt⟩ := rfl

theorem Ready.raise (ready : Ready image s) (slave : Bool) (line : Fin 8) :
    Ready image (s.raise slave line) where
  gates := ready.gates
  configured := by cases slave <;> exact ready.configured.congr rfl rfl
  quiet none' := by
    have quiet := ready.quiet none'
    cases slave <;> exact quiet
  inStub addr entered := by
    obtain ⟨off, single, given⟩ := ready.inStub addr entered
    exact ⟨off, by cases slave <;> exact single, given⟩

/-- A stub may be run, and the controllers are quiet behind it. -/
theorem Ready.stub (ready : Ready image s) {addr : UInt32} (entered : s.entered = some addr)
    (core : Core) :
    ∃ written pics, (core.run (image.code addr)).ports = written ++ core.ports ∧
      s.pics.outbs written.reverse = some pics ∧ waiting pics = waiting s.pics ∧
      Ready image { s with pics, entered := none } := by
  obtain ⟨off, single, vec, given, rfl⟩ := ready.inStub _ entered
  refine ⟨_, _, ports_stub given core, outbs_stub s.pics, waiting_endOfInterrupt, ready.gates,
    ready.configured.endOfInterrupt, fun _ => quiet_endOfInterrupt single, fun addr entered => ?_⟩
  simp at entered

/-- Each step keeps the kernel ready, and does to the requests what the server does. -/
theorem Does.serves {event : IntrEvent} (does : Does image event s next) (ready : Ready image s) :
    Ready image next ∧ (serverLabel event).Does (waiting s.pics) (waiting next.pics) := by
  cases does with
  | raise _ slave line =>
      have waits := waiting_raise ready.configured slave line
      refine ⟨ready.raise slave line, ?_⟩
      simp only [serverLabel]
      split
      · rename_i enabled
        exact waits.trans (if_pos enabled)
      · rename_i disabled
        exact waits.trans (if_neg disabled)
  | irq free _ taken gone =>
      have accepted := accepted ready.configured (ready.quiet free) taken
      have given : Given _ := .inr (.inl (Finset.mem_of_mem_filter _ accepted.waits))
      obtain rfl := Option.some.inj ((ready.enter given).symm.trans gone)
      exact ⟨ready.entered accepted.configured accepted.single given, accepted.waits,
        accepted.least,
        accepted.rest⟩
  | spurious free _ down gone =>
      have quiet := ready.quiet free
      cases down with
      | master =>
          rw [Pic.vector, ready.configured.masterBase] at gone
          have given : Given 0x27 := .inr (.inr (.inl rfl))
          obtain rfl := Option.some.inj ((ready.enter given).symm.trans gone)
          exact ⟨ready.entered ready.configured quiet.single given, rfl⟩
      | slave _ answered =>
          obtain ⟨rfl, rfl⟩ := Prod.mk.inj (Option.some.inj
            ((answer_spurious ready.configured).symm.trans answered))
          have given : Given 0x2f := .inr (.inr (.inr rfl))
          obtain rfl := Option.some.inj ((ready.enter given).symm.trans gone)
          have single : Single ⟨s.pics.master.serve 2, s.pics.slave⟩ :=
            ⟨.inr ⟨2, quiet.1.serves ready.configured.masterEnd⟩, .inl quiet.2⟩
          exact ⟨ready.entered (ready.configured.congr rfl rfl) single given,
            waiting_serve_line2 ready.configured⟩
  | exception free low gone =>
      have given : Given _ := .inl low
      have enter : s.enter _ = some _ := ready.enter given
      obtain rfl := Option.some.inj (enter.symm.trans gone)
      exact ⟨ready.entered ready.configured (ready.quiet free).single given, rfl⟩
  | @stub _ addr core _ _ entered ports ends =>
      obtain ⟨written, pics, ports', ends', waits, ready'⟩ := ready.stub entered core
      obtain rfl := List.append_cancel_right (ports.symm.trans ports')
      obtain rfl := Option.some.inj (ends.symm.trans ends')
      exact ⟨ready', waits⟩
  | flag on free =>
      exact ⟨⟨ready.gates, ready.configured, ready.quiet,
        fun addr entered => by simp [free] at entered⟩,
        rfl⟩

/-- An interrupt is taken exactly when interrupts are on and a request waits. -/
theorem Ready.irq_iff (ready : Ready image s) : (∃ vec next, Does image (.irq vec) s next) ↔
    s.entered = none ∧ s.interrupts ∧ (waiting s.pics).Nonempty := by
  constructor
  · rintro ⟨vec, next, does⟩
    have serves : vec ∈ waiting s.pics ∧ _ := (does.serves ready).2
    cases does with
    | irq free on _ _ => exact ⟨free, on, vec, serves.1⟩
  · rintro ⟨free, on, vec, waits⟩
    obtain ⟨vec, pics, taken⟩ := exists_acknowledge ready.configured (ready.quiet free) waits
    have accepted := accepted ready.configured (ready.quiet free) taken
    exact ⟨vec, _, .irq free on taken
      (ready.enter (.inr (.inl (Finset.mem_of_mem_filter _ accepted.waits))))⟩

/-- What is entered for a request is the stub of its own vector. -/
theorem Ready.irq_enters (ready : Ready image s) {vec : Nat} (does : Does image (.irq vec) s next) :
    vec ∈ enabledVecs ∧ next.interrupts = false ∧ next.entered = some (image.entries vec) := by
  cases does with
  | irq free _ taken gone =>
      have accepted := accepted ready.configured (ready.quiet free) taken
      have enabled := Finset.mem_of_mem_filter _ accepted.waits
      obtain rfl := Option.some.inj ((ready.enter (.inr (.inl enabled))).symm.trans gone)
      exact ⟨enabled, rfl, rfl⟩

end Steps

section Runs

variable {image : StubImage} {events : List IntrEvent} {first last : Intr}

theorem ready_idtInit (image : StubImage) (mem : Bytes) (pics : Pics) (idt : UInt32) :
    ∃ booted, idtInit mem pics idt image.entries = some booted ∧ Ready image booted ∧
      waiting booted.pics = ∅ := by
  obtain ⟨pics', set, configured, quiet, none'⟩ := configured_picInit pics
  refine ⟨_, by rw [idtInit, set, Option.map_some], ⟨fun vec inside =>
    gate_idtDescInit mem idt image.entries inside, configured, fun _ => quiet,
    fun addr entered => ?_⟩, none'⟩
  simp at entered

/-- A run of the kernel is one of the server. -/
theorem Ready.run (ready : Ready image first) (run : Run (Does image) events first last) :
    Ready image last ∧
      Run ServerLabel.Does (events.map serverLabel) (waiting first.pics) (waiting last.pics) := by
  have follows : ∀ event s next other, other = waiting s.pics ∧ Ready image s →
      Does image event s next → ∃ other', (serverLabel event).Does other other' ∧
        (other' = waiting next.pics ∧ Ready image next) := by
    rintro event s next other ⟨rfl, ready⟩ does
    obtain ⟨ready', serves⟩ := does.serves ready
    exact ⟨_, serves, rfl, ready'⟩
  obtain ⟨other, run', rfl, ready'⟩ := run.simulate follows ⟨rfl, ready⟩
  exact ⟨ready', run'⟩

end Runs

end Intr

/-- The processor takes a request of a device. -/
def IntrEvent.isIrq : IntrEvent → Bool
  | .irq _ => true
  | _ => false

/-- A device puts a line up that is not masked and has a vector below `vec`. -/
def IntrEvent.raisesBelow (vec : Nat) : IntrEvent → Bool
  | .raise slave line =>
      decide (Intr.lineVec slave line ∈ Intr.enabledVecs ∧ Intr.lineVec slave line < vec)
  | _ => false

theorem takes_serverLabel : ServerLabel.takes ∘ Intr.serverLabel = IntrEvent.isIrq := by
  funext event
  cases event with
  | raise slave line =>
      simp only [Function.comp_apply, Intr.serverLabel]
      split <;> rfl
  | _ => rfl

theorem passes_serverLabel (vec : Nat) :
    ServerLabel.passes vec ∘ Intr.serverLabel = IntrEvent.raisesBelow vec := by
  funext event
  cases event with
  | raise slave line =>
      simp only [Function.comp_apply, Intr.serverLabel, IntrEvent.raisesBelow]
      split
      · rename_i enabled
        simp [ServerLabel.passes, enabled]
      · rename_i disabled
        simp [ServerLabel.passes, disabled]
  | _ => rfl

/-- From `idt_init` on, whatever the controllers were before, the requests of the three enabled
lines are taken in the order of their vectors, none is lost and none is taken twice; one is taken
exactly when interrupts are on and one waits.  What the processor enters for a request is the stub
of its vector, with interrupts off, and behind any stub the controllers serve nothing. -/
theorem idtInit_runs (image : StubImage) (mem : Bytes) (pics : Pics) (idt : UInt32) :
    ∃ booted, idtInit mem pics idt image.entries = some booted ∧
      ∀ events s, Run (Intr.Does image) events booted s →
        Run ServerLabel.Does (events.map Intr.serverLabel) ∅ (Intr.waiting s.pics) ∧
        ((∃ vec next, Intr.Does image (.irq vec) s next) ↔
          s.entered = none ∧ s.interrupts ∧ (Intr.waiting s.pics).Nonempty) ∧
        (∀ vec next, Intr.Does image (.irq vec) s next → vec ∈ Intr.enabledVecs ∧
          next.interrupts = false ∧ next.entered = some (image.entries vec)) ∧
        ∀ addr, s.entered = some addr → s.interrupts = false ∧
          (∃ vec, Intr.Given vec ∧ addr = image.entries vec) ∧
          ∃ next, Intr.Does image .stub s next ∧ Intr.Quiet next.pics := by
  obtain ⟨booted, set, ready, none'⟩ := Intr.ready_idtInit image mem pics idt
  refine ⟨booted, set, fun events s run => ?_⟩
  obtain ⟨ready', run'⟩ := ready.run run
  refine ⟨none' ▸ run', ready'.irq_iff, fun _ _ does => ready'.irq_enters does,
    fun addr entered => ?_⟩
  obtain ⟨off, -, given⟩ := ready'.inStub addr entered
  let core : Core :=
    ⟨⟨fun _ => 0, fun _ => by decide⟩, ⟨fun _ => 0, fun _ => by decide⟩, .load 0, 0,
    s.mem, []⟩
  obtain ⟨written, pics, ports, ends, -, ready''⟩ := ready'.stub entered core
  exact ⟨off, given, _, .stub entered ports ends, ready''.quiet rfl⟩

/-- A request of an enabled line is taken, or it waits and as many others at most have been taken
as waited in front of it and came in front of it since. -/
theorem request_taken {image : StubImage} {mem : Bytes} {pics : Pics} {idt : UInt32} {booted : Intr}
    (set : idtInit mem pics idt image.entries = some booted) {before events : List IntrEvent}
    {s last : Intr} (reached : Run (Intr.Does image) before booted s) {vec : Nat}
    (waits : vec ∈ Intr.waiting s.pics) (run : Run (Intr.Does image) events s last) :
    .irq vec ∈ events ∨ vec ∈ Intr.waiting last.pics ∧
      events.countP IntrEvent.isIrq ≤
        ((Intr.waiting s.pics).filter (· < vec)).card + events.countP
          (IntrEvent.raisesBelow vec) := by
  obtain ⟨booted', set', ready, -⟩ := Intr.ready_idtInit image mem pics idt
  obtain rfl := Option.some.inj (set'.symm.trans set)
  obtain ⟨-, run'⟩ := (ready.run reached).1.run run
  rcases ServerLabel.taken_or_waits run' waits with taken | ⟨waits', fewer⟩
  · obtain ⟨event, member, same⟩ := List.mem_map.mp taken
    refine .inl ?_
    cases event with
    | irq vec' => exact ServerLabel.take.inj same ▸ member
    | raise slave line =>
        simp only [Intr.serverLabel] at same
        split at same <;> cases same
    | _ => cases same
  · rw [List.countP_map, List.countP_map, takes_serverLabel, passes_serverLabel] at fewer
    exact .inr ⟨waits', fewer⟩

/-- Stubs one after the other, an address for each. -/
def stubsFrom (base : Nat) (fits : base + 51 < 2 ^ 32) : StubImage where
  entries vec := .ofNat (base + vec)
  code addr := intrEntryTable.getD (addr.toNat - base) []
  linked vec inTable := by
    have small : base + vec < 2 ^ 32 := by omega
    rw [UInt32.toNat_ofNat', Nat.mod_eq_of_lt small, Nat.add_sub_cancel_left]

/-- The timer and the disk ask while interrupts are off; then one of them is taken. -/
theorem request_taken_disk : ∃ s last vec,
    0x2e ∈ Intr.waiting s.pics ∧
    Run (Intr.Does (stubsFrom 0xc0001000 (by decide))) [.flag true, .irq vec] s last ∧
    (IntrEvent.irq 0x2e ∈ [IntrEvent.flag true, .irq vec] ∨ 0x2e ∈ Intr.waiting last.pics ∧
      [.flag true, .irq vec].countP IntrEvent.isIrq ≤
        ((Intr.waiting s.pics).filter (· < 0x2e)).card +
          [.flag true, .irq vec].countP (IntrEvent.raisesBelow 0x2e)) := by
  let pic : Pic := ⟨.mask, 0, 0, false, fun _ => false, fun _ => false, fun _ => false⟩
  let image := stubsFrom 0xc0001000 (by decide)
  obtain ⟨booted, set, ready, -⟩ := Intr.ready_idtInit image (fun _ => 0) ⟨pic, pic⟩ 0xc0008000
  have idle : booted.entered = none := by
    obtain ⟨pics, -, rfl⟩ := Option.map_eq_some_iff.mp set
    rfl
  have reached : Run (Intr.Does image) [.raise false 0, .raise true 6] booted
      ((booted.raise false 0).raise true 6) :=
    ((Run.refl booted).step (.raise booted false 0)).step (.raise _ true 6)
  have ready' := (ready.raise false 0).raise true 6
  have waits : 0x2e ∈ Intr.waiting ((booted.raise false 0).raise true 6).pics :=
    (Intr.mem_waiting ready'.configured).mpr (.inr (.inr ⟨rfl, rfl⟩))
  have on : Intr.Does image (.flag true) ((booted.raise false 0).raise true 6) _ := .flag true idle
  obtain ⟨vec, last, does⟩ := (on.serves ready').1.irq_iff.mpr ⟨idle, rfl, _, waits⟩
  have run := ((Run.refl _).step on).step does
  exact ⟨_, last, vec, waits, run, request_taken set reached waits run⟩

end Pumelo
