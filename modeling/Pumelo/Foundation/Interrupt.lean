import Pumelo.Foundation.Cpu

/-!
# Interrupts

A 32-bit processor that takes interrupts through gates: segment selectors, flags,
the entry that pushes the interrupted state, the instructions of an entry stub and
the return.  The stack is described by the list of words on it, so that a stub and
its exit are compared list by list.
-/

namespace Foundation

/-- The words of a list lie in memory one after the other, from `addr` on. -/
def WordsAt (mem : Bytes) (addr : Nat) : List Nat → Prop
  | [] => True
  | word :: words => mem.read32 addr = word ∧ WordsAt mem (addr + 4) words

namespace WordsAt

/-- A list of words depends on its own bytes only. -/
theorem congr {mem mem' : Bytes} {addr : Nat} {words : List Nat}
    (agree : ∀ query, addr ≤ query → query < addr + 4 * words.length → mem' query = mem query)
    (at' : WordsAt mem addr words) : WordsAt mem' addr words := by
  induction words generalizing addr with
  | nil => trivial
  | cons word words ih =>
      simp only [List.length_cons] at agree
      refine ⟨?_, ih (fun query lower upper => agree query (by omega) (by omega)) at'.2⟩
      rw [← at'.1]
      exact Bytes.read32_congr fun query lower upper => agree query lower (by omega)

theorem append {mem : Bytes} {addr : Nat} {words rest : List Nat} :
    WordsAt mem addr (words ++ rest) ↔
      WordsAt mem addr words ∧ WordsAt mem (addr + 4 * words.length) rest := by
  induction words generalizing addr with
  | nil => simp [WordsAt]
  | cons word words ih =>
      have shift : addr + 4 + 4 * words.length = addr + 4 * (words.length + 1) := by omega
      simp only [List.cons_append, WordsAt, ih, and_assoc, List.length_cons, shift]

/-- The words one by one. -/
theorem getElem {mem : Bytes} {addr word : Nat} {words : List Nat} (at' : WordsAt mem addr words)
    (index : Nat) (word' : words[index]? = some word) : mem.read32 (addr + 4 * index) = word := by
  induction words generalizing addr index with
  | nil => simp at word'
  | cons head words ih =>
      cases index with
      | zero =>
          rw [List.getElem?_cons_zero, Option.some.injEq] at word'
          exact at'.1.trans word'
      | succ index =>
          have shift : addr + 4 * (index + 1) = addr + 4 + 4 * index := by omega
          rw [shift]
          exact ih at'.2 index (by rwa [List.getElem?_cons_succ] at word')

end WordsAt

/-- The segment registers. -/
inductive Seg where
  | cs
  | ss
  | ds
  | es
  | fs
  | gs
  deriving DecidableEq, Repr

/-- The selectors in the segment registers, of 16 bits each. -/
structure Segs where
  value : Seg → Nat
  small : ∀ seg, value seg < 2 ^ 16

namespace Segs

@[ext] theorem ext {segs other : Segs} (same : ∀ seg, segs.value seg = other.value seg) :
    segs = other := by
  cases segs
  cases other
  simpa using funext same

/-- Load a segment register. -/
def set (segs : Segs) (seg : Seg) (word : Nat) : Segs where
  value query := if query = seg then word % 2 ^ 16 else segs.value query
  small query := by
    split
    · exact Nat.mod_lt _ (by decide)
    · exact segs.small query

@[simp] theorem set_value (segs : Segs) (seg query : Seg) (word : Nat) :
    (segs.set seg word).value query = if query = seg then word % 2 ^ 16 else segs.value query :=
  rfl

end Segs

theorem Regs.ext {regs other : Regs} (same : ∀ reg, regs.value reg = other.value reg) :
    regs = other := by
  cases regs
  cases other
  simpa using funext same

/-- The bits of the flags register that do not vary: bit 1 reads as one, bits 3, 5,
15 and 22 to 31 read as zero. -/
def fixedFlags : BitVec 32 := 0xffc0802a#32

/-- The flags register, with its fixed bits. -/
structure Flags where
  word : BitVec 32
  fixed : word &&& fixedFlags = 2#32

namespace Flags

/-- Load the flags from a word; the fixed bits stay as they are. -/
def load (word : BitVec 32) : Flags where
  word := word &&& ~~~fixedFlags ||| 2#32
  fixed := by
    have two : 2#32 &&& fixedFlags = 2#32 := by decide
    ext bit inside
    have bits : ((2#32)[bit] && fixedFlags[bit]) = (2#32)[bit] := by
      rw [← BitVec.getElem_and inside, two]
    simp only [BitVec.getElem_or, BitVec.getElem_and, BitVec.getElem_not]
    cases word[bit] <;> cases h : fixedFlags[bit] <;> simp_all

/-- Flags that were saved are restored. -/
theorem load_word (flags : Flags) : load flags.word = flags := by
  obtain ⟨word, fixed⟩ := flags
  have same : word &&& ~~~fixedFlags ||| 2#32 = word := by
    rw [← fixed]
    ext bit inside
    simp only [BitVec.getElem_or, BitVec.getElem_and, BitVec.getElem_not]
    cases word[bit] <;> cases fixedFlags[bit] <;> rfl
  simp only [load, same]

/-- Bit 3 is always clear. -/
theorem bit_three (flags : Flags) : flags.word.toNat.testBit 3 = false := by
  have bits : (flags.word.getLsbD 3 && fixedFlags.getLsbD 3) = (2#32).getLsbD 3 := by
    rw [← BitVec.getLsbD_and, flags.fixed]
  have mask : fixedFlags.getLsbD 3 = true := by decide
  have two : (2#32).getLsbD 3 = false := by decide
  rw [mask, two, Bool.and_true] at bits
  rw [BitVec.testBit_toNat, bits]

end Flags

/-- The state an interrupt finds; `ports` is what has been written to ports, the last
first. -/
structure Core where
  regs : Regs
  segs : Segs
  eflags : Flags
  eip : Nat
  mem : Bytes
  ports : List (Nat × Nat)

/-- An instruction of an interrupt stub. -/
inductive StubInstr where
  | pushImm (word : Nat)
  | pushSeg (seg : Seg)
  | pushal
  | movbAl (byte : Nat)
  | outbAl (port : Nat)
  | addlEsp (bytes : Nat)
  | popal
  | popSeg (seg : Seg)
  deriving DecidableEq, Repr

namespace Core

/-- The stack pointer. -/
def esp (core : Core) : Nat := core.regs.value .esp

/-- Move the stack pointer. -/
def setEsp (core : Core) (top : Nat) : Core := { core with regs := core.regs.set .esp top }

/-- Push a word. -/
def push (core : Core) (word : Nat) : Core :=
  let top := (core.esp + 2 ^ 32 - 4) % 2 ^ 32
  { core.setEsp top with mem := core.mem.write32 top word }

/-- Push words in order, the last one ends on top. -/
def pushAll (core : Core) (words : List Nat) : Core := words.foldl push core

/-- The word on top of the stack. -/
def top (core : Core) : Nat := core.mem.read32 core.esp

/-- The state without the word on top of the stack. -/
def drop (core : Core) : Core := core.setEsp (core.esp + 4)

/-- Pop a word into a register. -/
def popReg (core : Core) (reg : Reg) : Core :=
  { core.drop with regs := core.drop.regs.set reg core.top }

/-- The registers as `pushal` leaves them on the stack, the top first. -/
def generalRegs (value : Reg → Nat) : List Nat :=
  [ value .edi, value .esi, value .ebp, value .esp, value .ebx, value .edx, value .ecx, value .eax ]

/-- One instruction of a stub. A selector is pushed with zeros above it; the
arithmetic flags that `addl` sets are left out, since `iret` replaces them. -/
def step (core : Core) : StubInstr → Core
  | .pushImm word => core.push word
  | .pushSeg seg => core.push (core.segs.value seg)
  | .pushal => core.pushAll (generalRegs core.regs.value).reverse
  | .movbAl byte =>
      { core with
        regs := core.regs.set .eax (core.regs.value .eax / 2 ^ 8 * 2 ^ 8 + byte % 2 ^ 8) }
  | .outbAl port => { core with ports := (port, core.regs.value .eax % 2 ^ 8) :: core.ports }
  | .addlEsp bytes => core.setEsp (core.esp + bytes)
  | .popal =>
      -- the saved stack pointer is skipped
      ((((((((core.popReg .edi).popReg .esi).popReg .ebp).drop).popReg .ebx).popReg .edx).popReg
        .ecx).popReg .eax)
  | .popSeg seg => { core.drop with segs := core.segs.set seg core.top }

/-- Instructions one after the other. -/
def run (core : Core) (code : List StubInstr) : Core := code.foldl step core

@[simp] theorem run_nil (core : Core) : core.run [] = core := rfl

theorem run_cons (core : Core) (instr : StubInstr) (code : List StubInstr) :
    core.run (instr :: code) = (core.step instr).run code := rfl

theorem run_append (core : Core) (first second : List StubInstr) :
    core.run (first ++ second) = (core.run first).run second := List.foldl_append

/-- What a gate and the task state give the processor for an interrupt: where the stub
is, and the stack that a less privileged program leaves its own for. -/
structure Gate where
  selector : Nat
  offset : Nat
  ss0 : Nat
  esp0 : Nat

/-- The privilege level is in the low bits of the code selector. -/
def privilege (selector : Nat) : Nat := selector % 4

/-- The interrupt comes from a program with less privilege than its gate. -/
def Outer (core : Core) (gate : Gate) : Prop :=
  privilege gate.selector < privilege (core.segs.value .cs)

instance (core : Core) (gate : Gate) : Decidable (core.Outer gate) := Nat.decLt _ _

/-- Bits that an interrupt gate clears: trap, interrupt, nested task, resume and
virtual-8086 flag. -/
def gateMask : BitVec 32 := 0x00034300#32

/-- The stack an interrupt is taken on. -/
def stackOf (core : Core) (gate : Gate) : Core :=
  if core.Outer gate then
    { core.setEsp gate.esp0 with segs := core.segs.set .ss gate.ss0 }
  else core

/-- What the processor pushes for an interrupt, the last word ends on top. -/
def interruptFrame (core : Core) (gate : Gate) (errorCode : Option Nat) : List Nat :=
  (if core.Outer gate then [core.segs.value .ss, core.esp] else []) ++
    [core.eflags.word.toNat, core.segs.value .cs, core.eip] ++ errorCode.toList

/-- The processor takes an interrupt, with an error code for some of them. -/
def interrupt (core : Core) (gate : Gate) (errorCode : Option Nat) : Core :=
  let entered := (core.stackOf gate).pushAll (core.interruptFrame gate errorCode)
  { entered with
    segs := entered.segs.set .cs gate.selector
    eip := gate.offset
    eflags := .load (core.eflags.word &&& ~~~gateMask) }

/-- `iret`: it faults where the word for the code segment does not select one, and
leaves the stack pointer and the stack segment for last where it goes back to a less
privileged program. -/
def iret (core : Core) (codeSegments : List Nat) : Option Core :=
  let eip := core.top
  let core := core.drop
  let cs := core.top % 2 ^ 16
  let core := core.drop
  let eflags := core.top
  let core := core.drop
  if cs ∉ codeSegments then none
  else
    let outer := privilege (core.segs.value .cs) < privilege cs
    let core :=
      { core with
        eip := eip
        segs := core.segs.set .cs cs
        eflags := .load (BitVec.ofNat 32 eflags) }
    if outer then
      some { core.setEsp core.top with segs := core.segs.set .ss core.drop.top }
    else some core

section

variable (core : Core)

@[simp] theorem setEsp_esp (top : Nat) : (core.setEsp top).esp = top % 2 ^ 32 :=
  Regs.set_self _ _ _

theorem setEsp_regs (top : Nat) {query : Reg} (different : query ≠ .esp) :
    (core.setEsp top).regs.value query = core.regs.value query := Regs.set_of_ne _ _ different

theorem push_regs (word : Nat) {query : Reg} (different : query ≠ .esp) :
    (core.push word).regs.value query = core.regs.value query := Regs.set_of_ne _ _ different

@[simp] theorem push_segs (word : Nat) : (core.push word).segs = core.segs := rfl

@[simp] theorem pushAll_nil : core.pushAll [] = core := rfl

theorem pushAll_cons (word : Nat) (words : List Nat) :
    core.pushAll (word :: words) = (core.push word).pushAll words := rfl

theorem pushAll_regs (words : List Nat) {query : Reg} (different : query ≠ .esp) :
    (core.pushAll words).regs.value query = core.regs.value query := by
  induction words generalizing core with
  | nil => rfl
  | cons word words ih => rw [pushAll_cons, ih, core.push_regs word different]

@[simp] theorem pushAll_segs (words : List Nat) : (core.pushAll words).segs = core.segs := by
  induction words generalizing core with
  | nil => rfl
  | cons word words ih => exact ih (core.push word)

/-- Where the stack does not end, dropping a word moves its top up. -/
theorem drop_esp (fits : core.esp + 4 < 2 ^ 32) : core.drop.esp = core.esp + 4 := by
  rw [drop, setEsp_esp, Nat.mod_eq_of_lt fits]

@[simp] theorem drop_mem : core.drop.mem = core.mem := rfl

@[simp] theorem drop_segs : core.drop.segs = core.segs := rfl

theorem popSeg_regs (seg : Seg) {query : Reg} (different : query ≠ .esp) :
    (core.step (.popSeg seg)).regs.value query = core.regs.value query :=
  core.setEsp_regs _ different

@[simp] theorem step_pushImm (word : Nat) : core.step (.pushImm word) = core.push word := rfl

@[simp] theorem movbAl_esp (byte : Nat) : (core.step (.movbAl byte)).esp = core.esp :=
  Regs.set_of_ne _ _ (by decide)

@[simp] theorem movbAl_mem (byte : Nat) : (core.step (.movbAl byte)).mem = core.mem := rfl

@[simp] theorem outbAl_esp (port : Nat) : (core.step (.outbAl port)).esp = core.esp := rfl

@[simp] theorem outbAl_mem (port : Nat) : (core.step (.outbAl port)).mem = core.mem := rfl

theorem popReg_of_ne {reg query : Reg} (different : query ≠ reg) (other : query ≠ .esp) :
    (core.popReg reg).regs.value query = core.regs.value query :=
  (Regs.set_of_ne _ _ different).trans (core.setEsp_regs _ other)

theorem drop_regs {query : Reg} (different : query ≠ .esp) :
    core.drop.regs.value query = core.regs.value query := core.setEsp_regs _ different

end

/-! ## Words pushed on the stack -/

/-- What has been pushed between two states, the last word first. Memory elsewhere is
as it was. -/
structure Pushed (before after : Core) (words : List Nat) : Prop where
  esp : after.esp + 4 * words.length = before.esp
  words : WordsAt after.mem after.esp words
  outside : ∀ query, query < after.esp ∨ before.esp ≤ query →
    after.mem query = before.mem query

namespace Pushed

theorem refl (core : Core) : Pushed core core [] where
  esp := rfl
  words := trivial
  outside _ _ := rfl

theorem trans {before middle after : Core} {words more : List Nat}
    (first : Pushed before middle words) (second : Pushed middle after more) :
    Pushed before after (more ++ words) where
  esp := by
    have firstEsp := first.esp
    have secondEsp := second.esp
    simp only [List.length_append]
    omega
  words := by
    refine WordsAt.append.mpr ⟨second.words, ?_⟩
    rw [second.esp]
    exact first.words.congr fun query lower _ => second.outside query (.inr lower)
  outside query outside := by
    have firstEsp := first.esp
    have secondEsp := second.esp
    rw [second.outside query (by omega), first.outside query (by omega)]

/-- Only the stack pointer and memory matter. -/
theorem congr {before after before' after' : Core} {words : List Nat}
    (pushed : Pushed before after words) (esp : before'.esp = before.esp)
    (mem : before'.mem = before.mem) (esp' : after'.esp = after.esp)
    (mem' : after'.mem = after.mem) : Pushed before' after' words where
  esp := by rw [esp, esp', pushed.esp]
  words := by rw [mem', esp']; exact pushed.words
  outside query outside := by
    rw [mem, mem']
    exact pushed.outside query (by rwa [esp, esp'] at outside)

end Pushed

theorem pushed_push (core : Core) {word : Nat} (room : 4 ≤ core.esp) (small : word < 2 ^ 32) :
    Pushed core (core.push word) [word] := by
  have espLt : core.esp < 2 ^ 32 := core.regs.small .esp
  have wrap : (core.esp + 2 ^ 32 - 4) % 2 ^ 32 = core.esp - 4 := by omega
  have esp : (core.push word).esp = core.esp - 4 := by
    change (core.setEsp ((core.esp + 2 ^ 32 - 4) % 2 ^ 32)).esp = core.esp - 4
    rw [setEsp_esp, wrap, Nat.mod_eq_of_lt (by omega)]
  have mem : (core.push word).mem = core.mem.write32 (core.esp - 4) word := by
    simp only [push, wrap]
  constructor
  · rw [esp, List.length_singleton]
    omega
  · rw [esp, mem]
    exact ⟨Bytes.read32_write32_self _ small, trivial⟩
  · intro query outside
    rw [esp] at outside
    rw [mem, Bytes.write32_of_outside _ _ (by omega)]

theorem pushed_pushAll (core : Core) {words : List Nat} (room : 4 * words.length ≤ core.esp)
    (small : ∀ word ∈ words, word < 2 ^ 32) :
    Pushed core (core.pushAll words) words.reverse := by
  induction words generalizing core with
  | nil => exact .refl core
  | cons word words ih =>
      simp only [List.length_cons] at room
      have first := core.pushed_push (by omega) (small word List.mem_cons_self)
      have esp := first.esp
      simp only [List.length_singleton] at esp
      have rest := ih (core.push word) (by omega) fun other member =>
        small other (List.mem_cons_of_mem _ member)
      rw [List.reverse_cons, pushAll_cons]
      exact first.trans rest

theorem pushed_pushal (core : Core) (room : 32 ≤ core.esp) :
    Pushed core (core.step .pushal) (generalRegs core.regs.value) := by
  have small : ∀ word ∈ (generalRegs core.regs.value).reverse, word < 2 ^ 32 := by
    intro word member
    simp only [generalRegs, List.mem_reverse, List.mem_cons, List.not_mem_nil, or_false] at member
    rcases member with rfl | rfl | rfl | rfl | rfl | rfl | rfl | rfl <;> exact core.regs.small _
  have pushed := core.pushed_pushAll (by simpa [generalRegs] using room) small
  rwa [List.reverse_reverse] at pushed

section

variable (core : Core) (gate : Gate) (errorCode : Option Nat)

theorem interrupt_regs {query : Reg} (different : query ≠ .esp) :
    (core.interrupt gate errorCode).regs.value query = core.regs.value query := by
  have stack : (core.stackOf gate).regs.value query = core.regs.value query := by
    unfold stackOf
    split
    · exact core.setEsp_regs _ different
    · rfl
  rw [← stack]
  exact pushAll_regs _ _ different

theorem interrupt_cs (small : gate.selector < 2 ^ 16) :
    (core.interrupt gate errorCode).segs.value .cs = gate.selector :=
  Nat.mod_eq_of_lt small

theorem interrupt_segs {query : Seg} (notCs : query ≠ .cs) (notSs : query ≠ .ss) :
    (core.interrupt gate errorCode).segs.value query = core.segs.value query := by
  simp only [interrupt, Segs.set_value, if_neg notCs, pushAll_segs, stackOf]
  split
  · exact if_neg notSs
  · rfl

theorem interrupt_ss (inner : ¬ core.Outer gate) :
    (core.interrupt gate errorCode).segs.value .ss = core.segs.value .ss := by
  simp only [interrupt, Segs.set_value, pushAll_segs, stackOf, if_neg inner]
  rfl

theorem pushed_interrupt (room : 24 ≤ (core.stackOf gate).esp) (eip : core.eip < 2 ^ 32)
    (small : ∀ word ∈ errorCode, word < 2 ^ 32) :
    Pushed (core.stackOf gate) (core.interrupt gate errorCode)
      (core.interruptFrame gate errorCode).reverse := by
  have frameSmall : ∀ word ∈ core.interruptFrame gate errorCode, word < 2 ^ 32 := by
    intro word member
    have selector : ∀ seg, core.segs.value seg < 2 ^ 32 := fun seg =>
      (core.segs.small seg).trans (by decide)
    simp only [interruptFrame, List.mem_append, List.mem_cons, List.not_mem_nil, or_false,
      Option.mem_toList] at member
    rcases member with (member | rfl | rfl | rfl) | member
    · split at member
      · simp only [List.mem_cons, List.not_mem_nil, or_false] at member
        rcases member with rfl | rfl
        · exact selector .ss
        · exact core.regs.small .esp
      · exact absurd member List.not_mem_nil
    · exact core.eflags.word.isLt
    · exact selector .cs
    · exact eip
    · exact small word member
  have frameLength : (core.interruptFrame gate errorCode).length ≤ 6 := by
    simp only [interruptFrame]
    split <;> cases errorCode <;> simp
  exact ((core.stackOf gate).pushed_pushAll (by omega) frameSmall).congr rfl rfl rfl rfl

end

/-- What `iret` changes to any program: the words on the stack say where it goes on. -/
structure Returned (before after : Core) (eip cs eflags : Nat) : Prop where
  eip : after.eip = eip
  eflags : after.eflags = .load (BitVec.ofNat 32 eflags)
  regs : ∀ reg, reg ≠ .esp → after.regs.value reg = before.regs.value reg
  mem : after.mem = before.mem
  cs : after.segs.value .cs = cs
  segs : ∀ seg, seg ≠ .cs → seg ≠ .ss → after.segs.value seg = before.segs.value seg

/-- The words that lie on the stack, the top first, up to the address `base`. -/
structure Stacked (core : Core) (words : List Nat) (base : Nat) : Prop where
  ends : core.esp + 4 * words.length = base
  fits : base < 2 ^ 32
  words : WordsAt core.mem core.esp words

namespace Stacked

variable {core : Core} {word base : Nat} {words : List Nat}

theorem top (stacked : core.Stacked (word :: words) base) : core.top = word := stacked.words.1

theorem drop_esp (stacked : core.Stacked (word :: words) base) :
    core.drop.esp = core.esp + 4 := by
  have ends := stacked.ends
  have fits := stacked.fits
  simp only [List.length_cons] at ends
  exact core.drop_esp (by omega)

theorem drop (stacked : core.Stacked (word :: words) base) : core.drop.Stacked words base where
  ends := by
    have ends := stacked.ends
    simp only [List.length_cons] at ends
    rw [stacked.drop_esp]
    omega
  fits := stacked.fits
  words := by
    rw [stacked.drop_esp]
    exact stacked.words.2

/-- Only the stack pointer and memory matter. -/
theorem congr {core' : Core} (stacked : core.Stacked words base) (esp : core'.esp = core.esp)
    (mem : core'.mem = core.mem) : core'.Stacked words base where
  ends := by rw [esp]; exact stacked.ends
  fits := stacked.fits
  words := by rw [esp, mem]; exact stacked.words

/-- Pop into any other register than the stack pointer. -/
theorem popReg (stacked : core.Stacked (word :: words) base) (reg : Reg) (other : reg ≠ .esp) :
    (core.popReg reg).Stacked words base :=
  stacked.drop.congr (Regs.set_of_ne _ _ other.symm) rfl

theorem popReg_self (stacked : core.Stacked (word :: words) base) (reg : Reg)
    (small : word < 2 ^ 32) : (core.popReg reg).regs.value reg = word := by
  rw [← stacked.top] at small ⊢
  exact Regs.set_self_of_lt _ _ small

/-- `popal` brings back what `pushal` saved, but for the stack pointer. -/
theorem popal {value : Reg → Nat} (stacked : core.Stacked (generalRegs value ++ words) base)
    (small : ∀ reg, value reg < 2 ^ 32) :
    (core.step .popal).Stacked words base ∧
      ∀ reg, reg ≠ .esp → (core.step .popal).regs.value reg = value reg := by
  have edi := stacked.popReg .edi (by decide)
  have esi := edi.popReg .esi (by decide)
  have ebp := esi.popReg .ebp (by decide)
  have ebx := ebp.drop.popReg .ebx (by decide)
  have edx := ebx.popReg .edx (by decide)
  have ecx := edx.popReg .ecx (by decide)
  have ediSelf := stacked.popReg_self .edi (small _)
  have esiSelf := edi.popReg_self .esi (small _)
  have ebpSelf := esi.popReg_self .ebp (small _)
  have ebxSelf := ebp.drop.popReg_self .ebx (small _)
  have edxSelf := ebx.popReg_self .edx (small _)
  have ecxSelf := edx.popReg_self .ecx (small _)
  have eaxSelf := ecx.popReg_self .eax (small _)
  refine ⟨ecx.popReg .eax (by decide), fun reg other => ?_⟩
  cases reg with
  | esp => exact absurd rfl other
  | _ =>
      simp (disch := decide) only [step, popReg_of_ne, drop_regs, ediSelf, esiSelf, ebpSelf,
        ebxSelf, edxSelf, ecxSelf, eaxSelf]

theorem popSeg (stacked : core.Stacked (word :: words) base) (seg : Seg) :
    (core.step (.popSeg seg)).Stacked words base := stacked.drop.congr rfl rfl

theorem popSeg_segs (stacked : core.Stacked (word :: words) base) (seg : Seg)
    (small : word < 2 ^ 16) (query : Seg) : (core.step (.popSeg seg)).segs.value query =
      if query = seg then word else core.segs.value query := by
  rw [step, Segs.set_value, stacked.top, Nat.mod_eq_of_lt small]

variable {eip cs eflags : Nat} {codeSegments : List Nat}

theorem iret_fault (stacked : core.Stacked (eip :: cs :: words) base)
    (fault : cs % 2 ^ 16 ∉ codeSegments) : core.iret codeSegments = none := by
  have second : core.drop.top = cs := stacked.drop.top
  simp only [iret, second, if_pos fault]

/-- `iret` to a program with the same privilege. -/
theorem iret_inner (stacked : core.Stacked (eip :: cs :: eflags :: words) base)
    (valid : cs ∈ codeSegments) (small : cs < 2 ^ 16)
    (inner : ¬ privilege (core.segs.value .cs) < privilege cs) :
    ∃ after, core.iret codeSegments = some after ∧ Returned core after eip cs eflags ∧
      after.esp = core.esp + 12 ∧ after.segs.value .ss = core.segs.value .ss := by
  have first := stacked.top
  have second := stacked.drop.top
  have third := stacked.drop.drop.top
  have esp : core.drop.drop.drop.esp = core.esp + 12 := by
    rw [stacked.drop.drop.drop_esp, stacked.drop.drop_esp, stacked.drop_esp]
  have regs : ∀ reg, reg ≠ .esp → core.drop.drop.drop.regs.value reg = core.regs.value reg :=
    fun reg other => by rw [drop_regs _ other, drop_regs _ other, drop_regs _ other]
  simp only [iret, first, second, third, drop_segs, Nat.mod_eq_of_lt small, not_not.mpr valid,
    if_false, if_neg inner]
  refine ⟨_, rfl, ?_, esp, rfl⟩
  exact {
    eip := rfl
    eflags := rfl
    regs := regs
    mem := rfl
    cs := Nat.mod_eq_of_lt small
    segs := fun seg notCs _ => if_neg notCs }

/-- `iret` to a less privileged program, whose stack is on the stack too. -/
theorem iret_outer {esp ss : Nat}
    (stacked : core.Stacked (eip :: cs :: eflags :: esp :: ss :: words) base)
    (valid : cs ∈ codeSegments) (small : cs < 2 ^ 16) (espLt : esp < 2 ^ 32) (ssLt : ss < 2 ^ 16)
    (outer : privilege (core.segs.value .cs) < privilege cs) :
    ∃ after, core.iret codeSegments = some after ∧ Returned core after eip cs eflags ∧
      after.esp = esp ∧ after.segs.value .ss = ss := by
  have first := stacked.top
  have second := stacked.drop.top
  have third := stacked.drop.drop.top
  have fourth := stacked.drop.drop.drop.top
  have fifth := stacked.drop.drop.drop.drop.top
  have regs : ∀ reg, reg ≠ .esp → core.drop.drop.drop.regs.value reg = core.regs.value reg :=
    fun reg other => by rw [drop_regs _ other, drop_regs _ other, drop_regs _ other]
  simp only [iret, first, second, third, drop_segs, Nat.mod_eq_of_lt small, not_not.mpr valid,
    if_false, if_pos outer]
  refine ⟨_, rfl, ?_, ?_, ?_⟩
  · exact {
      eip := rfl
      eflags := rfl
      regs := fun reg other => (setEsp_regs _ _ other).trans (regs reg other)
      mem := rfl
      cs := Nat.mod_eq_of_lt small
      segs := fun seg notCs notSs => (if_neg notSs).trans (if_neg notCs) }
  · refine (setEsp_esp _ _).trans ?_
    rw [← Nat.mod_eq_of_lt espLt, ← fourth]
    rfl
  · rw [Segs.set_value, if_pos rfl, ← Nat.mod_eq_of_lt ssLt, ← fifth]
    rfl

end Stacked

end Core

end Foundation
