import Pumelo.Foundation.Interrupt

/-!
# Interrupt entry and exit

The stubs of `kernel.S`, one for each vector, and `intr_exit`.  A stub completes the
processor's frame to a `struct trapframe` and calls `general_intr_handler`; the handler
is any function that keeps the calling convention.
-/

namespace Pumelo

open Foundation

def SELECTOR_KERNEL_CODE : Nat := 8
def SELECTOR_U_CODE : Nat := 43

/-- A stub up to its `call general_intr_handler`. Before the segments it pushes what
stands in for the error code, or nothing. -/
def stub (errorCode : List StubInstr) (vecno : Nat) : List StubInstr :=
  errorCode ++
  [ .pushSeg .ds
  , .pushSeg .es
  , .pushSeg .fs
  , .pushSeg .gs
  , .pushal
  , .pushImm vecno
  , .movbAl 0x20
  , .outbAl 0xa0
  , .outbAl 0x20 ]

def vector0 : List StubInstr := stub [.pushImm 0] 0
def vector1 : List StubInstr := stub [.pushImm 0] 1
def vector2 : List StubInstr := stub [.pushImm 0] 2
def vector3 : List StubInstr := stub [.pushImm 0] 3
def vector4 : List StubInstr := stub [.pushImm 0] 4
def vector5 : List StubInstr := stub [.pushImm 0] 5
def vector6 : List StubInstr := stub [.pushImm 0] 6
def vector7 : List StubInstr := stub [.pushImm 0] 7
def vector8 : List StubInstr := stub [] 8
def vector9 : List StubInstr := stub [] 9
def vector10 : List StubInstr := stub [] 10
def vector11 : List StubInstr := stub [] 11
def vector12 : List StubInstr := stub [] 12
def vector13 : List StubInstr := stub [] 13
def vector14 : List StubInstr := stub [] 14
def vector15 : List StubInstr := stub [.pushImm 0] 15
def vector16 : List StubInstr := stub [.pushImm 0] 16
def vector17 : List StubInstr := stub [] 17
def vector18 : List StubInstr := stub [.pushImm 0] 18
def vector19 : List StubInstr := stub [.pushImm 0] 19
def vector20 : List StubInstr := stub [.pushImm 0] 20
def vector21 : List StubInstr := stub [.pushImm 0] 21
def vector22 : List StubInstr := stub [.pushImm 0] 22
def vector23 : List StubInstr := stub [.pushImm 0] 23
def vector24 : List StubInstr := stub [.pushImm 0] 24
def vector25 : List StubInstr := stub [.pushImm 0] 25
def vector26 : List StubInstr := stub [.pushImm 0] 26
def vector27 : List StubInstr := stub [.pushImm 0] 27
def vector28 : List StubInstr := stub [.pushImm 0] 28
def vector29 : List StubInstr := stub [.pushImm 0] 29
def vector30 : List StubInstr := stub [.pushImm 0] 30
def vector31 : List StubInstr := stub [.pushImm 0] 31
def vector32 : List StubInstr := stub [.pushImm 0] 32
def vector33 : List StubInstr := stub [.pushImm 0] 33
def vector34 : List StubInstr := stub [.pushImm 0] 34
def vector35 : List StubInstr := stub [.pushImm 0] 35
def vector36 : List StubInstr := stub [.pushImm 0] 36
def vector37 : List StubInstr := stub [.pushImm 0] 37
def vector38 : List StubInstr := stub [.pushImm 0] 38
def vector39 : List StubInstr := stub [.pushImm 0] 39
def vector40 : List StubInstr := stub [.pushImm 0] 40
def vector41 : List StubInstr := stub [.pushImm 0] 41
def vector42 : List StubInstr := stub [.pushImm 0] 42
def vector43 : List StubInstr := stub [.pushImm 0] 43
def vector44 : List StubInstr := stub [.pushImm 0] 44
def vector45 : List StubInstr := stub [.pushImm 0] 45
def vector46 : List StubInstr := stub [.pushImm 0] 46
def vector47 : List StubInstr := stub [.pushImm 0] 47
def vector48 : List StubInstr := stub [.pushImm 0] 48
def vector49 : List StubInstr := stub [.pushImm 0] 49
def vector50 : List StubInstr := stub [.pushImm 0] 50

def intrEntryTable : List (List StubInstr) :=
  [ vector0, vector1, vector2, vector3, vector4, vector5, vector6, vector7, vector8,
    vector9, vector10, vector11, vector12, vector13, vector14, vector15, vector16,
    vector17, vector18, vector19, vector20, vector21, vector22, vector23, vector24,
    vector25, vector26, vector27, vector28, vector29, vector30, vector31, vector32,
    vector33, vector34, vector35, vector36, vector37, vector38, vector39, vector40,
    vector41, vector42, vector43, vector44, vector45, vector46, vector47, vector48,
    vector49, vector50 ]

/-- `intr_exit` up to its `iret` -/
def intrExit : List StubInstr :=
  [ .addlEsp 4
  , .popal
  , .popSeg .gs
  , .popSeg .fs
  , .popSeg .es
  , .popSeg .ds
  , .addlEsp 4 ]

/-- The vectors for which the processor pushes an error code. -/
def PushesErrorCode (vecno : Nat) : Prop := vecno = 8 ∨ 10 ≤ vecno ∧ vecno ≤ 14 ∨ vecno = 17

instance (vecno : Nat) : Decidable (PushesErrorCode vecno) := instDecidableOr

/-- The state in which `general_intr_handler` begins; its argument and the rest of the
`struct trapframe` are above the return address. -/
def handlerEntry (core : Core) (gate : Core.Gate) (vecno errorCode returnAddr : Nat) : Core :=
  let pushed := if PushesErrorCode vecno then some errorCode else none
  ((core.interrupt gate pushed).run (intrEntryTable.getD vecno [])).push returnAddr

/-- After the handler has returned: `jmp intr_exit` stands at `returnAddr`. -/
def leave (returnAddr : Nat) (returned : Core) : Option Core :=
  if returned.eip = returnAddr then
    (returned.run intrExit).iret [SELECTOR_KERNEL_CODE, SELECTOR_U_CODE]
  else none

/-- `struct trapframe` -/
structure Trapframe where
  vecno : Nat
  edi : Nat
  esi : Nat
  ebp : Nat
  espDummy : Nat
  ebx : Nat
  edx : Nat
  ecx : Nat
  eax : Nat
  gs : Nat
  fs : Nat
  es : Nat
  ds : Nat
  errCode : Nat
  eip : Nat
  cs : Nat
  eflags : Nat
  esp : Nat
  ss : Nat
  deriving DecidableEq, Repr

/-- The `struct trapframe` at an address. -/
def loadTrapframe (mem : Bytes) (addr : Nat) : Trapframe where
  vecno := mem.read32 addr
  edi := mem.read32 (addr + 4)
  esi := mem.read32 (addr + 8)
  ebp := mem.read32 (addr + 12)
  espDummy := mem.read32 (addr + 16)
  ebx := mem.read32 (addr + 20)
  edx := mem.read32 (addr + 24)
  ecx := mem.read32 (addr + 28)
  eax := mem.read32 (addr + 32)
  gs := mem.read32 (addr + 36)
  fs := mem.read32 (addr + 40)
  es := mem.read32 (addr + 44)
  ds := mem.read32 (addr + 48)
  errCode := mem.read32 (addr + 52)
  eip := mem.read32 (addr + 56)
  cs := mem.read32 (addr + 60)
  eflags := mem.read32 (addr + 64)
  esp := mem.read32 (addr + 68)
  ss := mem.read32 (addr + 72)

/-- A program that is interrupted, in the kernel or outside, with its stack up to
`stackEnd`, and an error code for the vectors that have one.  The stack that the
interrupt is taken on has room for the frame and is not the program's own where the
program runs outside the kernel. -/
structure Interrupted where
  core : Core
  gate : Core.Gate
  errorCode : Nat
  stackEnd : Nat
  mode : core.segs.value .cs = SELECTOR_KERNEL_CODE ∨ core.segs.value .cs = SELECTOR_U_CODE
  selector : gate.selector = SELECTOR_KERNEL_CODE
  eipLt : core.eip < 2 ^ 32
  errorCodeLt : errorCode < 2 ^ 32
  room : 80 ≤ (core.stackOf gate).esp
  apart : core.Outer gate → ∀ query, core.esp ≤ query → query < stackEnd →
    query < (core.stackOf gate).esp - 80 ∨ (core.stackOf gate).esp ≤ query

namespace Interrupted

variable (moment : Interrupted)

/-- Where the stack began that the interrupt is taken on. -/
def base : Nat := (moment.core.stackOf moment.gate).esp

/-- The interrupted program runs outside the kernel. -/
abbrev Outer : Prop := moment.core.Outer moment.gate

/-- The bytes on the stack of the interrupted program. -/
def OnStack (query : Nat) : Prop := moment.core.esp ≤ query ∧ query < moment.stackEnd

/-- The state in which `general_intr_handler` begins. -/
def entry (vecno returnAddr : Nat) : Core :=
  handlerEntry moment.core moment.gate vecno moment.errorCode returnAddr

end Interrupted

/-- What the C calling convention requires of `general_intr_handler`: it returns behind
its call, with its return address popped, keeps the registers that belong to its caller
and the segments, and of memory the stack above its argument and that of the
interrupted program. -/
structure Cdecl (moment : Interrupted) (entered returned : Core) : Prop where
  eip : returned.eip = entered.top
  esp : returned.esp = entered.esp + 4
  regs : ∀ reg ∈ [Reg.ebx, .esi, .edi, .ebp], returned.regs.value reg = entered.regs.value reg
  segs : returned.segs = entered.segs
  frame : ∀ query, entered.esp + 8 ≤ query → query < moment.base →
    returned.mem query = entered.mem query
  stack : ∀ query, moment.OnStack query → returned.mem query = entered.mem query

/-- The fields of a `struct trapframe` are those of the interrupted program; the last two
are there for a program outside the kernel only.  `espDummy` is the stack pointer in
front of `pushal`. -/
structure FrameOf (moment : Interrupted) (vec addr : Nat) (frame : Trapframe) : Prop where
  vecno : frame.vecno = vec
  edi : frame.edi = moment.core.regs.value .edi
  esi : frame.esi = moment.core.regs.value .esi
  ebp : frame.ebp = moment.core.regs.value .ebp
  espDummy : frame.espDummy = addr + 36
  ebx : frame.ebx = moment.core.regs.value .ebx
  edx : frame.edx = moment.core.regs.value .edx
  ecx : frame.ecx = moment.core.regs.value .ecx
  eax : frame.eax = moment.core.regs.value .eax
  gs : frame.gs = moment.core.segs.value .gs
  fs : frame.fs = moment.core.segs.value .fs
  es : frame.es = moment.core.segs.value .es
  ds : frame.ds = moment.core.segs.value .ds
  errCode : frame.errCode = if PushesErrorCode vec then moment.errorCode else 0
  eip : frame.eip = moment.core.eip
  cs : frame.cs = moment.core.segs.value .cs
  eflags : frame.eflags = moment.core.eflags.word.toNat
  esp : moment.Outer → frame.esp = moment.core.esp
  ss : moment.Outer → frame.ss = moment.core.segs.value .ss

/-- The interrupted program goes on where it was, with everything as it was. -/
structure Resumed (moment : Interrupted) (after : Core) : Prop where
  eip : after.eip = moment.core.eip
  regs : after.regs = moment.core.regs
  segs : after.segs = moment.core.segs
  eflags : after.eflags = moment.core.eflags
  stack : ∀ query, moment.OnStack query → after.mem query = moment.core.mem query

/-- An interrupt that the interrupted program does not notice, and for which the handler
finds a `struct trapframe` above its return address. -/
structure Transparent (moment : Interrupted) (handler : Core → Core) (vecno returnAddr : Nat) :
    Prop where
  frame : FrameOf moment vecno ((moment.entry vecno returnAddr).esp + 4)
    (loadTrapframe (moment.entry vecno returnAddr).mem ((moment.entry vecno returnAddr).esp + 4))
  resumed : ∃ after, leave returnAddr (handler (moment.entry vecno returnAddr)) = some after ∧
    Resumed moment after

/-- What a stub pushes in front of the segments. -/
def errorInstrs (vecno : Nat) : List StubInstr :=
  if PushesErrorCode vecno ∨ vecno = 9 then [] else [.pushImm 0]

/-- Every entry of the table is a stub of its own number; vector 9 has no error code and
pushes nothing for it either. -/
theorem intrEntryTable_getD {vecno : Nat} (inTable : vecno ≤ 50) :
    intrEntryTable.getD vecno [] = stub (errorInstrs vecno) vecno := by
  have every : ∀ vecno < 51, intrEntryTable.getD vecno [] = stub (errorInstrs vecno) vecno := by
    decide
  exact every vecno (by omega)

theorem stub_eq (errorCode : List StubInstr) (vecno : Nat) :
    stub errorCode vecno = errorCode ++ stub [] vecno := rfl

section

variable (start : Core) (vecno : Nat)

theorem stub_segs : (start.run (stub [] vecno)).segs = start.segs := rfl

/-- The four segment registers are pushed as they are. -/
theorem pushed_segs (room : 16 ≤ start.esp) :
    ∃ segs, start.run [.pushSeg .ds, .pushSeg .es, .pushSeg .fs, .pushSeg .gs] = segs ∧
      Core.Pushed start segs [start.segs.value .gs, start.segs.value .fs, start.segs.value .es,
        start.segs.value .ds] ∧
      ∀ reg, reg ≠ .esp → segs.regs.value reg = start.regs.value reg := by
  have selector : ∀ seg, start.segs.value seg < 2 ^ 32 := fun seg =>
    (start.segs.small seg).trans (by decide)
  refine ⟨start.pushAll [start.segs.value .ds, start.segs.value .es, start.segs.value .fs,
    start.segs.value .gs], rfl, ?_, fun reg other => start.pushAll_regs _ other⟩
  refine start.pushed_pushAll room ?_
  simp only [List.mem_cons, List.not_mem_nil, or_false]
  rintro word (rfl | rfl | rfl | rfl) <;> exact selector _

/-- The stub behind the error code: the general registers are saved as they are. -/
theorem pushed_stub (room : 52 ≤ start.esp) (small : vecno < 2 ^ 32) :
    ∃ value : Reg → Nat,
      (∀ reg, value reg < 2 ^ 32) ∧ (∀ reg, reg ≠ .esp → value reg = start.regs.value reg) ∧
        value .esp + 16 = start.esp ∧
          Core.Pushed start (start.run (stub [] vecno))
            (vecno :: Core.generalRegs value ++ [start.segs.value .gs, start.segs.value .fs,
              start.segs.value .es, start.segs.value .ds]) := by
  obtain ⟨segs, segsRun, pushedSegs, regs⟩ := pushed_segs start (by omega)
  have segsEsp : segs.esp + 16 = start.esp := pushedSegs.esp
  have pushedRegs := segs.pushed_pushal (by omega)
  have regsEsp : (segs.step .pushal).esp + 32 = segs.esp := pushedRegs.esp
  have pushedVecno := (segs.step .pushal).pushed_push (by omega) small
  have run : start.run (stub [] vecno) =
      ((((segs.step .pushal).step (.pushImm vecno)).step (.movbAl 0x20)).step (.outbAl 0xa0)).step
        (.outbAl 0x20) := by
    rw [← segsRun]
    simp only [stub, List.nil_append, Core.run_cons, Core.run_nil]
  refine ⟨segs.regs.value, segs.regs.small, regs, segsEsp, ?_⟩
  -- what follows only changes `al` and the ports
  refine ((pushedSegs.trans pushedRegs).trans pushedVecno).congr rfl rfl ?_ ?_
  · rw [run, Core.outbAl_esp, Core.outbAl_esp, Core.movbAl_esp, Core.step_pushImm]
  · rw [run, Core.outbAl_mem, Core.outbAl_mem, Core.movbAl_mem, Core.step_pushImm]

end

/-! ## The whole frame -/

/-- The words of the interrupted program on the stack: where it was, and its own stack
where it has one. -/
def programWords (core : Core) (gate : Core.Gate) : List Nat :=
  [core.eip, core.segs.value .cs, core.eflags.word.toNat] ++
    if core.Outer gate then [core.esp, core.segs.value .ss] else []

theorem programWords_length (core : Core) (gate : Core.Gate) :
    (programWords core gate).length ≤ 5 := by
  unfold programWords
  split <;> simp

/-- The words between the segments and those of the program. -/
def errorWords (vecno errorCode : Nat) : List Nat :=
  if PushesErrorCode vecno then [errorCode] else if vecno = 9 then [] else [0]

theorem run_errorInstrs (core : Core) (vecno : Nat) :
    (core.run (errorInstrs vecno)).segs = core.segs ∧
      ∀ reg, reg ≠ .esp → (core.run (errorInstrs vecno)).regs.value reg = core.regs.value reg := by
  unfold errorInstrs
  split
  · exact ⟨rfl, fun _ _ => rfl⟩
  · exact ⟨rfl, fun reg other => core.push_regs 0 other⟩

/-- The processor's error code or the zero of the stub is pushed behind the words of the
program, but for vector 9. -/
theorem pushed_errorWords (moment : Interrupted) (vecno : Nat) :
    let pushed := if PushesErrorCode vecno then some moment.errorCode else none
    Core.Pushed (moment.core.stackOf moment.gate)
      ((moment.core.interrupt moment.gate pushed).run (errorInstrs vecno))
      (errorWords vecno moment.errorCode ++ programWords moment.core moment.gate) := by
  intro pushed
  have room := moment.room
  have small : ∀ word ∈ pushed, word < 2 ^ 32 := by
    intro word member
    simp only [pushed] at member
    split at member
    · obtain rfl := Option.mem_some.mp member
      exact moment.errorCodeLt
    · exact absurd member (Option.not_mem_none word)
  have entered := moment.core.pushed_interrupt moment.gate pushed (by omega) moment.eipLt small
  have frame : (moment.core.interruptFrame moment.gate pushed).reverse =
      pushed.toList ++ programWords moment.core moment.gate := by
    simp only [Core.interruptFrame, programWords, List.reverse_append]
    by_cases outer : moment.core.Outer moment.gate <;> cases pushed <;> simp [outer]
  rw [frame] at entered
  by_cases code : PushesErrorCode vecno
  · simpa [errorInstrs, errorWords, pushed, code] using entered
  · have none' : pushed = none := if_neg code
    rw [none'] at entered ⊢
    by_cases nine : vecno = 9
    · subst nine
      simpa [errorInstrs, errorWords, code] using entered
    · simp only [errorInstrs, errorWords, code, nine, or_self, if_false, Core.run_cons,
        Core.run_nil, Core.step_pushImm]
      have length := programWords_length moment.core moment.gate
      have esp := entered.esp
      simp only [Option.toList_none, List.nil_append] at esp
      exact entered.trans (Core.pushed_push _ (by omega) (by decide))

theorem errorWords_length (vecno errorCode : Nat) : (errorWords vecno errorCode).length ≤ 1 := by
  unfold errorWords
  split
  · rfl
  · split <;> simp

/-- The stack where `general_intr_handler` begins. -/
theorem pushed_entry (moment : Interrupted) {vecno returnAddr : Nat} (inTable : vecno ≤ 50)
    (small : returnAddr < 2 ^ 32) :
    ∃ value : Reg → Nat,
      (∀ reg, value reg < 2 ^ 32) ∧
        (∀ reg, reg ≠ .esp → value reg = moment.core.regs.value reg) ∧
        value .esp = (moment.entry vecno returnAddr).esp + 4 + 36 ∧
          Core.Pushed (moment.core.stackOf moment.gate) (moment.entry vecno returnAddr)
            (returnAddr :: vecno :: Core.generalRegs value ++
              [moment.core.segs.value .gs, moment.core.segs.value .fs, moment.core.segs.value .es,
                moment.core.segs.value .ds] ++
              errorWords vecno moment.errorCode ++ programWords moment.core moment.gate) := by
  have room := moment.room
  have errorLength := errorWords_length vecno moment.errorCode
  have programLength := programWords_length moment.core moment.gate
  have first := pushed_errorWords moment vecno
  simp only at first
  generalize pushedEq : (if PushesErrorCode vecno then some moment.errorCode else none) = pushed
    at first
  obtain ⟨errorSegs, errorRegs⟩ :=
    run_errorInstrs (moment.core.interrupt moment.gate pushed) vecno
  generalize startEq : (moment.core.interrupt moment.gate pushed).run (errorInstrs vecno) = start
    at first errorSegs errorRegs
  have entry : moment.entry vecno returnAddr = (start.run (stub [] vecno)).push returnAddr := by
    rw [Interrupted.entry, handlerEntry, pushedEq, intrEntryTable_getD inTable, stub_eq,
      Core.run_append, startEq]
  have startEsp := first.esp
  simp only [List.length_append] at startEsp
  obtain ⟨value, valueSmall, regs, esp, second⟩ := pushed_stub start vecno (by omega) (by omega)
  have stubEsp := second.esp
  simp only [List.length_append, List.length_cons, List.length_nil, Core.generalRegs] at stubEsp
  have third := (start.run (stub [] vecno)).pushed_push (by omega) small
  have entryEsp := third.esp
  simp only [List.length_singleton] at entryEsp
  have segs : ∀ seg, seg ≠ .cs → seg ≠ .ss → start.segs.value seg = moment.core.segs.value seg :=
    fun seg notCs notSs => by rw [errorSegs, Core.interrupt_segs _ _ _ notCs notSs]
  rw [entry]
  refine ⟨value, valueSmall, fun reg other => ?_, by omega, ?_⟩
  · rw [regs reg other, errorRegs reg other, Core.interrupt_regs _ _ _ other]
  · rw [segs .gs (by decide) (by decide), segs .fs (by decide) (by decide),
      segs .es (by decide) (by decide), segs .ds (by decide) (by decide)] at second
    have all := (first.trans second).trans third
    simpa only [List.append_assoc, List.cons_append, List.nil_append] using all

/-- The segments where `general_intr_handler` begins are those after the processor's
entry. -/
theorem entry_segs (moment : Interrupted) {vecno returnAddr : Nat} (inTable : vecno ≤ 50) :
    let pushed := if PushesErrorCode vecno then some moment.errorCode else none
    (moment.entry vecno returnAddr).segs =
      (moment.core.interrupt moment.gate pushed).segs := by
  intro pushed
  obtain ⟨errorSegs, -⟩ := run_errorInstrs (moment.core.interrupt moment.gate pushed) vecno
  rw [Interrupted.entry, handlerEntry, intrEntryTable_getD inTable, stub_eq, Core.run_append,
    Core.push_segs, stub_segs, errorSegs]

/-- With every vector but 9 the handler finds the trap frame. -/
theorem frameOf_entry (moment : Interrupted) {vecno returnAddr : Nat} (inTable : vecno ≤ 50)
    (small : returnAddr < 2 ^ 32) (notNine : vecno ≠ 9) :
    FrameOf moment vecno ((moment.entry vecno returnAddr).esp + 4)
      (loadTrapframe (moment.entry vecno returnAddr).mem
        ((moment.entry vecno returnAddr).esp + 4)) := by
  obtain ⟨value, -, regs, dummy, pushed⟩ := pushed_entry moment inTable small
  have error : errorWords vecno moment.errorCode =
      [if PushesErrorCode vecno then moment.errorCode else 0] := by
    simp only [errorWords, if_neg notNine]
    split <;> rfl
  have words := pushed.words
  rw [error, programWords] at words
  have frame := words.2
  generalize (moment.entry vecno returnAddr).esp + 4 = addr at dummy frame ⊢
  exact {
    vecno := frame.getElem 0 rfl
    edi := (frame.getElem 1 rfl).trans (regs .edi (by decide))
    esi := (frame.getElem 2 rfl).trans (regs .esi (by decide))
    ebp := (frame.getElem 3 rfl).trans (regs .ebp (by decide))
    espDummy := (frame.getElem 4 rfl).trans dummy
    ebx := (frame.getElem 5 rfl).trans (regs .ebx (by decide))
    edx := (frame.getElem 6 rfl).trans (regs .edx (by decide))
    ecx := (frame.getElem 7 rfl).trans (regs .ecx (by decide))
    eax := (frame.getElem 8 rfl).trans (regs .eax (by decide))
    gs := frame.getElem 9 rfl
    fs := frame.getElem 10 rfl
    es := frame.getElem 11 rfl
    ds := frame.getElem 12 rfl
    errCode := frame.getElem 13 rfl
    eip := frame.getElem 14 rfl
    cs := frame.getElem 15 rfl
    eflags := frame.getElem 16 rfl
    esp := fun outer => frame.getElem 17 (by rw [if_pos outer]; rfl)
    ss := fun outer => frame.getElem 18 (by rw [if_pos outer]; rfl) }

/-- `intr_exit` restores the registers from the frame, and drops a word on either side. -/
theorem intrExit_restores {core : Core} {value : Reg → Nat} {argument error base : Nat}
    {words : List Nat} (segs : Segs)
    (stacked : core.Stacked (argument :: Core.generalRegs value ++
      [segs.value .gs, segs.value .fs, segs.value .es, segs.value .ds] ++ error :: words) base)
    (small : ∀ reg, value reg < 2 ^ 32) :
    (core.run intrExit).Stacked words base ∧
      (core.run intrExit).mem = core.mem ∧
      (∀ reg, reg ≠ .esp → (core.run intrExit).regs.value reg = value reg) ∧
      (core.run intrExit).segs.value .cs = core.segs.value .cs ∧
      (core.run intrExit).segs.value .ss = core.segs.value .ss ∧
      ∀ seg, seg ≠ .cs → seg ≠ .ss → (core.run intrExit).segs.value seg = segs.value seg := by
  simp only [List.cons_append, List.append_assoc] at stacked
  obtain ⟨afterRegs, regs⟩ := stacked.drop.popal small
  have gs := afterRegs.popSeg .gs
  have fs := gs.popSeg .fs
  have es := fs.popSeg .es
  have ds := es.popSeg .ds
  have gsSegs := afterRegs.popSeg_segs .gs (segs.small _)
  have fsSegs := gs.popSeg_segs .fs (segs.small _)
  have esSegs := fs.popSeg_segs .es (segs.small _)
  have dsSegs := es.popSeg_segs .ds (segs.small _)
  have run : core.run intrExit = (((((core.drop.step .popal).step (.popSeg .gs)).step
      (.popSeg .fs)).step (.popSeg .es)).step (.popSeg .ds)).drop := rfl
  rw [run]
  refine ⟨ds.drop, rfl, fun reg other => ?_, ?_, ?_, fun seg notCs notSs => ?_⟩
  · rw [Core.drop_regs _ other, Core.popSeg_regs _ _ other, Core.popSeg_regs _ _ other,
      Core.popSeg_regs _ _ other, Core.popSeg_regs _ _ other, regs reg other]
  · rw [Core.drop_segs, dsSegs, esSegs, fsSegs, gsSegs]
    rfl
  · rw [Core.drop_segs, dsSegs, esSegs, fsSegs, gsSegs]
    rfl
  · rw [Core.drop_segs, dsSegs, esSegs, fsSegs, gsSegs]
    cases seg with
    | cs => exact absurd rfl notCs
    | ss => exact absurd rfl notSs
    | _ => rfl

/-- What the handler leaves on the stack: its argument is its own, the rest of the frame
is as it was. -/
theorem stacked_returned (moment : Interrupted) {vecno returnAddr : Nat} {returned : Core}
    {words : List Nat}
    (cdecl : Cdecl moment (moment.entry vecno returnAddr) returned)
    (pushed : Core.Pushed (moment.core.stackOf moment.gate) (moment.entry vecno returnAddr)
      (returnAddr :: vecno :: words)) :
    returned.eip = returnAddr ∧
      returned.Stacked (returned.top :: words) moment.base := by
  have esp := pushed.esp
  simp only [List.length_cons] at esp
  have ends : (moment.entry vecno returnAddr).esp + 8 + 4 * words.length = moment.base := by
    rw [Interrupted.base]
    omega
  refine ⟨cdecl.eip.trans pushed.words.1, ?_⟩
  constructor
  · rw [cdecl.esp, List.length_cons]
    omega
  · exact (moment.core.stackOf moment.gate).regs.small .esp
  · refine ⟨rfl, ?_⟩
    rw [cdecl.esp]
    exact pushed.words.2.2.congr fun query lower upper =>
      cdecl.frame query lower (by omega)

/-- The stack of the interrupted program is not where the frame was pushed. -/
theorem entry_onStack (moment : Interrupted) {vecno returnAddr : Nat} {words : List Nat}
    (pushed : Core.Pushed (moment.core.stackOf moment.gate) (moment.entry vecno returnAddr) words)
    (length : words.length ≤ 20) {query : Nat} (onStack : moment.OnStack query) :
    (moment.entry vecno returnAddr).mem query = moment.core.mem query := by
  have esp := pushed.esp
  have mem : (moment.core.stackOf moment.gate).mem = moment.core.mem := by
    unfold Core.stackOf
    split <;> rfl
  rw [← mem]
  by_cases outer : moment.Outer
  · have apart := moment.apart outer query onStack.1 onStack.2
    exact pushed.outside query (by omega)
  · have same : moment.core.stackOf moment.gate = moment.core := if_neg outer
    exact pushed.outside query (.inr (by rw [same]; exact onStack.1))

/-- Bit 3 is set in the selector of either code segment. -/
theorem codeSegment_testBit {selector : Nat}
    (code : selector ∈ [SELECTOR_KERNEL_CODE, SELECTOR_U_CODE]) : selector.testBit 3 = true := by
  simp only [List.mem_cons, List.not_mem_nil, or_false] at code
  rcases code with rfl | rfl <;> rfl

/-- What `iret` has restored is the program that was interrupted. -/
theorem resumed_of_returned (moment : Interrupted) {exited after : Core}
    (back : Core.Returned exited after moment.core.eip (moment.core.segs.value .cs)
      moment.core.eflags.word.toNat)
    (regs : ∀ reg, reg ≠ .esp → exited.regs.value reg = moment.core.regs.value reg)
    (segs : ∀ seg, seg ≠ .cs → seg ≠ .ss → exited.segs.value seg = moment.core.segs.value seg)
    (stack : ∀ query, moment.OnStack query → exited.mem query = moment.core.mem query)
    (esp : after.esp = moment.core.esp)
    (ss : after.segs.value .ss = moment.core.segs.value .ss) : Resumed moment after where
  eip := back.eip
  regs := by
    refine Regs.ext fun reg => ?_
    by_cases top : reg = .esp
    · subst top
      exact esp
    · rw [back.regs reg top, regs reg top]
  segs := by
    refine Segs.ext fun seg => ?_
    by_cases code : seg = .cs
    · subst code
      exact back.cs
    · by_cases stackSeg : seg = .ss
      · subst stackSeg
        exact ss
      · rw [back.segs seg code stackSeg, segs seg code stackSeg]
  eflags := by
    rw [back.eflags, BitVec.ofNat_toNat, BitVec.setWidth_eq, Flags.load_word]
  stack query inside := by rw [back.mem, stack query inside]

/-- Where the stub left a word for the error code, the program is resumed. -/
theorem leave_resumed (moment : Interrupted) {vecno returnAddr : Nat} {returned : Core}
    (inTable : vecno ≤ 50) (small : returnAddr < 2 ^ 32) (notNine : vecno ≠ 9)
    (cdecl : Cdecl moment (moment.entry vecno returnAddr) returned) :
    ∃ after, leave returnAddr returned = some after ∧ Resumed moment after := by
  obtain ⟨value, valueSmall, regs, -, pushed⟩ := pushed_entry moment inTable small
  obtain ⟨error, errorEq⟩ : ∃ error, errorWords vecno moment.errorCode = [error] := by
    rw [errorWords, if_neg notNine]
    split <;> exact ⟨_, rfl⟩
  rw [errorEq, List.append_assoc] at pushed
  have programLength := programWords_length moment.core moment.gate
  have onStack : ∀ query, moment.OnStack query → returned.mem query = moment.core.mem query :=
    fun query inside => (cdecl.stack query inside).trans <| entry_onStack moment pushed
      (by simp only [List.length_append, List.length_cons, List.length_nil, Core.generalRegs]
          omega) inside
  obtain ⟨eip, stacked⟩ := stacked_returned moment cdecl pushed
  obtain ⟨program, mem, exitRegs, exitCs, exitSs, exitSegs⟩ :=
    intrExit_restores moment.core.segs stacked valueSmall
  have entered := @entry_segs moment vecno returnAddr inTable
  simp only at entered
  have cs : (returned.run intrExit).segs.value .cs = SELECTOR_KERNEL_CODE := by
    rw [exitCs, cdecl.segs, entered,
      Core.interrupt_cs _ _ _ (by rw [moment.selector]; decide), moment.selector]
  have code : moment.core.segs.value .cs ∈ [SELECTOR_KERNEL_CODE, SELECTOR_U_CODE] := by
    simpa using moment.mode
  have programRegs : ∀ reg, reg ≠ .esp →
      (returned.run intrExit).regs.value reg = moment.core.regs.value reg :=
    fun reg other => (exitRegs reg other).trans (regs reg other)
  have programStack : ∀ query, moment.OnStack query →
      (returned.run intrExit).mem query = moment.core.mem query :=
    fun query inside => by rw [mem, onStack query inside]
  rw [leave, if_pos eip]
  by_cases outer : moment.Outer
  · have level : Core.privilege ((returned.run intrExit).segs.value .cs) <
        Core.privilege (moment.core.segs.value .cs) := by
      rw [cs, ← moment.selector]
      exact outer
    rw [programWords, if_pos outer] at program
    obtain ⟨after, leaves, back, esp, ss⟩ := program.iret_outer code (moment.core.segs.small _)
      (moment.core.regs.small _) (moment.core.segs.small _) level
    exact ⟨after, leaves,
      resumed_of_returned moment back programRegs exitSegs programStack esp ss⟩
  · have level : ¬ Core.privilege ((returned.run intrExit).segs.value .cs) <
        Core.privilege (moment.core.segs.value .cs) := by
      rw [cs, ← moment.selector]
      exact outer
    have same : moment.base = moment.core.esp := by
      rw [Interrupted.base, Core.stackOf, if_neg outer]
    have ss : (returned.run intrExit).segs.value .ss = moment.core.segs.value .ss := by
      rw [exitSs, cdecl.segs, entered, Core.interrupt_ss _ _ _ outer]
    rw [programWords, if_neg outer] at program
    have ends : (returned.run intrExit).esp + 12 = moment.base := program.ends
    obtain ⟨after, leaves, back, esp, backSs⟩ :=
      program.iret_inner code (moment.core.segs.small _) level
    exact ⟨after, leaves, resumed_of_returned moment back programRegs exitSegs programStack
      (by rw [esp, ends, same]) (backSs.trans ss)⟩

/-- Vector 9 leaves `eip` in the place of an error code, and the flags in that of the code
segment, which they cannot be. -/
theorem leave_vector9 (moment : Interrupted) {returnAddr : Nat} {returned : Core}
    (small : returnAddr < 2 ^ 32)
    (cdecl : Cdecl moment (moment.entry 9 returnAddr) returned) :
    leave returnAddr returned = none := by
  obtain ⟨value, valueSmall, -, -, pushed⟩ := pushed_entry moment (by decide : 9 ≤ 50) small
  have none' : errorWords 9 moment.errorCode = [] := rfl
  rw [none', List.append_nil] at pushed
  obtain ⟨eip, stacked⟩ := stacked_returned moment cdecl pushed
  obtain ⟨program, -⟩ := intrExit_restores moment.core.segs stacked valueSmall
  rw [leave, if_pos eip]
  refine program.iret_fault fun code => ?_
  have bit := codeSegment_testBit code
  rw [Nat.testBit_mod_two_pow, moment.core.eflags.bit_three, Bool.and_false] at bit
  exact Bool.false_ne_true bit

/-- Interrupts are transparent to the program they interrupt, but for vector 9: in any
mode, with any registers and any stack, whatever a handler does that keeps the calling
convention. -/
theorem transparent_iff (moment : Interrupted) (handler : Core → Core) {vecno returnAddr : Nat}
    (inTable : vecno ≤ 50) (small : returnAddr < 2 ^ 32)
    (cdecl : Cdecl moment (moment.entry vecno returnAddr)
      (handler (moment.entry vecno returnAddr))) :
    Transparent moment handler vecno returnAddr ↔ vecno ≠ 9 := by
  constructor
  · rintro ⟨-, after, leaves, -⟩ rfl
    rw [leave_vector9 moment small cdecl] at leaves
    exact absurd leaves.symm (Option.some_ne_none after)
  · exact fun notNine =>
      ⟨frameOf_entry moment inTable small notNine,
        leave_resumed moment inTable small notNine cdecl⟩

/-- `general_intr_handler` where it returns at once. -/
def returnAtOnce (core : Core) : Core := { core.drop with eip := core.top }

theorem returnAtOnce_esp (entered : Core) (fits : entered.esp + 4 < 2 ^ 32) :
    (returnAtOnce entered).esp = entered.esp + 4 := by
  have drop : (returnAtOnce entered).esp = entered.drop.esp := rfl
  rw [drop, entered.drop_esp fits]

/-- To return at once keeps the calling convention. -/
theorem cdecl_of_returnAtOnce (moment : Interrupted) (entered : Core)
    (fits : entered.esp + 4 < 2 ^ 32) : Cdecl moment entered (returnAtOnce entered) where
  eip := rfl
  esp := returnAtOnce_esp entered fits
  regs reg saved := by
    refine entered.drop_regs ?_
    rintro rfl
    exact absurd saved (by decide)
  segs := rfl
  frame _ _ _ := rfl
  stack _ _ := rfl

theorem cdecl_returnAtOnce (moment : Interrupted) {vecno returnAddr : Nat}
    (inTable : vecno ≤ 50) (small : returnAddr < 2 ^ 32) :
    Cdecl moment (moment.entry vecno returnAddr)
      (returnAtOnce (moment.entry vecno returnAddr)) := by
  obtain ⟨_, -, -, -, pushed⟩ := pushed_entry moment inTable small
  have esp := pushed.esp
  have baseLt : (moment.core.stackOf moment.gate).esp < 2 ^ 32 :=
    (moment.core.stackOf moment.gate).regs.small .esp
  simp only [List.length_append, List.length_cons] at esp
  exact cdecl_of_returnAtOnce moment _ (by omega)

/-- A moment in the kernel. -/
def kernelMoment : Interrupted where
  core :=
    { regs := ⟨fun reg => if reg = .esp then 0x1000 else 7, fun reg => by split <;> decide⟩
      segs := ⟨fun seg => if seg = .cs then SELECTOR_KERNEL_CODE else 16, fun seg => by
        split <;> decide⟩
      eflags := .load 0x202#32
      eip := 0x2000
      mem := fun _ => 0
      ports := [] }
  gate := { selector := SELECTOR_KERNEL_CODE, offset := 0x3000, ss0 := 16, esp0 := 0x8000 }
  errorCode := 0
  stackEnd := 0x1800
  mode := .inl rfl
  selector := rfl
  eipLt := by decide
  errorCodeLt := by decide
  room := by decide
  apart := fun outer => absurd outer (by decide)

theorem transparent_spurious :
    Cdecl kernelMoment (kernelMoment.entry 39 0x4000)
        (returnAtOnce (kernelMoment.entry 39 0x4000)) ∧
      Transparent kernelMoment returnAtOnce 39 0x4000 :=
  ⟨cdecl_returnAtOnce kernelMoment (by decide) (by decide),
    (transparent_iff kernelMoment returnAtOnce (by decide) (by decide)
      (cdecl_returnAtOnce kernelMoment (by decide) (by decide))).mpr (by decide)⟩

/-- A coprocessor segment overrun does not get back. -/
theorem vector9_not_transparent :
    Cdecl kernelMoment (kernelMoment.entry 9 0x4000) (returnAtOnce (kernelMoment.entry 9 0x4000)) ∧
      ¬ Transparent kernelMoment returnAtOnce 9 0x4000 := by
  have cdecl : Cdecl kernelMoment (kernelMoment.entry 9 0x4000)
      (returnAtOnce (kernelMoment.entry 9 0x4000)) :=
    cdecl_returnAtOnce kernelMoment (by decide) (by decide)
  refine ⟨cdecl, ?_⟩
  rintro ⟨-, after, leaves, -⟩
  rw [leave_vector9 kernelMoment (by decide) cdecl] at leaves
  exact absurd leaves.symm (Option.some_ne_none after)

end Pumelo
