import Pumelo.Foundation.Cpu
import Pumelo.Foundation.System

/-!
# Context switches

`switch_to` of `switch.S` instruction by instruction, and the first frame that
`Thread_create` builds by hand.  A thread's context holds what its registers are
to be when it runs again; the return address is popped into the context before
the stack pointer is saved, and pushed again after the other stack is in place.
-/

namespace Pumelo

open Foundation

/-- `switch_to(from, to)` -/
def switchTo : List Instr :=
  [ .load 4 .esp .eax
  , .pop 0 .eax
  , .store .esp 4 .eax
  , .store .ebx 8 .eax
  , .store .ecx 12 .eax
  , .store .edx 16 .eax
  , .store .esi 20 .eax
  , .store .edi 24 .eax
  , .store .ebp 28 .eax
  , .load 4 .esp .eax
  , .load 28 .eax .ebp
  , .load 24 .eax .edi
  , .load 20 .eax .esi
  , .load 16 .eax .edx
  , .load 12 .eax .ecx
  , .load 8 .eax .ebx
  , .load 4 .eax .esp
  , .push 0 .eax
  , .ret ]

/-- `&thread->context` -/
def contextOf (thread : Nat) : Nat := thread + 8

/-- `Thread_create`, where `entry` is the address of `kernel_thread_entry`. -/
def threadCreate (mem : Bytes) (entry pthread func funcArg : Nat) : Bytes :=
  let sp := mem.read32 pthread - 76
  let mem := mem.write32 (pthread + 48) sp
  let sp := sp - 8
  let mem := mem.write32 sp func
  let mem := mem.write32 (sp + 4) funcArg
  let sp := sp - 4
  let mem := mem.write32 pthread sp
  let mem := mem.write32 (contextOf pthread) entry
  mem.write32 (contextOf pthread + 4) sp

/-- What a thread has in its registers where it runs; `eax` is the one that a call
does not keep. -/
structure Frame where
  eip : Nat
  esp : Nat
  ebx : Nat
  ecx : Nat
  edx : Nat
  esi : Nat
  edi : Nat
  ebp : Nat
  deriving DecidableEq, Repr

/-- The frame of a thread that is to go on at `eip` with its stack at `esp` and the
other registers as they are. -/
def frameAt (cpu : Cpu) (eip esp : Nat) : Frame where
  eip := eip
  esp := esp
  ebx := cpu.regs.value .ebx
  ecx := cpu.regs.value .ecx
  edx := cpu.regs.value .edx
  esi := cpu.regs.value .esi
  edi := cpu.regs.value .edi
  ebp := cpu.regs.value .ebp

/-- The frame of the thread that runs. -/
def currentFrame (cpu : Cpu) : Frame := frameAt cpu cpu.eip (cpu.regs.value .esp)

/-- The frame a `struct thread_context` describes. -/
def loadContext (mem : Bytes) (context : Nat) : Frame where
  eip := mem.read32 context
  esp := mem.read32 (context + 4)
  ebx := mem.read32 (context + 8)
  ecx := mem.read32 (context + 12)
  edx := mem.read32 (context + 16)
  esi := mem.read32 (context + 20)
  edi := mem.read32 (context + 24)
  ebp := mem.read32 (context + 28)

/-- Store a frame in a context. -/
def saveContext (mem : Bytes) (context : Nat) (frame : Frame) : Bytes :=
  let mem := mem.write32 context frame.eip
  let mem := mem.write32 (context + 4) frame.esp
  let mem := mem.write32 (context + 8) frame.ebx
  let mem := mem.write32 (context + 12) frame.ecx
  let mem := mem.write32 (context + 16) frame.edx
  let mem := mem.write32 (context + 20) frame.esi
  let mem := mem.write32 (context + 24) frame.edi
  mem.write32 (context + 28) frame.ebp

/-- All registers of a frame have 32 bits. -/
structure Frame.Small (frame : Frame) : Prop where
  eip : frame.eip < 2 ^ 32
  esp : frame.esp < 2 ^ 32
  ebx : frame.ebx < 2 ^ 32
  ecx : frame.ecx < 2 ^ 32
  edx : frame.edx < 2 ^ 32
  esi : frame.esi < 2 ^ 32
  edi : frame.edi < 2 ^ 32
  ebp : frame.ebp < 2 ^ 32

theorem saveContext_of_outside (mem : Bytes) {context query : Nat} (frame : Frame)
    (outside : query < context ∨ context + 32 ≤ query) :
    saveContext mem context frame query = mem query := by
  simp only [saveContext]
  rw [Bytes.write32_of_outside _ _ (by omega), Bytes.write32_of_outside _ _ (by omega),
    Bytes.write32_of_outside _ _ (by omega), Bytes.write32_of_outside _ _ (by omega),
    Bytes.write32_of_outside _ _ (by omega), Bytes.write32_of_outside _ _ (by omega),
    Bytes.write32_of_outside _ _ (by omega), Bytes.write32_of_outside _ _ (by omega)]

/-- A context depends on its own bytes only. -/
theorem loadContext_congr {mem mem' : Bytes} {context : Nat}
    (agree : ∀ query, context ≤ query → query < context + 32 → mem' query = mem query) :
    loadContext mem' context = loadContext mem context := by
  have word : ∀ disp, disp + 4 ≤ 32 →
      mem'.read32 (context + disp) = mem.read32 (context + disp) := fun disp inside =>
    Bytes.read32_congr fun query lower upper => agree query (by omega) (by omega)
  simp only [loadContext, Frame.mk.injEq]
  exact ⟨word 0 (by decide), word 4 (by decide), word 8 (by decide), word 12 (by decide),
    word 16 (by decide), word 20 (by decide), word 24 (by decide), word 28 (by decide)⟩

/-- What is saved is what is restored. -/
theorem loadContext_saveContext (mem : Bytes) (context : Nat) {frame : Frame}
    (small : frame.Small) : loadContext (saveContext mem context frame) context = frame := by
  obtain ⟨eip, esp, ebx, ecx, edx, esi, edi, ebp⟩ := frame
  obtain ⟨eipLt, espLt, ebxLt, ecxLt, edxLt, esiLt, ediLt, ebpLt⟩ := small
  simp only [loadContext, saveContext, Frame.mk.injEq]
  refine ⟨?_, ?_, ?_, ?_, ?_, ?_, ?_, ?_⟩ <;>
    simp (disch := omega) only [Bytes.read32_write32_of_disjoint, Bytes.read32_write32_self]

/-- The first half of `switch_to`: save the registers of the thread that leaves. -/
def saveRegs : List Instr := switchTo.take 9

/-- The second half: restore those of the thread that comes. -/
def restoreRegs : List Instr := switchTo.drop 9

theorem run_switchTo (cpu : Cpu) :
    cpu.run switchTo = (cpu.run saveRegs).run restoreRegs := by
  rw [← Cpu.run_append, saveRegs, restoreRegs, List.take_append_drop]

/-- Saving, from a stack with the return address and `from` on top. -/
theorem run_saveRegs {cpu : Cpu} {top context : Nat} (esp : cpu.regs.value .esp = top)
    (room : top + 8 ≤ 2 ^ 32) (from' : cpu.mem.read32 (top + 4) = context)
    (fits : context + 32 ≤ 2 ^ 32) :
    (cpu.run saveRegs).mem =
        saveContext cpu.mem context (frameAt cpu (cpu.mem.read32 top) (top + 4)) ∧
      (cpu.run saveRegs).regs.value .esp = top + 4 := by
  have stays : ∀ disp, disp ≤ 28 → (context + disp) % 2 ^ 32 = context + disp := fun disp inside =>
    Nat.mod_eq_of_lt (by omega)
  have first : (top + 4) % 2 ^ 32 = top + 4 := Nat.mod_eq_of_lt (by omega)
  constructor
  · simp (disch := decide) only [saveRegs, switchTo, List.take, Cpu.run_cons, Cpu.run_nil,
      Cpu.addr, Cpu.load_self, Cpu.load_of_ne, Cpu.load_mem, Cpu.store_regs, Cpu.store_mem,
      Cpu.pop_of_ne, Cpu.pop_esp, Cpu.pop_mem, esp, first, from', stays]
    rfl
  · simp (disch := decide) only [saveRegs, switchTo, List.take, Cpu.run_cons, Cpu.run_nil,
      Cpu.load_of_ne, Cpu.store_regs, Cpu.pop_esp, esp, first]

/-- Restoring, from a stack with `to` above its top. -/
theorem run_restoreRegs {cpu : Cpu} {top context : Nat} {frame : Frame}
    (esp : cpu.regs.value .esp = top) (room : top + 8 ≤ 2 ^ 32)
    (to' : cpu.mem.read32 (top + 4) = context) (fits : context + 32 ≤ 2 ^ 32)
    (saved : loadContext cpu.mem context = frame) (deep : 4 ≤ frame.esp) :
    currentFrame (cpu.run restoreRegs) = frame ∧
      (cpu.run restoreRegs).mem = cpu.mem.write32 (frame.esp - 4) frame.eip := by
  subst saved
  have stays : ∀ disp, disp ≤ 28 → (context + disp) % 2 ^ 32 = context + disp := fun disp inside =>
    Nat.mod_eq_of_lt (by omega)
  have first : (top + 4) % 2 ^ 32 = top + 4 := Nat.mod_eq_of_lt (by omega)
  generalize loadedEq : cpu.run (restoreRegs.take 8) = loaded
  have split : cpu.run restoreRegs =
      (loaded.pushWord (loaded.mem.read32 (loaded.addr 0 .eax))).step .ret := by
    rw [← loadedEq]
    rfl
  have mem : loaded.mem = cpu.mem := by
    rw [← loadedEq]
    rfl
  have eax : loaded.regs.value .eax = context := by
    rw [← loadedEq]
    simp (disch := decide) only [restoreRegs, switchTo, List.drop, List.take, Cpu.run_cons,
      Cpu.run_nil, Cpu.addr, Cpu.load_self, Cpu.load_of_ne, esp, first, to']
  have regs : loadContext cpu.mem context =
      frameAt loaded (cpu.mem.read32 context) (loaded.regs.value .esp) := by
    rw [← loadedEq]
    simp (disch := decide) only [frameAt, loadContext, restoreRegs, switchTo, List.drop, List.take,
      Cpu.run_cons, Cpu.run_nil, Cpu.addr, Cpu.load_self, Cpu.load_of_ne, Cpu.load_mem, esp, first,
      to', stays]
  have loadedEsp : loaded.regs.value .esp = (loadContext cpu.mem context).esp :=
    (congrArg Frame.esp regs).symm
  have eip : loaded.mem.read32 (loaded.addr 0 .eax) = cpu.mem.read32 context := by
    rw [mem, Cpu.addr, eax, stays 0 (by decide)]
    rfl
  rw [split, eip]
  obtain ⟨jumped, kept, written⟩ := loaded.ret_pushWord (cpu.mem.read32 context)
    (by rwa [loadedEsp]) (cpu.mem.read32_lt _)
  constructor
  · rw [regs]
    simp only [currentFrame, frameAt, jumped, kept]
  · rw [written, mem, loadedEsp]
    rfl

/-- A call of `switch_to` and the switch: the frame of the caller, which goes on
behind the call, is saved, and the frame in the other context restored. -/
theorem run_call_switchTo {cpu : Cpu} {top returnAddr context target : Nat} {frame : Frame}
    (esp : cpu.regs.value .esp = top) (room : 4 ≤ top) (below : top + 8 ≤ 2 ^ 32)
    (from' : cpu.mem.read32 top = context) (to' : cpu.mem.read32 (top + 4) = target)
    (apart : context + 32 ≤ top - 4 ∨ top + 8 ≤ context) (fits : context + 32 ≤ 2 ^ 32)
    (targetFits : target + 32 ≤ 2 ^ 32) (small : returnAddr < 2 ^ 32)
    (saved : loadContext (saveContext (cpu.mem.write32 (top - 4) returnAddr) context
      (frameAt cpu returnAddr top)) target = frame) (deep : 4 ≤ frame.esp) :
    currentFrame ((cpu.call returnAddr).run switchTo) = frame ∧
      ((cpu.call returnAddr).run switchTo).mem =
        (saveContext (cpu.mem.write32 (top - 4) returnAddr) context
          (frameAt cpu returnAddr top)).write32 (frame.esp - 4) frame.eip := by
  have calledEsp : (cpu.call returnAddr).regs.value .esp = top - 4 := by
    rw [Cpu.call, Cpu.pushWord_esp _ _ (by omega), esp]
  have calledMem : (cpu.call returnAddr).mem = cpu.mem.write32 (top - 4) returnAddr := by
    rw [Cpu.call, Cpu.pushWord_mem _ _ (by omega), esp]
  have back : top - 4 + 4 = top := by omega
  have calledFrom : (cpu.call returnAddr).mem.read32 (top - 4 + 4) = context := by
    rw [calledMem, back, Bytes.read32_write32_of_disjoint _ _ (by omega), from']
  have kept : frameAt (cpu.call returnAddr) returnAddr top = frameAt cpu returnAddr top := by
    simp (disch := decide) only [frameAt, Cpu.call, Cpu.pushWord_of_ne]
  obtain ⟨savedMem, savedEsp⟩ := run_saveRegs calledEsp (by omega) calledFrom fits
  rw [calledMem, Bytes.read32_write32_self _ small, back, kept] at savedMem
  rw [back] at savedEsp
  have savedTo : ((cpu.call returnAddr).run saveRegs).mem.read32 (top + 4) = target := by
    have word : ((cpu.call returnAddr).run saveRegs).mem.read32 (top + 4) =
        cpu.mem.read32 (top + 4) := by
      refine Bytes.read32_congr fun query lower upper => ?_
      rw [savedMem, saveContext_of_outside _ _ (by omega), Bytes.write32_of_outside _ _ (by omega)]
    rw [word, to']
  obtain ⟨restored, mem⟩ :=
    run_restoreRegs savedEsp below savedTo targetFits (by rw [savedMem]; exact saved) deep
  rw [run_switchTo]
  exact ⟨restored, by rw [mem, savedMem]⟩

/-- The page of a thread, with its structure at the start and its stack above. -/
def IsThread (thread : Nat) : Prop := thread % 4096 = 0 ∧ thread + 4096 ≤ 2 ^ 32

/-- The stack pointer is in the thread's page, with room for a return address above
the context and two arguments below the end. -/
def OnStack (thread esp : Nat) : Prop := contextOf thread + 36 ≤ esp ∧ esp + 8 ≤ thread + 4096

/-- A thread that does not run: the frame it goes on with, and what it was prepared
with if it has not run yet. -/
structure Saved where
  frame : Frame
  param : Option (Nat × Nat)

/-- The bytes that keep a thread that does not run. -/
def Saved.Byte (saved : Saved) (thread query : Nat) : Prop :=
  contextOf thread ≤ query ∧ query < contextOf thread + 32 ∨
    saved.param ≠ none ∧ saved.frame.esp + 4 ≤ query ∧ query < saved.frame.esp + 12

/-- The processor, the thread it runs and the threads it does not. -/
structure Threads where
  cpu : Cpu
  running : Nat
  saved : Nat → Option Saved

namespace Threads

/-- `Thread_create(thread, func, arg)` -/
def create (s : Threads) (entry thread func arg : Nat) : Threads :=
  let mem := threadCreate s.cpu.mem entry thread func arg
  { s with
    cpu := { s.cpu with mem := mem }
    saved := fun query =>
      if query = thread then some ⟨loadContext mem (contextOf thread), some (func, arg)⟩
      else s.saved query }

/-- The frame the running thread has behind its call. -/
def callFrame (s : Threads) (returnAddr : Nat) : Frame :=
  frameAt s.cpu returnAddr (s.cpu.regs.value .esp)

/-- `switch_to(&running->context, &target->context)`, called in front of
`returnAddr`. -/
def switch (s : Threads) (target returnAddr : Nat) : Threads where
  cpu := (s.cpu.call returnAddr).run switchTo
  running := target
  saved query :=
    if query = target then none
    else if query = s.running then some ⟨s.callFrame returnAddr, none⟩
    else s.saved query

/-- The frame with which a thread is to go on when it is switched to: that of its
own last call, or the one it was prepared with. -/
def Expects (s : Threads) (target returnAddr : Nat) (frame : Frame) : Prop :=
  if target = s.running then frame = s.callFrame returnAddr
  else ∃ param, s.saved target = some ⟨frame, param⟩

/-- The running thread is about to call `switch_to` for a target: the two contexts
are on top of its stack. -/
structure Calls (s : Threads) (target returnAddr : Nat) : Prop where
  stack : OnStack s.running (s.cpu.regs.value .esp)
  from' : s.cpu.mem.read32 (s.cpu.regs.value .esp) = contextOf s.running
  to' : s.cpu.mem.read32 (s.cpu.regs.value .esp + 4) = contextOf target
  known : target = s.running ∨ s.saved target ≠ none
  small : returnAddr < 2 ^ 32

/-- One step: the running thread computes, with any effect but on the bytes that
keep the others; it prepares a new thread; or it switches, with interrupts off. -/
inductive Step (entry : Nat) : Threads → Threads → Prop where
  | compute {s : Threads} (cpu : Cpu) :
      (∀ thread saved, s.saved thread = some saved → ∀ query, saved.Byte thread query →
        cpu.mem query = s.cpu.mem query) →
      Step entry s { s with cpu := cpu }
  | create {s : Threads} (thread func arg : Nat) : IsThread thread → thread ≠ s.running →
      s.saved thread = none → s.cpu.mem.read32 thread = thread + 4096 → func < 2 ^ 32 →
      arg < 2 ^ 32 → Step entry s (s.create entry thread func arg)
  | switch {s : Threads} (target returnAddr : Nat) : s.Calls target returnAddr →
      Step entry s (s.switch target returnAddr)

/-- Some thread runs, and there is no other. -/
def Initial (s : Threads) : Prop := IsThread s.running ∧ ∀ thread, s.saved thread = none

end Threads

/-- Threads that switch to each other, where `entry` is the address of
`kernel_thread_entry`. -/
def threadSystem (entry : Nat) : System Threads where
  init := Threads.Initial
  step := Threads.Step entry

/-! ## The invariant -/

/-- What memory holds for a thread that does not run. -/
structure Saved.Holds (saved : Saved) (entry thread : Nat) (mem : Bytes) : Prop where
  page : IsThread thread
  context : loadContext mem (contextOf thread) = saved.frame
  stack : OnStack thread saved.frame.esp
  param : ∀ func arg, saved.param = some (func, arg) →
    saved.frame.eip = entry ∧ saved.frame.esp + 12 ≤ thread + 4096 ∧
      mem.read32 (saved.frame.esp + 4) = func ∧ mem.read32 (saved.frame.esp + 8) = arg

namespace Saved.Holds

variable {saved : Saved} {entry thread : Nat} {mem mem' : Bytes}

/-- It depends on the bytes that keep the thread. -/
theorem congr (holds : saved.Holds entry thread mem)
    (agree : ∀ query, saved.Byte thread query → mem' query = mem query) :
    saved.Holds entry thread mem' := by
  refine ⟨holds.page, ?_, holds.stack, fun func arg prepared => ?_⟩
  · rw [← holds.context]
    exact loadContext_congr fun query lower upper => agree query (.inl ⟨lower, upper⟩)
  · obtain ⟨eip, room, first, second⟩ := holds.param func arg prepared
    have some : saved.param ≠ none := by rw [prepared]; exact nofun
    refine ⟨eip, room, ?_, ?_⟩
    · rw [← first]
      exact Bytes.read32_congr fun query lower upper =>
        agree query (.inr ⟨some, by omega, by omega⟩)
    · rw [← second]
      exact Bytes.read32_congr fun query lower upper =>
        agree query (.inr ⟨some, by omega, by omega⟩)

/-- Those bytes lie in the thread's page. -/
theorem byte_page (holds : saved.Holds entry thread mem) {query : Nat}
    (byte : saved.Byte thread query) : thread ≤ query ∧ query < thread + 4096 := by
  have stack := holds.stack
  simp only [OnStack, contextOf] at stack
  rcases byte with ⟨lower, upper⟩ | ⟨prepared, lower, upper⟩
  · simp only [contextOf] at lower upper
    omega
  · obtain ⟨⟨func, arg⟩, equal⟩ := Option.ne_none_iff_exists'.mp prepared
    obtain ⟨-, room, -, -⟩ := holds.param func arg equal
    omega

end Saved.Holds

/-- Pages of different threads do not overlap. -/
theorem IsThread.apart {thread other : Nat} (page : IsThread thread) (page' : IsThread other)
    (different : thread ≠ other) : thread + 4096 ≤ other ∨ other + 4096 ≤ thread := by
  obtain ⟨aligned, -⟩ := page
  obtain ⟨aligned', -⟩ := page'
  omega

namespace Threads

variable {s next : Threads} {entry target returnAddr : Nat}

/-- Every thread is either the one that runs or kept in memory. -/
structure Inv (entry : Nat) (s : Threads) : Prop where
  page : IsThread s.running
  away : s.saved s.running = none
  holds : ∀ thread saved, s.saved thread = some saved → saved.Holds entry thread s.cpu.mem

/-- A created thread is kept with its first frame. -/
theorem create_self (s : Threads) (entry thread func arg : Nat) :
    (s.create entry thread func arg).saved thread =
      some ⟨loadContext (threadCreate s.cpu.mem entry thread func arg) (contextOf thread),
        some (func, arg)⟩ := by
  simp only [create, if_true]

/-- The frame behind a call has 32-bit registers. -/
theorem callFrame_small (s : Threads) (small : returnAddr < 2 ^ 32) :
    (s.callFrame returnAddr).Small where
  eip := small
  esp := s.cpu.regs.small _
  ebx := s.cpu.regs.small _
  ecx := s.cpu.regs.small _
  edx := s.cpu.regs.small _
  esi := s.cpu.regs.small _
  edi := s.cpu.regs.small _
  ebp := s.cpu.regs.small _

/-- The stores of `Thread_create` in a fresh thread structure. -/
theorem threadCreate_eq {mem : Bytes} {thread : Nat} (func arg : Nat)
    (kstack : mem.read32 thread = thread + 4096) :
    threadCreate mem entry thread func arg =
      (((((mem.write32 (thread + 48) (thread + 4020)).write32 (thread + 4012) func).write32
        (thread + 4016) arg).write32 thread (thread + 4008)).write32 (thread + 8) entry).write32
          (thread + 12) (thread + 4008) := by
  simp only [threadCreate, kstack, contextOf]
  rfl

/-- What `Thread_create` leaves for the first switch: the entry function with room
for a return address that it does not use, and its two arguments above. -/
theorem threadCreate_holds {mem : Bytes} {thread func arg : Nat} (page : IsThread thread)
    (kstack : mem.read32 thread = thread + 4096) (entryLt : entry < 2 ^ 32)
    (funcLt : func < 2 ^ 32) (argLt : arg < 2 ^ 32) :
    (Saved.mk (loadContext (threadCreate mem entry thread func arg) (contextOf thread))
      (some (func, arg))).Holds entry thread (threadCreate mem entry thread func arg) := by
  have fits := page.2
  rw [threadCreate_eq func arg kstack]
  generalize memEq : Bytes.write32 _ (thread + 12) (thread + 4008) = created
  have eip : created.read32 (thread + 8) = entry := by
    rw [← memEq, Bytes.read32_write32_of_disjoint _ _ (by omega),
      Bytes.read32_write32_self _ entryLt]
  have esp : created.read32 (thread + 12) = thread + 4008 := by
    rw [← memEq, Bytes.read32_write32_self _ (by omega)]
  have first : created.read32 (thread + 4012) = func := by
    rw [← memEq]
    simp (disch := omega) only [Bytes.read32_write32_of_disjoint, Bytes.read32_write32_self]
  have second : created.read32 (thread + 4016) = arg := by
    rw [← memEq]
    simp (disch := omega) only [Bytes.read32_write32_of_disjoint, Bytes.read32_write32_self]
  constructor
  · exact page
  · rfl
  · have top : (loadContext created (contextOf thread)).esp = thread + 4008 := esp
    dsimp only [OnStack]
    rw [top]
    dsimp only [contextOf]
    omega
  · rintro func' arg' equal
    cases equal
    have top : (loadContext created (contextOf thread)).esp = thread + 4008 := esp
    refine ⟨eip, ?_, ?_, ?_⟩
    · dsimp only
      omega
    · dsimp only
      rw [top]
      exact first
    · dsimp only
      rw [top]
      exact second

/-- `Thread_create` writes in the page of its thread only. -/
theorem threadCreate_of_outside {mem : Bytes} {thread query : Nat} (func arg : Nat)
    (kstack : mem.read32 thread = thread + 4096)
    (outside : query < thread ∨ thread + 4096 ≤ query) :
    threadCreate mem entry thread func arg query = mem query := by
  rw [threadCreate_eq func arg kstack]
  simp (disch := omega) only [Bytes.write32_of_outside]

/-- What a switch does: the target goes on with the frame it expects, and memory
changes in the contexts and stacks of the two threads only. -/
theorem switch_spec (inv : Inv entry s) (calls : s.Calls target returnAddr) :
    ∃ frame, s.Expects target returnAddr frame ∧ IsThread target ∧ OnStack target frame.esp ∧
      currentFrame (s.switch target returnAddr).cpu = frame ∧
      (s.switch target returnAddr).cpu.mem =
        (saveContext (s.cpu.mem.write32 (s.cpu.regs.value .esp - 4) returnAddr)
          (contextOf s.running) (s.callFrame returnAddr)).write32 (frame.esp - 4) frame.eip := by
  have page := inv.page
  have stack := calls.stack
  have fits := page.2
  simp only [OnStack, contextOf] at stack
  have small := s.callFrame_small calls.small
  by_cases self : target = s.running
  · subst self
    refine ⟨s.callFrame returnAddr, by rw [Expects, if_pos rfl], page, calls.stack, ?_⟩
    exact run_call_switchTo rfl (by omega) (by omega) calls.from' calls.to'
      (.inl (by simp only [contextOf]; omega)) (by simp only [contextOf]; omega)
      (by simp only [contextOf]; omega) calls.small (loadContext_saveContext _ _ small)
      (by simp only [callFrame, frameAt]; omega)
  · have known := calls.known.resolve_left self
    obtain ⟨⟨frame, param⟩, isSaved⟩ := Option.ne_none_iff_exists'.mp known
    have holds := inv.holds target _ isSaved
    have apart := holds.page.apart page self
    have targetFits := holds.page.2
    have deep := holds.stack
    simp only [OnStack, contextOf] at deep
    refine ⟨frame, ?_, holds.page, holds.stack, ?_⟩
    · rw [Expects, if_neg self]
      exact ⟨param, isSaved⟩
    · refine run_call_switchTo rfl (by omega) (by omega) calls.from' calls.to'
        (.inl (by simp only [contextOf]; omega)) (by simp only [contextOf]; omega)
        (by simp only [contextOf]; omega) calls.small ?_ (by omega)
      rw [← show loadContext s.cpu.mem (contextOf target) = frame from holds.context]
      refine loadContext_congr fun query lower upper => ?_
      simp only [contextOf] at lower upper
      rw [saveContext_of_outside _ _ (by simp only [contextOf]; omega),
        Bytes.write32_of_outside _ _ (by omega)]

namespace Inv

theorem initial (start : s.Initial) : Inv entry s where
  page := start.1
  away := start.2 _
  holds thread saved equal := by
    rw [start.2 thread] at equal
    cases equal

theorem create (inv : Inv entry s) (entryLt : entry < 2 ^ 32) {thread func arg : Nat}
    (page : IsThread thread) (other : thread ≠ s.running)
    (kstack : s.cpu.mem.read32 thread = thread + 4096) (funcLt : func < 2 ^ 32)
    (argLt : arg < 2 ^ 32) : Inv entry (s.create entry thread func arg) := by
  refine ⟨inv.page, ?_, fun query saved equal => ?_⟩
  · simp only [Threads.create]
    rw [if_neg other.symm]
    exact inv.away
  · simp only [Threads.create] at equal
    split at equal
    · next same =>
        subst same
        cases equal
        exact threadCreate_holds page kstack entryLt funcLt argLt
    · next different =>
        have holds := inv.holds query saved equal
        have apart := holds.page.apart page different
        refine holds.congr fun byte inside => ?_
        have bounds := holds.byte_page inside
        exact threadCreate_of_outside func arg kstack (by omega)

theorem switch (inv : Inv entry s) (calls : s.Calls target returnAddr) :
    Inv entry (s.switch target returnAddr) := by
  obtain ⟨frame, -, targetPage, targetStack, -, mem⟩ := switch_spec inv calls
  have page := inv.page
  have stack := calls.stack
  simp only [OnStack, contextOf] at stack targetStack
  -- a switch writes in the pages of the two threads only
  have outside : ∀ query, (query < s.running ∨ s.running + 4096 ≤ query) →
      (query < target ∨ target + 4096 ≤ query) →
      (s.switch target returnAddr).cpu.mem query = s.cpu.mem query := by
    intro query offRunning offTarget
    rw [mem, Bytes.write32_of_outside _ _ (by omega),
      saveContext_of_outside _ _ (by simp only [contextOf]; omega),
      Bytes.write32_of_outside _ _ (by omega)]
  refine ⟨targetPage, if_pos rfl, fun thread saved equal => ?_⟩
  simp only [Threads.switch] at equal
  split at equal
  · cases equal
  · next notTarget =>
      split at equal
      · next self =>
          subst self
          cases equal
          have apart := page.apart targetPage notTarget
          refine ⟨page, ?_, calls.stack, nofun⟩
          rw [mem]
          have kept := loadContext_saveContext
            (s.cpu.mem.write32 (s.cpu.regs.value .esp - 4) returnAddr) (contextOf s.running)
            (s.callFrame_small calls.small)
          refine Eq.trans (loadContext_congr fun query lower upper => ?_) kept
          simp only [contextOf] at lower upper
          exact Bytes.write32_of_outside _ _ (by omega)
      · next notRunning =>
          have holds := inv.holds thread saved equal
          have offRunning := holds.page.apart page notRunning
          have offTarget := holds.page.apart targetPage notTarget
          refine holds.congr fun query inside => ?_
          have bounds := holds.byte_page inside
          exact outside query (by omega) (by omega)

theorem step (inv : Inv entry s) (entryLt : entry < 2 ^ 32) (taken : Step entry s next) :
    Inv entry next := by
  cases taken with
  | compute cpu kept =>
      exact ⟨inv.page, inv.away, fun thread saved equal =>
        (inv.holds thread saved equal).congr (kept thread saved equal)⟩
  | create thread func arg page other fresh kstack funcLt argLt =>
      exact inv.create entryLt page other kstack funcLt argLt
  | switch target returnAddr calls => exact inv.switch calls

end Inv

end Threads

/-- **Context switches are transparent.**  In every run, a thread that is switched
to goes on behind its own last call with the registers it had there, and one that
has not run yet enters `kernel_thread_entry` with its two arguments on the stack. -/
theorem switchTo_transparent {entry target returnAddr : Nat} {s : Threads}
    (entryLt : entry < 2 ^ 32) (reachable : (threadSystem entry).Reachable s)
    (calls : s.Calls target returnAddr) :
    s.Expects target returnAddr (currentFrame (s.switch target returnAddr).cpu) ∧
      ∀ frame func arg, target ≠ s.running → s.saved target = some ⟨frame, some (func, arg)⟩ →
        (s.switch target returnAddr).cpu.eip = entry ∧
        (s.switch target returnAddr).cpu.mem.read32
          ((s.switch target returnAddr).cpu.regs.value .esp + 4) = func ∧
        (s.switch target returnAddr).cpu.mem.read32
          ((s.switch target returnAddr).cpu.regs.value .esp + 8) = arg := by
  have inv : s.Inv entry := reachable.invariant (fun _ start => .initial start)
    (fun _ _ inv taken => inv.step entryLt taken)
  obtain ⟨frame, expects, targetPage, stack, resumed, mem⟩ := Threads.switch_spec inv calls
  refine ⟨by rw [resumed]; exact expects, fun first func arg other prepared => ?_⟩
  rw [Threads.Expects, if_neg other] at expects
  obtain ⟨param, equal⟩ := expects
  generalize switched : s.switch target returnAddr = after at resumed mem ⊢
  rw [equal] at prepared
  cases prepared
  have holds := inv.holds target _ equal
  obtain ⟨eip, room, funcWord, argWord⟩ := holds.param func arg rfl
  have page := inv.page
  have apart := targetPage.apart page other
  have callStack := calls.stack
  simp only [OnStack, contextOf] at stack callStack
  have esp : after.cpu.regs.value .esp = frame.esp := congrArg Frame.esp resumed
  have word : ∀ query, frame.esp ≤ query → query + 4 ≤ target + 4096 →
      after.cpu.mem.read32 query = s.cpu.mem.read32 query := by
    intro query lower upper
    refine Bytes.read32_congr fun byte above below => ?_
    rw [mem, Bytes.write32_of_outside _ _ (by omega),
      saveContext_of_outside _ _ (by simp only [contextOf]; omega),
      Bytes.write32_of_outside _ _ (by omega)]
  dsimp only at eip room funcWord argWord
  refine ⟨(congrArg Frame.eip resumed).trans eip, ?_, ?_⟩
  · rw [esp, word _ (by omega) (by omega)]
    exact funcWord
  · rw [esp, word _ (by omega) (by omega)]
    exact argWord

/-- The thread at 4096, with the contexts of itself and of the page at 8192 pushed
at 8000 for a switch between the two. -/
def aboutToSwitch : Threads where
  cpu :=
    { regs := ⟨fun reg => if reg = .esp then 8000 else 0, fun reg => by cases reg <;> decide⟩
      eip := 0
      mem := ((Bytes.write32 (fun _ => 0) 8192 12288).write32 8000 4104).write32 8004 8200 }
  running := 4096
  saved _ := none

/-- The first switch to a thread prepared with the function at 64 and the argument 7. -/
theorem switchTo_transparent_first :
    let after := ((aboutToSwitch.create 32 8192 64 7).switch 8192 48).cpu
    after.eip = 32 ∧ after.mem.read32 (after.regs.value .esp + 4) = 64 ∧
      after.mem.read32 (after.regs.value .esp + 8) = 7 := by
  have fresh : aboutToSwitch.cpu.mem.read32 8192 = 8192 + 4096 := by decide
  have started : (threadSystem 32).Reachable aboutToSwitch :=
    .init ⟨⟨by decide, by decide⟩, fun _ => rfl⟩
  have prepared : (threadSystem 32).Reachable (aboutToSwitch.create 32 8192 64 7) :=
    .step started (.create 8192 64 7 ⟨by decide, by decide⟩ (by decide) rfl fresh (by decide)
      (by decide))
  have word : ∀ query, query + 4 ≤ 8192 →
      (threadCreate aboutToSwitch.cpu.mem 32 8192 64 7).read32 query =
        aboutToSwitch.cpu.mem.read32 query := fun query below =>
    Bytes.read32_congr fun byte lower upper =>
      Threads.threadCreate_of_outside 64 7 fresh (.inl (by omega))
  have isSaved : (aboutToSwitch.create 32 8192 64 7).saved 8192 =
      some ⟨loadContext (threadCreate aboutToSwitch.cpu.mem 32 8192 64 7) (contextOf 8192),
        some (64, 7)⟩ := Threads.create_self _ _ _ _ _
  have calls : (aboutToSwitch.create 32 8192 64 7).Calls 8192 48 :=
    { stack := ⟨by decide, by decide⟩
      from' := (word 8000 (by decide)).trans (by decide)
      to' := (word 8004 (by decide)).trans (by decide)
      known := .inr (by rw [isSaved]; simp)
      small := by decide }
  exact (switchTo_transparent (by decide) prepared calls).2 _ 64 7 (by decide) isSaved

end Pumelo
