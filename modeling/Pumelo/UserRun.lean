import Mathlib.Logic.Relation
import Pumelo.Interrupt
import Pumelo.Switch
import Pumelo.UserPages

/-!
# Processes in user mode

`process_start` fills in a trap frame and leaves the kernel by `intr_exit`, as if the process
had been interrupted before its first instruction.  From then on the process runs outside the
kernel, and each interrupt puts its frame where that first one was.
-/

namespace Pumelo

open Foundation

def SELECTOR_U_DATA : Nat := 51
def SELECTOR_KERNEL_STACK : Nat := 16

/-- `EFLAGS_IOPL_0 | EFLAGS_MBS | EFLAGS_IF_1` -/
def processEflags : Nat := 0 <<< 12 ||| 1 <<< 1 ||| 1 <<< 9

/-- `update_tss_esp`: what it stores in `esp0`. -/
def updateTssEsp (pthread : Nat) : Nat := (pthread + 4096) % 2 ^ 32

/-- What `process_start` stores in the trap frame before it asks for the stack page. -/
def fillFrame (mem : Bytes) (procStack function : Nat) : Bytes :=
  let mem := mem.write32 (procStack + 16) 0
  let mem := mem.write32 (procStack + 12) 0
  let mem := mem.write32 (procStack + 8) 0
  let mem := mem.write32 (procStack + 4) 0
  let mem := mem.write32 (procStack + 32) 0
  let mem := mem.write32 (procStack + 28) 0
  let mem := mem.write32 (procStack + 24) 0
  let mem := mem.write32 (procStack + 20) 0
  let mem := mem.write32 (procStack + 36) 0
  let mem := mem.write32 (procStack + 40) SELECTOR_U_DATA
  let mem := mem.write32 (procStack + 44) SELECTOR_U_DATA
  let mem := mem.write32 (procStack + 48) SELECTOR_U_DATA
  let mem := mem.write32 (procStack + 56) function
  let mem := mem.write32 (procStack + 60) SELECTOR_U_CODE
  mem.write32 (procStack + 64) processEflags

/-- `process_start`, and `intr_exit` behind it. -/
def processStart (m : Machine) (core : Core) (filename : Nat) :
    Except Fault (Machine × Option Core) := do
  let cur := m.runningThread
  let procStack := m.mem.read32 (cur + 48)
  let (page, m) ← getAPage { m with mem := fillFrame m.mem procStack filename } .user
    userStack3Vaddr
  let mem := m.mem.write32 (procStack + 68) ((page + pageSize) % 2 ^ 32)
  let m := { m with mem := mem.write32 (procStack + 72) SELECTOR_U_DATA }
  let core := { core with regs := core.regs.set .esp procStack, mem := m.mem }
  return (m, (core.run intrExit).iret [SELECTOR_KERNEL_CODE, SELECTOR_U_CODE])

/-- The privilege that input and output, and the interrupt flag, need. -/
def ioLevel (flags : Flags) : Nat := flags.word.toNat / 2 ^ 12 % 4

/-- The interrupt flag. -/
def interruptsOn (flags : Flags) : Bool := flags.word.getLsbD 9

/-- An instruction of a program.  There is one code segment for programs outside the kernel; the
interrupt flag needs the privilege for input and output, and that needs the highest. -/
structure Instruction (core next : Core) : Prop where
  cs : next.segs.value .cs = core.segs.value .cs
  eip : next.eip < 2 ^ 32
  ioPrivilege : Core.privilege (core.segs.value .cs) ≠ 0 →
    ioLevel next.eflags = ioLevel core.eflags
  interruptFlag : ioLevel core.eflags < Core.privilege (core.segs.value .cs) →
    interruptsOn next.eflags = interruptsOn core.eflags

/-- The gate to a stub at `offset`, with the kernel stack of a process. -/
def processGate (thread offset : Nat) : Core.Gate where
  selector := SELECTOR_KERNEL_CODE
  offset := offset
  ss0 := SELECTOR_KERNEL_STACK
  esp0 := updateTssEsp thread

/-- A process runs its instructions, and is interrupted by handlers that keep the calling
convention. -/
inductive ProcessStep (thread : Nat) : Core → Core → Prop where
  | instr {core next : Core} : Instruction core next → ProcessStep thread core next
  | interrupt (moment : Interrupted) {offset vecno returnAddr : Nat} {returned next : Core} :
      moment.gate = processGate thread offset → vecno ≤ 50 → returnAddr < 2 ^ 32 →
      Cdecl moment (moment.entry vecno returnAddr) returned →
      leave returnAddr returned = some next → ProcessStep thread moment.core next

/-- The state of a process where its program begins. -/
structure Begins (filename top : Nat) (core : Core) : Prop where
  eip : core.eip = filename
  esp : core.esp = top
  regs : ∀ reg, reg ≠ .esp → core.regs.value reg = 0
  cs : core.segs.value .cs = SELECTOR_U_CODE
  ss : core.segs.value .ss = SELECTOR_U_DATA
  gs : core.segs.value .gs = 0
  data : ∀ seg ∈ [Seg.ds, .es, .fs], core.segs.value seg = SELECTOR_U_DATA
  eflags : core.eflags = .load (BitVec.ofNat 32 processEflags)

/-- A program outside the kernel that can be interrupted, and cannot change that. -/
structure UserMode (core : Core) : Prop where
  cs : core.segs.value .cs = SELECTOR_U_CODE
  ioPrivilege : ioLevel core.eflags = 0
  interruptFlag : interruptsOn core.eflags = true

/-- An interrupt that finds the process outside the kernel, with the frame that the kernel keeps
for it in `tf`. -/
structure TrapsTo (moment : Interrupted) (vecno returnAddr tf : Nat) : Prop where
  argument : (moment.entry vecno returnAddr).esp + 4 = tf
  frame : FrameOf moment vecno tf (loadTrapframe (moment.entry vecno returnAddr).mem tf)
  resumed : ∀ returned, Cdecl moment (moment.entry vecno returnAddr) returned →
    ∃ after, leave returnAddr returned = some after ∧ Resumed moment after

/-- The trap frame of a new thread is at the end of its page. -/
theorem tf_threadCreate (mem : Bytes) {pthread : Nat} (kstack : mem.read32 pthread = pthread + 4096)
    (fits : pthread + 4096 < 2 ^ 32) (entry func funcArg : Nat) :
    (threadCreate mem entry pthread func funcArg).read32 (pthread + 48) = pthread + 4020 := by
  have sp : pthread + 4096 - 76 = pthread + 4020 := by omega
  simp only [threadCreate, contextOf, kstack, sp]
  simp (disch := omega) only [Bytes.read32_write32_of_disjoint, Bytes.read32_write32_self]

/-- The words of the frame, but for those of the stack. -/
theorem wordsAt_fillFrame (mem : Bytes) {procStack function : Nat} (small : function < 2 ^ 32) :
    WordsAt (fillFrame mem procStack function) procStack
      (mem.read32 procStack :: Core.generalRegs (fun _ => 0) ++
        [0, SELECTOR_U_DATA, SELECTOR_U_DATA, SELECTOR_U_DATA, mem.read32 (procStack + 52),
          function, SELECTOR_U_CODE, processEflags]) := by
  have data : SELECTOR_U_DATA < 2 ^ 32 := by decide
  have code : SELECTOR_U_CODE < 2 ^ 32 := by decide
  have flags : processEflags < 2 ^ 32 := by decide
  have zero : 0 < 2 ^ 32 := by decide
  simp only [Core.generalRegs, List.cons_append, List.nil_append, WordsAt, fillFrame, Nat.add_assoc,
    Nat.reduceAdd]
  simp (disch := first | assumption | omega) only [Bytes.read32_write32_of_disjoint,
    Bytes.read32_write32_self, and_self]

theorem fillFrame_of_outside (mem : Bytes) {procStack function query : Nat}
    (outside : query < procStack ∨ procStack + 76 ≤ query) :
    fillFrame mem procStack function query = mem query := by
  simp (disch := omega) only [fillFrame, Bytes.write32_of_outside]

section StackPage

variable {m m' : Machine} {thread bits page : Nat}

/-- `get_a_page` returns the page that was asked for. -/
theorem getAPage_page (prepared : Prepared thread bits m) (running : m.running = thread)
    (run : getAPage m .user userStack3Vaddr = .ok (page, m')) : page = userStack3Vaddr := by
  rw [getAPage, bind_eq_ok] at run
  obtain ⟨m1, acquired, run⟩ := run
  have locks := acquirePool_locking acquired
  have prepared1 := prepared.congr locks.layout fun query _ _ => by rw [locks.mem]
  have running1 : m1.runningThread = thread := locks.running.trans running
  obtain ⟨kernelPages, userPages, laid⟩ := prepared1.laid
  dsimp only at run
  rw [running1, prepared1.vaddr] at run
  split at run
  · simp only [bitmapSet_one, bind_eq_ok, Except.ok.injEq, exists_eq_left', pure_eq_ok] at run
    obtain ⟨_, -, ⟨paddr, m2⟩, alloc, run⟩ := run
    have nonNull := (laid.of_mem _).alloc_ne_zero alloc
    dsimp only at run
    rw [if_neg nonNull] at run
    simp only [bind_eq_ok] at run
    obtain ⟨m3, -, m4, -, same⟩ := run
    cases same
    rfl
  · split at run
    · next kernel => cases kernel.2
    · cases run

/-- The page of the thread, with its structure and its kernel stack, stays as it is. -/
theorem getAPage_thread (prepared : Prepared thread bits m) (running : m.running = thread)
    (run : getAPage m .user userStack3Vaddr = .ok (page, m')) {query : Nat} (lower : thread ≤ query)
    (upper : query < thread + 4096) : m'.mem query = m.mem query := by
  obtain ⟨m1, m2, locks, only, finish⟩ := ProcessState.Inv.getAPage_ok prepared running run
  have last := stackBit_eq
  have len := userBitmapLen_eq
  have apart := prepared.apart
  have heap := prepared.threadLower
  have mem : m'.mem = m2.mem := by
    rcases finish with rfl | unlocks
    · rfl
    · exact unlocks.mem
  rw [mem, only.mem query (by omega), ← locks.mem]
  exact Bytes.setBit_of_ne _ _ (by omega)

end StackPage

/-- The segments that `process_start` stores. -/
def processSegs : Segs where
  value seg := if seg = .gs then 0 else SELECTOR_U_DATA
  small seg := by split <;> decide

/-- The whole frame. -/
theorem wordsAt_frame {mem mem' : Bytes} {procStack function top : Nat} (small : function < 2 ^ 32)
    (topLt : top < 2 ^ 32) (same : ∀ query, procStack ≤ query → query < procStack + 68 →
      mem' query = fillFrame mem procStack function query) : ∃ vecno errCode,
    WordsAt ((mem'.write32 (procStack + 68) top).write32 (procStack + 72) SELECTOR_U_DATA) procStack
      (vecno :: Core.generalRegs (fun _ => 0) ++
        [processSegs.value .gs, processSegs.value .fs, processSegs.value .es,
          processSegs.value .ds] ++
          errCode :: [function, SELECTOR_U_CODE, processEflags, top, SELECTOR_U_DATA]) := by
  have filled := @wordsAt_fillFrame mem procStack function small
  generalize mem.read32 procStack = vecno at filled
  generalize mem.read32 (procStack + 52) = errCode at filled
  have split : vecno :: Core.generalRegs (fun _ => 0) ++
        [processSegs.value .gs, processSegs.value .fs, processSegs.value .es,
          processSegs.value .ds] ++
          errCode :: [function, SELECTOR_U_CODE, processEflags, top, SELECTOR_U_DATA] =
      (vecno :: Core.generalRegs (fun _ => 0) ++ [0, SELECTOR_U_DATA, SELECTOR_U_DATA,
        SELECTOR_U_DATA, errCode, function, SELECTOR_U_CODE, processEflags]) ++
          [top, SELECTOR_U_DATA] := rfl
  refine ⟨vecno, errCode, ?_⟩
  rw [split]
  refine WordsAt.append.mpr ⟨filled.congr fun query lower upper => ?_, ?_, ?_, trivial⟩
  · simp only [List.length_append, List.length_cons, List.length_nil, Core.generalRegs] at upper
    rw [Bytes.write32_of_outside _ _ (by omega), Bytes.write32_of_outside _ _ (by omega),
      same query lower (by omega)]
  · simp only [List.length_append, List.length_cons, List.length_nil, Core.generalRegs]
    rw [Bytes.read32_write32_of_disjoint _ _ (by omega), Bytes.read32_write32_self _ topLt]
  · simp only [List.length_append, List.length_cons, List.length_nil, Core.generalRegs]
    exact Bytes.read32_write32_self _ (by decide)

/-- `intr_exit` goes to a program outside the kernel with what the frame says. -/
theorem exit_begins {core : Core} {vecno errCode eip top base : Nat}
    (kernel : core.segs.value .cs = SELECTOR_KERNEL_CODE)
    (stacked : core.Stacked (vecno :: Core.generalRegs (fun _ => 0) ++
      [processSegs.value .gs, processSegs.value .fs, processSegs.value .es,
        processSegs.value .ds] ++
        errCode :: [eip, SELECTOR_U_CODE, processEflags, top, SELECTOR_U_DATA]) base)
    (small : top < 2 ^ 32) : ∃ first,
      (core.run intrExit).iret [SELECTOR_KERNEL_CODE, SELECTOR_U_CODE] = some first ∧
        Begins eip top first := by
  obtain ⟨program, -, regs, cs, -, segs⟩ := intrExit_restores processSegs stacked fun _ => by decide
  have outer : Core.privilege ((core.run intrExit).segs.value .cs) <
      Core.privilege SELECTOR_U_CODE := by
    rw [cs, kernel]
    decide
  have valid : SELECTOR_U_CODE ∈ [SELECTOR_KERNEL_CODE, SELECTOR_U_CODE] := by decide
  obtain ⟨first, leaves, back, esp, ss⟩ :=
    program.iret_outer valid (by decide) small (by decide) outer
  refine ⟨first, leaves, back.eip, esp, fun reg other => ?_, back.cs, ss, ?_, fun seg member => ?_,
    back.eflags⟩
  · rw [back.regs reg other, regs reg other]
  · rw [back.segs .gs (by decide) (by decide), segs .gs (by decide) (by decide)]
    rfl
  · simp only [List.mem_cons, List.not_mem_nil, or_false] at member
    rcases member with rfl | rfl | rfl <;>
    · rw [back.segs _ (by decide) (by decide), segs _ (by decide) (by decide)]
      rfl

/-- A process begins outside the kernel, at its first instruction, with interrupts on and the stack
page in front of it. -/
theorem processStart_begins {m m' : Machine} {thread bits filename : Nat} {core : Core}
    {result : Option Core} (prepared : Prepared thread bits m) (running : m.running = thread)
    (tf : m.mem.read32 (thread + 48) = thread + 4020) (fits : thread + 4096 < 2 ^ 32)
    (kernel : core.segs.value .cs = SELECTOR_KERNEL_CODE) (small : filename < 2 ^ 32)
    (run : processStart m core filename = .ok (m', result)) :
    ∃ first, result = some first ∧ Begins filename 0xc0000000 first := by
  have cur : m.runningThread = thread := running
  simp only [processStart, cur, tf, bind_eq_ok] at run
  obtain ⟨⟨page, m1⟩, got, run⟩ := run
  have apart := prepared.apart
  have prepared' :
      Prepared thread bits { m with mem := fillFrame m.mem (thread + 4020) filename } :=
    prepared.congr (.of_eq rfl rfl) fun query lower upper =>
      fillFrame_of_outside _ (by omega)
  obtain rfl := getAPage_page prepared' running got
  have top : (userStack3Vaddr + pageSize) % 2 ^ 32 = 0xc0000000 := by decide
  dsimp only at run
  rw [top] at run
  obtain ⟨rfl, rfl⟩ := Prod.mk.inj (Except.ok.inj run)
  have esp : (core.regs.set .esp (thread + 4020)).value .esp = thread + 4020 :=
    Regs.set_self_of_lt _ _ (by omega)
  obtain ⟨vecno, errCode, words⟩ := wordsAt_frame small (by decide : 0xc0000000 < 2 ^ 32)
    fun query lower upper => getAPage_thread prepared' running got (by omega) (by omega)
  refine exit_begins kernel (Core.Stacked.mk ?_ fits (by rw [Core.esp, esp]; exact words))
    (by decide)
  simp only [Core.generalRegs, List.cons_append, List.nil_append, List.length_cons, List.length_nil,
    Core.esp, esp]

/-! ## Runs of a process -/

theorem Begins.userMode {filename top : Nat} {core : Core} (begins : Begins filename top core) :
    UserMode core := by
  refine ⟨begins.cs, ?_, ?_⟩
  · rw [begins.eflags]
    decide
  · rw [begins.eflags]
    decide

/-- An interrupt of the process is served on its kernel stack, from the top. -/
theorem UserMode.trapsTo {moment : Interrupted} (mode : UserMode moment.core)
    {thread offset vecno returnAddr : Nat} (fits : thread + 4096 < 2 ^ 32)
    (gate : moment.gate = processGate thread offset) (inTable : vecno ≤ 50) (notNine : vecno ≠ 9)
    (small : returnAddr < 2 ^ 32) : TrapsTo moment vecno returnAddr (thread + 4020) := by
  have outer : moment.core.Outer moment.gate := by
    have level : Core.privilege SELECTOR_KERNEL_CODE < Core.privilege SELECTOR_U_CODE := by decide
    rw [Core.Outer, mode.cs, gate]
    exact level
  have base : (moment.core.stackOf moment.gate).esp = thread + 4096 := by
    rw [Core.stackOf, if_pos outer, gate]
    refine (Core.setEsp_esp _ _).trans ?_
    simp only [processGate, updateTssEsp, Nat.mod_eq_of_lt fits]
  obtain ⟨value, -, -, -, pushed⟩ := pushed_entry moment inTable small
  have error : (errorWords vecno moment.errorCode).length = 1 := by
    rw [errorWords, if_neg notNine]
    split <;> rfl
  have program : (programWords moment.core moment.gate).length = 5 := by
    rw [programWords, if_pos outer]
    rfl
  have length := pushed.esp
  simp only [base, Core.generalRegs, List.length_append, List.length_cons, List.length_nil, error,
    program] at length
  have argument : (moment.entry vecno returnAddr).esp + 4 = thread + 4020 := by omega
  exact {
    argument
    frame := argument ▸ frameOf_entry moment inTable small notNine
    resumed := fun returned cdecl => leave_resumed moment inTable small notNine cdecl }

/-- Neither an instruction nor an interrupt takes the process out of this mode. -/
theorem UserMode.step {thread : Nat} {core next : Core} (mode : UserMode core)
    (step : ProcessStep thread core next) : UserMode next := by
  cases step with
  | instr instr =>
      have level : Core.privilege (core.segs.value .cs) = 3 := by
        rw [mode.cs]
        rfl
      refine ⟨instr.cs.trans mode.cs, ?_, ?_⟩
      · rw [instr.ioPrivilege (by omega), mode.ioPrivilege]
      · rw [instr.interruptFlag (by rw [mode.ioPrivilege, level]; decide), mode.interruptFlag]
  | @interrupt moment offset vecno returnAddr returned _ gate inTable small cdecl leaves =>
      have notNine : vecno ≠ 9 := by
        rintro rfl
        rw [leave_vector9 moment small cdecl] at leaves
        cases leaves
      obtain ⟨after, leaves', resumed⟩ := leave_resumed moment inTable small notNine cdecl
      obtain rfl := Option.some.inj (leaves.symm.trans leaves')
      refine ⟨?_, ?_, ?_⟩
      · rw [resumed.segs, mode.cs]
      · rw [resumed.eflags, mode.ioPrivilege]
      · rw [resumed.eflags, mode.interruptFlag]

/-- `process_start` leaves the kernel for the first instruction of the program, with clear
registers, interrupts on and the stack page in front of it.  Whatever instructions the program
runs, and whatever interrupts it: it stays outside the kernel and can be interrupted, and the
handler of each interrupt, but for vector 9, finds its state where the thread's `tf` points, and
gets back to it. -/
theorem processStart_runs {m m' : Machine} {thread bits filename : Nat} {core : Core}
    {result : Option Core} (prepared : Prepared thread bits m) (running : m.running = thread)
    (tf : m.mem.read32 (thread + 48) = thread + 4020) (fits : thread + 4096 < 2 ^ 32)
    (kernel : core.segs.value .cs = SELECTOR_KERNEL_CODE) (small : filename < 2 ^ 32)
    (run : processStart m core filename = .ok (m', result)) :
    ∃ first, result = some first ∧ Begins filename 0xc0000000 first ∧
      ∀ last, Relation.ReflTransGen (ProcessStep thread) first last → UserMode last ∧
        ∀ (moment : Interrupted) (offset vecno returnAddr : Nat), moment.core = last →
          moment.gate = processGate thread offset → vecno ≤ 50 → vecno ≠ 9 → returnAddr < 2 ^ 32 →
          TrapsTo moment vecno returnAddr (thread + 4020) := by
  obtain ⟨first, found, begins⟩ := processStart_begins prepared running tf fits kernel small run
  refine ⟨first, found, begins, fun last steps => ?_⟩
  have mode : UserMode last := by
    induction steps with
    | refl => exact begins.userMode
    | tail _ step mode => exact mode.step step
  refine ⟨mode, fun moment offset vecno returnAddr same gate inTable notNine returnLt => ?_⟩
  subst same
  exact mode.trapsTo fits gate inTable notNine returnLt

/-- `process_start` comes to its end where the user pool has a frame left and the stack page a page
table. -/
theorem processStart_returns {m : Machine} {thread bits index filename : Nat}
    (prepared : Prepared thread bits m) (running : m.running = thread)
    (tf : m.mem.read32 (thread + 48) = thread + 4020) (free : (m.pool .user).lk = lockInit)
    (process : pgdirOf m.mem thread ≠ 0) (inside : index < m.frameCount .user)
    (clear : m.frameBit .user index = false) (mapped : PageWalk.SelfMapped m.tables m.cr3)
    (present : PageWalk.Present (m.tables (PageWalk.pdeSlot m.cr3 userStack3Vaddr))) (core : Core) :
    ∃ m' result, processStart m core filename = .ok (m', result) := by
  have cur : m.runningThread = thread := running
  have lower := prepared.threadLower
  have outside : ∀ query, query < thread + 4020 →
      fillFrame m.mem (thread + 4020) filename query = m.mem query := fun query below =>
    fillFrame_of_outside _ (.inl below)
  have prepared' :
      Prepared thread bits { m with mem := fillFrame m.mem (thread + 4020) filename } :=
    prepared.congr (.of_eq rfl rfl) fun query _ upper => outside query (by omega)
  have process' : pgdirOf (fillFrame m.mem (thread + 4020) filename) thread ≠ 0 := by
    have same : pgdirOf (fillFrame m.mem (thread + 4020) filename) thread = pgdirOf m.mem thread :=
      Bytes.read32_congr fun query _ upper => outside query (by omega)
    rwa [same]
  have clear' : ({ m with mem := fillFrame m.mem (thread + 4020) filename } :
      Machine).frameBit .user index = false := by
    obtain ⟨kernelPages, userPages, laid⟩ := prepared.laid
    have kernelLe := laid.kernelPages_le
    have userLe := laid.userPages_le
    have frames := laid.frameCount_user ▸ inside
    have bits : (m.pool .user).poolBitmap.bitmapBits < 0xc009b000 := by
      rw [laid.userBitmap]
      dsimp only
      omega
    rw [← clear]
    refine Bytes.bit_congr (outside _ ?_)
    simp only [kernelHeapStart] at lower
    dsimp only
    omega
  obtain ⟨m', run⟩ := getAPage_returns prepared' running free process' inside clear' mapped present
  simp only [processStart, cur, tf, run]
  exact ⟨_, _, rfl⟩

/-- The thread of a process in the first page of the heap, as `process_execute` leaves it. -/
def newProcess (base : Machine) : Machine :=
  let mem := base.mem.write32 0xc0100000 0xc0101000
  let mem := mem.write32 (0xc0100000 + 136) userVaddrStart
  let mem := mem.write32 (0xc0100000 + 132) 0xc0101000
  let mem := mem.write32 (0xc0100000 + 128) userBitmapLen
  let mem := threadCreate mem 0xc0002000 0xc0100000 0xc0003000 0x8048000
  { base with
    mem := mem.write32 (0xc0100000 + 108) 0xc0118000
    running := 0xc0100000
    cr3 := 0x300000
    tables := processTables }

/-- The top of the new kernel stack, less the trap frame. -/
theorem newProcess_kstack (mem : Bytes) : (((((mem.write32 0xc0100000 0xc0101000).write32
      (0xc0100000 + 136) userVaddrStart).write32 (0xc0100000 + 132) 0xc0101000).write32
      (0xc0100000 + 128) userBitmapLen).read32 0xc0100000) - 76 = 0xc0100fb4 := by
  simp (disch := decide) only [Bytes.read32_write32_of_disjoint, Bytes.read32_write32_self]

theorem newProcess_outside (base : Machine) {query : Nat} (outside : query < 0xc0100000) :
    (newProcess base).mem query = base.mem query := by
  simp only [newProcess, threadCreate, contextOf, newProcess_kstack]
  simp (disch := omega) only [Bytes.write32_of_outside]

theorem newProcess_words (base : Machine) :
    userprogVaddr (newProcess base).mem 0xc0100000 = ⟨⟨userBitmapLen, 0xc0101000⟩, userVaddrStart⟩ ∧
      pgdirOf (newProcess base).mem 0xc0100000 ≠ 0 ∧
      (newProcess base).mem.read32 (0xc0100000 + 48) = 0xc0100000 + 4020 := by
  have len : userBitmapLen < 2 ^ 32 := by decide
  have start : userVaddrStart < 2 ^ 32 := by decide
  refine ⟨?_, ?_, ?_⟩
  · simp only [newProcess, threadCreate, contextOf, newProcess_kstack, userprogVaddr]
    simp (disch := first | assumption | decide) only [Bytes.read32_write32_of_disjoint,
      Bytes.read32_write32_self]
  · simp (disch := decide) only [newProcess, pgdirOf, Bytes.read32_write32_self]
    decide
  · refine (Bytes.read32_write32_of_disjoint _ _ (by decide)).trans
      (tf_threadCreate _ ?_ (by decide) _ _ _)
    simp (disch := decide) only [Bytes.read32_write32_of_disjoint, Bytes.read32_write32_self]

/-- A processor in the kernel. -/
def kernelCore : Core where
  regs := ⟨fun _ => 7, fun _ => by decide⟩
  segs := ⟨fun _ => SELECTOR_KERNEL_CODE, fun _ => by decide⟩
  eflags := .load 0
  eip := 0
  mem := fun _ => 0
  ports := []

theorem newProcess_running (base : Machine) : (newProcess base).running = 0xc0100000 := rfl
theorem newProcess_cr3 (base : Machine) : (newProcess base).cr3 = 0x300000 := rfl
theorem newProcess_tables (base : Machine) : (newProcess base).tables = processTables := rfl
theorem newProcess_pool (base : Machine) : (newProcess base).pool = base.pool := rfl

theorem newProcess_prepared {base : Machine} {kernelPages userPages : Nat}
    (laid : Laid base kernelPages userPages) : Prepared 0xc0100000 0xc0101000 (newProcess base) :=
  ⟨⟨kernelPages, userPages, laid.congr (.of_eq rfl rfl)⟩, (newProcess_words base).1, by decide,
    by decide, .inl (by decide)⟩

/-- It starts where the user pool has its first frame left. -/
theorem newProcess_returns {base : Machine} {kernelPages userPages : Nat}
    (laid : Laid base kernelPages userPages) (free : (base.pool .user).lk = lockInit)
    (some : 8 ≤ userPages) (clear : base.frameBit .user 0 = false) (core : Core) :
    ∃ m' result, processStart (newProcess base) core 0x8048000 = .ok (m', result) := by
  obtain ⟨-, process, tf⟩ := newProcess_words base
  have kernelLe := laid.kernelPages_le
  have count : 0 < (newProcess base).frameCount .user := by
    have same : (newProcess base).frameCount .user = base.frameCount .user := rfl
    rw [same, laid.frameCount_user]
    omega
  have bits : (base.pool .user).poolBitmap.bitmapBits < 0xc009b000 := by
    rw [laid.userBitmap]
    dsimp only
    omega
  have frame : (newProcess base).frameBit .user 0 = false := by
    rw [← clear, Machine.frameBit, Machine.frameBit, newProcess_pool]
    exact Bytes.bit_congr (newProcess_outside base (by omega))
  have mapped : PageWalk.SelfMapped (newProcess base).tables (newProcess base).cr3 := by
    rw [newProcess_tables, newProcess_cr3]
    exact processTables_self
  have present : PageWalk.Present
      ((newProcess base).tables (PageWalk.pdeSlot (newProcess base).cr3 userStack3Vaddr)) := by
    rw [newProcess_tables, newProcess_cr3]
    exact processTables_stack
  exact processStart_returns (newProcess_prepared laid) (newProcess_running base) tf
    (newProcess_pool base ▸ free) process count frame mapped present core

/-- A process in a machine with 32 MB of memory. -/
theorem processStart_runs_first : ∃ m m' result first,
    processStart m kernelCore 0x8048000 = .ok (m', result) ∧ result = some first ∧
      Begins 0x8048000 0xc0000000 first ∧
      ∀ last, Relation.ReflTransGen (ProcessStep 0xc0100000) first last → UserMode last ∧
        ∀ (moment : Interrupted) (offset vecno returnAddr : Nat), moment.core = last →
          moment.gate = processGate 0xc0100000 offset → vecno ≤ 50 → vecno ≠ 9 →
          returnAddr < 2 ^ 32 → TrapsTo moment vecno returnAddr (0xc0100000 + 4020) := by
  have laid := memPoolInit_laid Machine.blank (by decide : 0x200000 ≤ 0x2000000) (by decide)
  obtain ⟨m', result, run⟩ := newProcess_returns laid (memPoolInit_lk _ _ _) (by decide)
    (memPoolInit_frameBit _ (by rw [laid.frameCount_user]; decide)) kernelCore
  obtain ⟨first, found, begins, runs⟩ := processStart_runs (newProcess_prepared laid) rfl
    (newProcess_words _).2.2 (by decide) rfl (by decide) run
  exact ⟨_, m', result, first, run, found, begins, runs⟩

end Pumelo
