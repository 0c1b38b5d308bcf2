import Pumelo.Foundation.Bytes

/-!
# Straight-line machine code

The few instructions of a 32-bit processor that move words between registers,
memory and the stack.  A register holds 32 bits by construction, and addresses
wrap around.
-/

namespace Foundation

/-- The general registers. -/
inductive Reg where
  | eax
  | ebx
  | ecx
  | edx
  | esi
  | edi
  | ebp
  | esp
  deriving DecidableEq, Repr

/-- What the registers hold. -/
structure Regs where
  value : Reg → Nat
  small : ∀ reg, value reg < 2 ^ 32

namespace Regs

/-- Load a register. -/
def set (regs : Regs) (reg : Reg) (word : Nat) : Regs where
  value query := if query = reg then word % 2 ^ 32 else regs.value query
  small query := by
    split
    · exact Nat.mod_lt _ (by decide)
    · exact regs.small query

theorem set_self (regs : Regs) (reg : Reg) (word : Nat) :
    (regs.set reg word).value reg = word % 2 ^ 32 := if_pos rfl

theorem set_self_of_lt (regs : Regs) (reg : Reg) {word : Nat} (small : word < 2 ^ 32) :
    (regs.set reg word).value reg = word := by
  rw [set_self, Nat.mod_eq_of_lt small]

theorem set_of_ne (regs : Regs) {reg query : Reg} (word : Nat) (different : query ≠ reg) :
    (regs.set reg word).value query = regs.value query := if_neg different

end Regs

/-- A processor and the memory it works on. -/
structure Cpu where
  regs : Regs
  eip : Nat
  mem : Bytes

/-- An instruction; `disp` and `base` stand for the operand `disp(%base)`. -/
inductive Instr where
  | load (disp : Nat) (base dst : Reg)
  | store (src : Reg) (disp : Nat) (base : Reg)
  | pop (disp : Nat) (base : Reg)
  | push (disp : Nat) (base : Reg)
  | ret
  deriving DecidableEq, Repr

namespace Cpu

/-- The address of the operand `disp(%base)`. -/
def addr (cpu : Cpu) (disp : Nat) (base : Reg) : Nat := (cpu.regs.value base + disp) % 2 ^ 32

/-- Push a word. -/
def pushWord (cpu : Cpu) (word : Nat) : Cpu :=
  let top := (cpu.regs.value .esp + 2 ^ 32 - 4) % 2 ^ 32
  { cpu with regs := cpu.regs.set .esp top, mem := cpu.mem.write32 top word }

/-- The word on top of the stack, and the processor without it. -/
def popWord (cpu : Cpu) : Nat × Cpu :=
  (cpu.mem.read32 (cpu.regs.value .esp),
    { cpu with regs := cpu.regs.set .esp (cpu.regs.value .esp + 4) })

/-- One instruction. `pop` computes the address of its operand after it has moved
the stack pointer. -/
def step (cpu : Cpu) : Instr → Cpu
  | .load disp base dst =>
      { cpu with regs := cpu.regs.set dst (cpu.mem.read32 (cpu.addr disp base)) }
  | .store src disp base =>
      { cpu with mem := cpu.mem.write32 (cpu.addr disp base) (cpu.regs.value src) }
  | .pop disp base =>
      let (word, cpu) := cpu.popWord
      { cpu with mem := cpu.mem.write32 (cpu.addr disp base) word }
  | .push disp base => cpu.pushWord (cpu.mem.read32 (cpu.addr disp base))
  | .ret =>
      let (word, cpu) := cpu.popWord
      { cpu with eip := word }

/-- Instructions one after the other. -/
def run (cpu : Cpu) (code : List Instr) : Cpu := code.foldl step cpu

/-- `call` from an instruction that is followed by the one at `returnAddr`. -/
def call (cpu : Cpu) (returnAddr : Nat) : Cpu := cpu.pushWord returnAddr

theorem run_append (cpu : Cpu) (first second : List Instr) :
    cpu.run (first ++ second) = (cpu.run first).run second := List.foldl_append

theorem run_cons (cpu : Cpu) (instr : Instr) (code : List Instr) :
    cpu.run (instr :: code) = (cpu.step instr).run code := rfl

@[simp] theorem run_nil (cpu : Cpu) : cpu.run [] = cpu := rfl

section

variable (cpu : Cpu) (disp word : Nat) (base src dst : Reg)

@[simp] theorem load_self :
    (cpu.step (.load disp base dst)).regs.value dst = cpu.mem.read32 (cpu.addr disp base) :=
  Regs.set_self_of_lt _ _ (cpu.mem.read32_lt _)

theorem load_of_ne {query : Reg} (different : query ≠ dst) :
    (cpu.step (.load disp base dst)).regs.value query = cpu.regs.value query :=
  Regs.set_of_ne _ _ different

@[simp] theorem load_mem : (cpu.step (.load disp base dst)).mem = cpu.mem := rfl

@[simp] theorem store_regs : (cpu.step (.store src disp base)).regs = cpu.regs := rfl

@[simp] theorem store_mem : (cpu.step (.store src disp base)).mem =
    cpu.mem.write32 (cpu.addr disp base) (cpu.regs.value src) := rfl

theorem pop_of_ne {query : Reg} (different : query ≠ .esp) :
    (cpu.step (.pop disp base)).regs.value query = cpu.regs.value query :=
  Regs.set_of_ne _ _ different

@[simp] theorem pop_esp :
    (cpu.step (.pop disp base)).regs.value .esp = (cpu.regs.value .esp + 4) % 2 ^ 32 :=
  Regs.set_self _ _ _

theorem pop_mem (other : base ≠ .esp) : (cpu.step (.pop disp base)).mem =
    cpu.mem.write32 (cpu.addr disp base) (cpu.mem.read32 (cpu.regs.value .esp)) := by
  simp only [step, popWord, addr]
  rw [Regs.set_of_ne _ _ other]

theorem pushWord_of_ne {query : Reg} (different : query ≠ .esp) :
    (cpu.pushWord word).regs.value query = cpu.regs.value query :=
  Regs.set_of_ne _ _ different

/-- Where the stack has room, pushing moves its top down a word. -/
theorem pushWord_esp (room : 4 ≤ cpu.regs.value .esp) :
    (cpu.pushWord word).regs.value .esp = cpu.regs.value .esp - 4 := by
  have small := cpu.regs.small .esp
  rw [pushWord, Regs.set_self]
  omega

theorem pushWord_mem (room : 4 ≤ cpu.regs.value .esp) :
    (cpu.pushWord word).mem = cpu.mem.write32 (cpu.regs.value .esp - 4) word := by
  have small := cpu.regs.small .esp
  have top : (cpu.regs.value .esp + 2 ^ 32 - 4) % 2 ^ 32 = cpu.regs.value .esp - 4 := by omega
  simp only [pushWord, top]

@[simp] theorem step_push :
    cpu.step (.push disp base) = cpu.pushWord (cpu.mem.read32 (cpu.addr disp base)) := rfl

/-- Pushing an address and returning is a jump that leaves the stack pointer. -/
theorem ret_pushWord (room : 4 ≤ cpu.regs.value .esp) (small : word < 2 ^ 32) :
    ((cpu.pushWord word).step .ret).eip = word ∧
      (∀ query, ((cpu.pushWord word).step .ret).regs.value query = cpu.regs.value query) ∧
      ((cpu.pushWord word).step .ret).mem = cpu.mem.write32 (cpu.regs.value .esp - 4) word := by
  have esp := cpu.pushWord_esp word room
  have mem := cpu.pushWord_mem word room
  have espLt := cpu.regs.small .esp
  refine ⟨?_, fun query => ?_, mem⟩
  · simp only [step, popWord]
    rw [esp, mem, Bytes.read32_write32_self _ small]
  · simp only [step, popWord]
    by_cases self : query = .esp
    · subst self
      rw [Regs.set_self, esp]
      omega
    · rw [Regs.set_of_ne _ _ self, cpu.pushWord_of_ne word self]

end

end Cpu

end Foundation
