import Pumelo.Machine

/-!
# Loading the kernel image

The boot sector leaves the kernel, an ELF file, at 0x70000.  `kernel_init` walks its program
header table and copies the file bytes of what it finds there.
-/

namespace Pumelo

open Foundation

/-- `KERNEL_BASE_ADDR` -/
def kernelBaseAddr : Nat := 0x70000

/-- `PTNULL` -/
def ptNull : Nat := 0

/-- Where an address lies under the tables of `setup_page`: the first megabyte is mapped twice,
and the other tables are filled by the kernel only. -/
def lowAddr (vaddr : Nat) : Except Fault Nat :=
  if vaddr < 0x100000 then .ok vaddr
  else if 0xc0000000 ≤ vaddr ∧ vaddr < 0xc0100000 then .ok (vaddr - 0xc0000000)
  else .error (.pageFault vaddr)

/-- A byte as `%esi` reads it. -/
def loadByte (mem : Bytes) (vaddr : Nat) : Except Fault UInt8 := do
  let addr ← lowAddr vaddr
  pure (mem addr)

/-- Both ends of a word are in a page that is mapped. -/
def loadWord (mem : Bytes) (vaddr : Nat) : Except Fault Nat := do
  let addr ← lowAddr vaddr
  let _ ← lowAddr (vaddr + 3)
  pure (mem.read32 addr)

/-- `mem_cpy`: `rep movsb` -/
def memCpy (mem : Bytes) (dst src : Nat) : (cnt : Nat) → Except Fault Bytes
  | 0 => .ok mem
  | cnt + 1 => do
      let byte ← loadByte mem src
      let addr ← lowAddr dst
      memCpy (mem.write8 addr byte) ((dst + 1) % 2 ^ 32) ((src + 1) % 2 ^ 32) cnt

/-- `each_segment`, with the turns that `loop` has left. -/
def eachSegment (mem : Bytes) (ebx edx : Nat) : (turns : Nat) → Except Fault Bytes
  | 0 => .ok mem
  | turns + 1 => do
      let type ← loadWord mem ebx
      if type = ptNull then
        pure mem
      else
        let filesz ← loadWord mem ((ebx + 16) % 2 ^ 32)
        let offset ← loadWord mem ((ebx + 4) % 2 ^ 32)
        let vaddr ← loadWord mem ((ebx + 8) % 2 ^ 32)
        let mem ← memCpy mem vaddr ((offset + kernelBaseAddr) % 2 ^ 32) filesz
        eachSegment mem ((ebx + edx) % 2 ^ 32) edx turns

/-- The 16-bit word whose low byte is at `addr`. -/
def read16 (mem : Bytes) (addr : Nat) : Nat :=
  (mem addr).toNat + 2 ^ 8 * (mem (addr + 1)).toNat

/-- The turns of `loop` from a count on, which it counts down before it looks. -/
def loopTurns (ecx : Nat) : Nat := if ecx = 0 then 2 ^ 32 else ecx

/-- `kernel_init`; the words it pushes below 0xc0000900 are left out. -/
def kernelInit (mem : Bytes) : Except Fault Bytes :=
  let edx := read16 mem (kernelBaseAddr + 42)
  let ebx := (mem.read32 (kernelBaseAddr + 28) + kernelBaseAddr) % 2 ^ 32
  let ecx := (read16 mem (kernelBaseAddr + 44) + 2 ^ 16 - 1) % 2 ^ 16
  eachSegment mem ebx edx (loopTurns ecx)

/-- `e_phnum` -/
def phnum (mem : Bytes) : Nat := read16 mem (kernelBaseAddr + 44)

/-- The offset of a program header in the file. -/
def phdrOffset (mem : Bytes) (k : Nat) : Nat :=
  mem.read32 (kernelBaseAddr + 28) + read16 mem (kernelBaseAddr + 42) * k

/-- `Elf32_Phdr`; the loader reads the first five words, and `p_memsz` says how long a segment is
in memory. -/
structure Phdr where
  type : Nat
  offset : Nat
  vaddr : Nat
  filesz : Nat
  memsz : Nat
  deriving DecidableEq, Repr

/-- The program header at an index, also behind the last one. -/
def phdr (mem : Bytes) (k : Nat) : Phdr :=
  let addr := kernelBaseAddr + phdrOffset mem k
  { type := mem.read32 addr
    offset := mem.read32 (addr + 4)
    vaddr := mem.read32 (addr + 8)
    filesz := mem.read32 (addr + 16)
    memsz := mem.read32 (addr + 20) }

/-- Addresses that the tables of `setup_page` map. -/
def Mapped (vaddr len : Nat) : Prop :=
  len = 0 ∨ vaddr + len ≤ 0x100000 ∨ 0xc0000000 ≤ vaddr ∧ vaddr + len ≤ 0xc0100000

instance (vaddr len : Nat) : Decidable (Mapped vaddr len) := inferInstanceAs (Decidable (_ ∨ _))

/-- The lowest word that `mem_cpy` pushes. -/
def loaderStack : Nat := 0x8e4

/-- Behind the data of the loader. -/
def loaderEnd : Nat := 0x1000

namespace Phdr

/-- `PT_LOAD` -/
def Loadable (ph : Phdr) : Prop := ph.type = 1

instance (ph : Phdr) : Decidable ph.Loadable := inferInstanceAs (Decidable (ph.type = 1))

/-- The first byte of the segment in memory. -/
def addr (ph : Phdr) : Nat := ph.vaddr % 0xc0000000

/-- Where the loader takes the file bytes from. -/
def fileVaddr (ph : Phdr) : Nat := (ph.offset + kernelBaseAddr) % 2 ^ 32

def fileAddr (ph : Phdr) : Nat := ph.fileVaddr % 0xc0000000

/-- The bytes of a segment: those of the file, then zeros. -/
def byte (ph : Phdr) (mem : Bytes) (i : Nat) : UInt8 :=
  if i < ph.filesz then mem (kernelBaseAddr + ph.offset + i) else 0

/-- The segment lies in mapped memory, apart from the loader with its stack and from the image. -/
def Lands (ph : Phdr) (size len : Nat) : Prop :=
  len = 0 ∨ (ph.vaddr + len ≤ 0x100000 ∨ 0xc0000000 ≤ ph.vaddr ∧ ph.vaddr + len ≤ 0xc0100000) ∧
    (ph.addr + len ≤ loaderStack ∨ loaderEnd ≤ ph.addr) ∧
    (ph.addr + len ≤ kernelBaseAddr ∨ kernelBaseAddr + size ≤ ph.addr)

instance (ph : Phdr) (size len : Nat) : Decidable (ph.Lands size len) :=
  inferInstanceAs (Decidable (_ ∨ _))

/-- The file bytes are stored outside of a range. -/
def Misses (ph : Phdr) (lower upper : Nat) : Prop :=
  ph.filesz = 0 ∨ ph.addr + ph.filesz ≤ lower ∨ upper ≤ ph.addr

instance (ph : Phdr) (lower upper : Nat) : Decidable (ph.Misses lower upper) :=
  inferInstanceAs (Decidable (_ ∨ _))

end Phdr

/-- A well-formed ELF file, with its loadable segments where the loader can put them. -/
structure ElfImage (mem : Bytes) (size : Nat) : Prop where
  low : kernelBaseAddr + size ≤ 0x100000
  header : 52 ≤ size
  some : 1 ≤ phnum mem
  entry : 32 ≤ read16 mem (kernelBaseAddr + 42)
  table : phdrOffset mem (phnum mem) ≤ size
  source : ∀ k < phnum mem, (phdr mem k).Loadable →
    (phdr mem k).offset + (phdr mem k).filesz ≤ size
  room : ∀ k < phnum mem, (phdr mem k).Loadable → (phdr mem k).filesz ≤ (phdr mem k).memsz
  lands : ∀ k < phnum mem, (phdr mem k).Loadable → (phdr mem k).Lands size (phdr mem k).memsz
  apart : ∀ k < phnum mem, ∀ j < k, (phdr mem j).Loadable → (phdr mem k).Loadable →
    (phdr mem j).addr + (phdr mem j).memsz ≤ (phdr mem k).addr ∨
      (phdr mem k).addr + (phdr mem k).memsz ≤ (phdr mem j).addr

/-- `kernel_init` returns with every loadable segment in memory. -/
def Loads (mem : Bytes) : Prop :=
  ∃ mem', kernelInit mem = .ok mem' ∧ ∀ k < phnum mem, (phdr mem k).Loadable →
    ∀ i < (phdr mem k).memsz, loadByte mem' ((phdr mem k).vaddr + i) = .ok ((phdr mem k).byte mem i)

/-- The headers that the loop comes to: one less than there are, and 2 ^ 32 if there is one. -/
def Reached (mem : Bytes) (k : Nat) : Prop :=
  k < loopTurns (phnum mem - 1) ∧ ∀ j < k, (phdr mem j).type ≠ ptNull

/-- The headers whose file bytes are copied. -/
def Copied (mem : Bytes) (k : Nat) : Prop := Reached mem k ∧ (phdr mem k).type ≠ ptNull

/-- A header's file bytes go to an address. -/
def Covers (mem : Bytes) (k addr : Nat) : Prop :=
  (phdr mem k).addr ≤ addr ∧ addr < (phdr mem k).addr + (phdr mem k).filesz

/-- The bytes of a header that the loop reads: of `PT_NULL` the type only. -/
def phdrBytes (mem : Bytes) (k : Nat) : Nat := if (phdr mem k).type = ptNull then 4 else 20

/-- The loop overwrites nothing that it still needs: not the loader and its stack, no header
that it comes to later, and no byte that is still to be copied. -/
structure Keeps (mem : Bytes) : Prop where
  loader : ∀ k, Copied mem k → (phdr mem k).Misses loaderStack loaderEnd
  headers : ∀ k, Reached mem k → ∀ j < k,
    (phdr mem j).Misses (kernelBaseAddr + phdrOffset mem k)
      (kernelBaseAddr + phdrOffset mem k + phdrBytes mem k)
  ahead : ∀ k, Copied mem k → 0 < (phdr mem k).filesz → ∀ j < k,
    (phdr mem j).Misses (phdr mem k).fileAddr ((phdr mem k).fileAddr + (phdr mem k).filesz)
  itself : ∀ k, Copied mem k →
    (phdr mem k).addr ≤ (phdr mem k).fileAddr ∨
      (phdr mem k).fileAddr + (phdr mem k).filesz ≤ (phdr mem k).addr

/-- What the loop reads and writes for a header is mapped. -/
structure Accessible (mem : Bytes) (k : Nat) : Prop where
  header : kernelBaseAddr + phdrOffset mem k + phdrBytes mem k ≤ 0x100000
  source : (phdr mem k).type ≠ ptNull → Mapped (phdr mem k).fileVaddr (phdr mem k).filesz
  target : (phdr mem k).type ≠ ptNull → Mapped (phdr mem k).vaddr (phdr mem k).filesz

/-- The last copy to an address stores a byte there, or none does and it was there before. -/
def Supplies (mem : Bytes) (addr : Nat) (byte : UInt8) : Prop :=
  (∃ k, Copied mem k ∧ Covers mem k addr ∧ (∀ j, k < j → Copied mem j → ¬Covers mem j addr) ∧
    mem ((phdr mem k).fileAddr + (addr - (phdr mem k).addr)) = byte) ∨
  (∀ k, Copied mem k → ¬Covers mem k addr) ∧ mem addr = byte

/-- What the headers have to be for the loader to do its work with them. -/
structure LoadsWhen (mem : Bytes) : Prop where
  keeps : Keeps mem
  accessible : ∀ k, Reached mem k → Accessible mem k
  supplied : ∀ k < phnum mem, (phdr mem k).Loadable → ∀ i < (phdr mem k).memsz,
    Supplies mem ((phdr mem k).addr + i) ((phdr mem k).byte mem i)

section Copies

variable {mem cur : Bytes} {vaddr addr len i dst src cnt : Nat}

theorem lowAddr_of_mapped
    (mapped : vaddr < 0x100000 ∨ 0xc0000000 ≤ vaddr ∧ vaddr < 0xc0100000) :
    lowAddr vaddr = .ok (vaddr % 0xc0000000) := by
  unfold lowAddr
  split
  · rw [Nat.mod_eq_of_lt (by omega)]
  · rw [if_pos (by omega)]
    refine congrArg Except.ok ?_
    omega

theorem lowAddr_mapped (run : lowAddr vaddr = .ok addr) :
    vaddr < 0x100000 ∨ 0xc0000000 ≤ vaddr ∧ vaddr < 0xc0100000 := by
  unfold lowAddr at run
  split at run
  · next low => exact .inl low
  · split at run
    · next high => exact .inr high
    · cases run

/-- A byte of a range lies where its first byte says. -/
theorem Mapped.lowAddr_eq (mapped : Mapped vaddr len) (inside : i < len) :
    lowAddr ((vaddr + i) % 2 ^ 32) = .ok (vaddr % 0xc0000000 + i) := by
  unfold Mapped at mapped
  rw [Nat.mod_eq_of_lt (by omega), lowAddr_of_mapped (by omega)]
  refine congrArg Except.ok ?_
  omega

namespace Phdr

variable {ph : Phdr} {size : Nat}

theorem Lands.mapped (lands : ph.Lands size len) : Mapped ph.vaddr len := by
  obtain none | ⟨mapped, -⟩ := lands
  · exact .inl none
  · exact .inr mapped

theorem Lands.lowAddr_eq (lands : ph.Lands size len) (inside : i < len) :
    lowAddr (ph.vaddr + i) = .ok (ph.addr + i) := by
  have mapped := lands.mapped
  have byte := mapped.lowAddr_eq inside
  unfold Mapped at mapped
  rwa [Nat.mod_eq_of_lt (by omega)] at byte

theorem byte_of_lt (mem : Bytes) (inside : i < ph.filesz) :
    ph.byte mem i = mem (kernelBaseAddr + ph.offset + i) :=
  if_pos inside

end Phdr

/-- A copy is exact if no byte is overwritten that is still to be read. -/
theorem memCpy_eq (source : Mapped src cnt) (target : Mapped dst cnt)
    (same : ∀ i < cnt, cur (src % 0xc0000000 + i) = mem (src % 0xc0000000 + i))
    (itself : dst % 0xc0000000 ≤ src % 0xc0000000 ∨
      src % 0xc0000000 + cnt ≤ dst % 0xc0000000) :
    ∀ rest done, done + rest = cnt →
      memCpy (cur.copy (dst % 0xc0000000) mem (src % 0xc0000000) done) ((dst + done) % 2 ^ 32)
          ((src + done) % 2 ^ 32) rest =
        .ok (cur.copy (dst % 0xc0000000) mem (src % 0xc0000000) cnt) := by
  intro rest
  induction rest with
  | zero =>
      intro done total
      rw [← total]
      rfl
  | succ rest ih =>
      intro done total
      have byte : loadByte (cur.copy (dst % 0xc0000000) mem (src % 0xc0000000) done)
          ((src + done) % 2 ^ 32) = .ok (mem (src % 0xc0000000 + done)) := by
        rw [loadByte, bind_ok (source.lowAddr_eq (by omega)), ← same done (by omega)]
        exact congrArg Except.ok (Bytes.copy_of_outside _ _ (by omega))
      rw [memCpy, bind_ok byte, bind_ok (target.lowAddr_eq (by omega)), Nat.mod_add_mod,
        Nat.mod_add_mod, Nat.add_assoc dst, Nat.add_assoc src, Bytes.copy_succ]
      exact ih (done + 1) (by omega)

/-- A copy that ends has found all of its bytes mapped. -/
theorem memCpy_mapped {mem' : Bytes} (smallDst : dst < 2 ^ 32) (smallSrc : src < 2 ^ 32)
    (run : memCpy mem dst src cnt = .ok mem') : Mapped src cnt ∧ Mapped dst cnt := by
  induction cnt generalizing mem dst src with
  | zero => exact ⟨.inl rfl, .inl rfl⟩
  | succ cnt ih =>
      obtain ⟨byte, read, run⟩ := bind_eq_ok.mp run
      obtain ⟨addr, write, run⟩ := bind_eq_ok.mp run
      obtain ⟨from', read, -⟩ := bind_eq_ok.mp read
      have rest := ih (Nat.mod_lt _ (by decide)) (Nat.mod_lt _ (by decide)) run
      have here := lowAddr_mapped read
      have there := lowAddr_mapped write
      unfold Mapped at *
      omega

end Copies

/-- Memory with the file bytes of the first headers in place. -/
def placed (mem : Bytes) : Nat → Bytes
  | 0 => mem
  | k + 1 =>
      (placed mem k).copy (phdr mem k).addr mem (phdr mem k).fileAddr (phdr mem k).filesz

section Placed

variable {mem : Bytes} {n addr : Nat}

theorem placed_of_not_covered (free : ∀ k < n, ¬Covers mem k addr) :
    placed mem n addr = mem addr := by
  induction n with
  | zero => rfl
  | succ n ih =>
      have last := free n (by omega)
      rw [placed, Bytes.copy_of_outside _ _ (by unfold Covers at last; omega)]
      exact ih fun k lt => free k (by omega)

/-- The last copy to an address is the one that stays. -/
theorem placed_of_covered {k : Nat} (lt : k < n) (covers : Covers mem k addr)
    (last : ∀ j, k < j → j < n → ¬Covers mem j addr) :
    placed mem n addr = mem ((phdr mem k).fileAddr + (addr - (phdr mem k).addr)) := by
  induction n with
  | zero => omega
  | succ n ih =>
      obtain rfl | earlier := Nat.eq_or_lt_of_le (Nat.le_of_lt_succ lt)
      · exact Bytes.copy_of_inside _ _ _ covers.1 covers.2
      · have other := last n earlier (Nat.lt_succ_self n)
        rw [placed, Bytes.copy_of_outside _ _ (by unfold Covers at other; omega)]
        exact ih earlier fun j after before => last j after (by omega)

/-- Among the first copies to an address there is a last one. -/
theorem exists_last_covers (covered : ∃ k < n, Covers mem k addr) :
    ∃ k < n, Covers mem k addr ∧ ∀ j, k < j → j < n → ¬Covers mem j addr := by
  induction n with
  | zero =>
      obtain ⟨k, lt, -⟩ := covered
      omega
  | succ n ih =>
      by_cases last : Covers mem n addr
      · exact ⟨n, Nat.lt_succ_self n, last, fun j after before => by omega⟩
      · obtain ⟨k, lt, covers⟩ := covered
        have different : k ≠ n := fun same => last (same ▸ covers)
        obtain ⟨k, lt, covers, unique⟩ := ih ⟨k, by omega, covers⟩
        refine ⟨k, by omega, covers, fun j after before => ?_⟩
        obtain rfl | earlier := Nat.eq_or_lt_of_le (Nat.le_of_lt_succ before)
        · exact last
        · exact unique j after earlier

theorem supplies_iff (copied : ∀ j, j < n ↔ Copied mem j) {byte : UInt8} :
    Supplies mem addr byte ↔ placed mem n addr = byte := by
  constructor
  · rintro (⟨k, copies, covers, last, same⟩ | ⟨free, same⟩)
    · rw [placed_of_covered ((copied k).mpr copies) covers fun j after before =>
        last j after ((copied j).mp before), same]
    · rw [placed_of_not_covered fun k lt => free k ((copied k).mp lt), same]
  · intro same
    by_cases covered : ∃ k < n, Covers mem k addr
    · obtain ⟨k, lt, covers, last⟩ := exists_last_covers covered
      refine .inl ⟨k, (copied k).mp lt, covers, fun j after copies => ?_, ?_⟩
      · exact last j after ((copied j).mpr copies)
      · rw [← placed_of_covered lt covers last, same]
    · have free : ∀ k < n, ¬Covers mem k addr := fun k lt covers => covered ⟨k, lt, covers⟩
      refine .inr ⟨fun k copies => free k ((copied k).mpr copies), ?_⟩
      rw [← placed_of_not_covered free, same]

/-- A range that the first copies miss is as it was. -/
theorem placed_of_misses {lower upper : Nat} (misses : ∀ k < n, (phdr mem k).Misses lower upper)
    (above : lower ≤ addr) (below : addr < upper) : placed mem n addr = mem addr := by
  apply placed_of_not_covered
  rintro k lt ⟨start, stop⟩
  obtain none | before | behind := misses k lt
  · omega
  · omega
  · omega

end Placed

section Loop

variable {mem : Bytes} {size k : Nat}

theorem phdrOffset_succ (mem : Bytes) (k : Nat) :
    phdrOffset mem (k + 1) = phdrOffset mem k + read16 mem (kernelBaseAddr + 42) := by
  rw [phdrOffset, phdrOffset, Nat.mul_succ, Nat.add_assoc]

theorem phdrOffset_le (mem : Bytes) {j k : Nat} (le : j ≤ k) :
    phdrOffset mem j ≤ phdrOffset mem k :=
  Nat.add_le_add_left (Nat.mul_le_mul_left _ le) _

theorem read16_lt (mem : Bytes) (addr : Nat) : read16 mem addr < 2 ^ 16 := by
  have byte0 := (mem addr).toNat_lt
  have byte1 := (mem (addr + 1)).toNat_lt
  simp only [read16]
  omega

/-- A word of low memory, as it is read. -/
theorem loadWord_eq {cur : Bytes} {vaddr : Nat} (inside : vaddr + 4 ≤ 0x100000) :
    loadWord cur (vaddr % 2 ^ 32) = .ok (cur.read32 vaddr) := by
  rw [Nat.mod_eq_of_lt (by omega), loadWord, bind_ok (lowAddr_of_mapped (.inl (by omega))),
    bind_ok (lowAddr_of_mapped (.inl (by omega))), Nat.mod_eq_of_lt (by omega)]
  rfl

theorem loadWord_inside {cur : Bytes} {vaddr word : Nat} (near : vaddr < 0xb0000000)
    (run : loadWord cur (vaddr % 2 ^ 32) = .ok word) : vaddr + 4 ≤ 0x100000 := by
  rw [Nat.mod_eq_of_lt (by omega)] at run
  obtain ⟨_, -, run⟩ := bind_eq_ok.mp run
  obtain ⟨_, last, -⟩ := bind_eq_ok.mp run
  have mapped := lowAddr_mapped last
  omega

/-- Memory when the loop comes to a header: the ones in front of it are copied. -/
structure Comes (mem : Bytes) (k : Nat) : Prop where
  keeps : Keeps mem
  reached : Reached mem k
  near : kernelBaseAddr + phdrOffset mem k < 0x110000

namespace Comes

/-- The words of the header are those of the file. -/
theorem word (comes : Comes mem k) {field : Nat} (inside : field + 4 ≤ phdrBytes mem k) :
    (placed mem k).read32 (kernelBaseAddr + phdrOffset mem k + field) =
      mem.read32 (kernelBaseAddr + phdrOffset mem k + field) :=
  Bytes.read32_congr fun _ lower upper =>
    placed_of_misses (comes.keeps.headers k comes.reached) (by omega) (by omega)

theorem loadWord_eq (comes : Comes mem k) (field : Nat) (short : field + 4 ≤ phdrBytes mem k)
    (inside : kernelBaseAddr + phdrOffset mem k + field + 4 ≤ 0x100000) :
    loadWord (placed mem k) ((kernelBaseAddr + phdrOffset mem k + field) % 2 ^ 32) =
      .ok (mem.read32 (kernelBaseAddr + phdrOffset mem k + field)) := by
  rw [Pumelo.loadWord_eq inside, comes.word short]

/-- A word that is read is one of the file. -/
theorem read_eq (comes : Comes mem k) (field : Nat) {word : Nat}
    (short : field + 4 ≤ phdrBytes mem k)
    (run : loadWord (placed mem k) ((kernelBaseAddr + phdrOffset mem k + field) % 2 ^ 32) =
      .ok word) :
    kernelBaseAddr + phdrOffset mem k + field + 4 ≤ 0x100000 ∧
      word = mem.read32 (kernelBaseAddr + phdrOffset mem k + field) := by
  have near := comes.near
  have bytes : phdrBytes mem k ≤ 20 := by
    unfold phdrBytes
    split <;> omega
  have inside := loadWord_inside (by omega) run
  rw [comes.loadWord_eq field short inside] at run
  exact ⟨inside, (Except.ok.inj run).symm⟩

theorem succ (comes : Comes mem k) (accessible : Accessible mem k)
    (type : (phdr mem k).type ≠ ptNull) (more : k + 1 < loopTurns (phnum mem - 1)) :
    Comes mem (k + 1) where
  keeps := comes.keeps
  reached := by
    refine ⟨more, fun j lt => ?_⟩
    obtain rfl | earlier := Nat.eq_or_lt_of_le (Nat.le_of_lt_succ lt)
    · exact type
    · exact comes.reached.2 j earlier
  near := by
    have header := accessible.header
    have entry := read16_lt mem (kernelBaseAddr + 42)
    rw [phdrOffset_succ]
    omega

theorem memCpy_eq (comes : Comes mem k) (accessible : Accessible mem k)
    (type : (phdr mem k).type ≠ ptNull) :
    memCpy (placed mem k) (phdr mem k).vaddr (phdr mem k).fileVaddr (phdr mem k).filesz =
      .ok (placed mem (k + 1)) := by
  have copied : Copied mem k := ⟨comes.reached, type⟩
  have bound : (phdr mem k).vaddr < 2 ^ 32 := Bytes.read32_lt _ _
  have bound' : (phdr mem k).fileVaddr < 2 ^ 32 := Nat.mod_lt _ (by decide)
  have run := @Pumelo.memCpy_eq mem (placed mem k) _ _ _ (accessible.source type)
    (accessible.target type) (fun i lt =>
      placed_of_misses (comes.keeps.ahead k copied (by omega)) (Nat.le_add_right _ _)
        (Nat.add_lt_add_left lt _)) (comes.keeps.itself k copied) _ 0 (Nat.zero_add _)
  rwa [Bytes.copy_zero, Nat.add_zero, Nat.add_zero, Nat.mod_eq_of_lt bound,
    Nat.mod_eq_of_lt bound'] at run

/-- At `PT_NULL` the loop ends. -/
theorem turn_null (comes : Comes mem k) (accessible : Accessible mem k)
    (null : (phdr mem k).type = ptNull) (turns : Nat) :
    eachSegment (placed mem k) ((kernelBaseAddr + phdrOffset mem k) % 2 ^ 32)
        (read16 mem (kernelBaseAddr + 42)) (turns + 1) = .ok (placed mem k) := by
  have bytes : phdrBytes mem k = 4 := if_pos null
  have header := accessible.header
  have type : loadWord (placed mem k) ((kernelBaseAddr + phdrOffset mem k) % 2 ^ 32) =
      .ok (phdr mem k).type := comes.loadWord_eq 0 (by omega) (by omega)
  rw [eachSegment, bind_ok type, if_pos null]
  rfl

/-- At another header it copies and goes on. -/
theorem turn_copy (comes : Comes mem k) (accessible : Accessible mem k)
    (other : (phdr mem k).type ≠ ptNull) (turns : Nat) :
    eachSegment (placed mem k) ((kernelBaseAddr + phdrOffset mem k) % 2 ^ 32)
        (read16 mem (kernelBaseAddr + 42)) (turns + 1) =
      eachSegment (placed mem (k + 1)) ((kernelBaseAddr + phdrOffset mem (k + 1)) % 2 ^ 32)
        (read16 mem (kernelBaseAddr + 42)) turns := by
  have bytes : phdrBytes mem k = 20 := if_neg other
  have header := accessible.header
  have field {field : Nat} (le : field ≤ 16) :=
    comes.loadWord_eq field (by omega) (by omega)
  have type : loadWord (placed mem k) ((kernelBaseAddr + phdrOffset mem k) % 2 ^ 32) =
      .ok (phdr mem k).type := field (Nat.zero_le 16)
  have filesz : loadWord (placed mem k) ((kernelBaseAddr + phdrOffset mem k + 16) % 2 ^ 32) =
      .ok (phdr mem k).filesz := field (by decide)
  have offset : loadWord (placed mem k) ((kernelBaseAddr + phdrOffset mem k + 4) % 2 ^ 32) =
      .ok (phdr mem k).offset := field (by decide)
  have vaddr : loadWord (placed mem k) ((kernelBaseAddr + phdrOffset mem k + 8) % 2 ^ 32) =
      .ok (phdr mem k).vaddr := field (by decide)
  have copy : memCpy (placed mem k) (phdr mem k).vaddr
      (((phdr mem k).offset + kernelBaseAddr) % 2 ^ 32) (phdr mem k).filesz =
        .ok (placed mem (k + 1)) := comes.memCpy_eq accessible other
  rw [eachSegment, bind_ok type, if_neg other, Nat.mod_add_mod, Nat.mod_add_mod, Nat.mod_add_mod,
    Nat.mod_add_mod, bind_ok filesz, bind_ok offset, bind_ok vaddr,
    bind_ok copy, Nat.add_assoc, ← phdrOffset_succ]

/-- A turn that does not fault has found its header, the source and the target mapped. -/
theorem accessible (comes : Comes mem k) {turns : Nat} {mem' : Bytes}
    (run : eachSegment (placed mem k) ((kernelBaseAddr + phdrOffset mem k) % 2 ^ 32)
      (read16 mem (kernelBaseAddr + 42)) (turns + 1) = .ok mem') : Accessible mem k := by
  obtain ⟨type, read, run⟩ := bind_eq_ok.mp run
  have short : 4 ≤ phdrBytes mem k := by
    unfold phdrBytes
    split <;> omega
  obtain ⟨inside, rfl⟩ := comes.read_eq 0 (by omega) read
  by_cases null : (phdr mem k).type = ptNull
  · have bytes : phdrBytes mem k = 4 := if_pos null
    exact ⟨by omega, absurd null, absurd null⟩
  · have bytes : phdrBytes mem k = 20 := if_neg null
    rw [if_neg (show ¬mem.read32 (kernelBaseAddr + phdrOffset mem k + 0) = ptNull from null),
      Nat.mod_add_mod, Nat.mod_add_mod, Nat.mod_add_mod] at run
    obtain ⟨filesz, read, run⟩ := bind_eq_ok.mp run
    obtain ⟨within, rfl⟩ := comes.read_eq 16 (by omega) read
    obtain ⟨offset, read, run⟩ := bind_eq_ok.mp run
    obtain ⟨-, rfl⟩ := comes.read_eq 4 (by omega) read
    obtain ⟨vaddr, read, run⟩ := bind_eq_ok.mp run
    obtain ⟨-, rfl⟩ := comes.read_eq 8 (by omega) read
    obtain ⟨_, copy, -⟩ := bind_eq_ok.mp run
    obtain ⟨source, target⟩ := memCpy_mapped (Bytes.read32_lt _ _) (Nat.mod_lt _ (by decide)) copy
    exact ⟨by omega, fun _ => source, fun _ => target⟩

end Comes

/-- The loop copies the headers it comes to, up to the first `PT_NULL` or the last turn. -/
theorem eachSegment_eq (accessible : ∀ k, Reached mem k → Accessible mem k) :
    ∀ turns k, k + turns = loopTurns (phnum mem - 1) → (0 < turns → Comes mem k) →
      (∀ j < k, Copied mem j) →
      ∃ n, eachSegment (placed mem k) ((kernelBaseAddr + phdrOffset mem k) % 2 ^ 32)
          (read16 mem (kernelBaseAddr + 42)) turns = .ok (placed mem n) ∧
        ∀ j, j < n ↔ Copied mem j := by
  intro turns
  induction turns with
  | zero =>
      intro k total _ copied
      refine ⟨k, rfl, fun j => ⟨copied j, ?_⟩⟩
      rintro ⟨⟨lt, -⟩, -⟩
      omega
  | succ turns ih =>
      intro k total comes copied
      have comes := comes (Nat.succ_pos turns)
      have here := accessible k comes.reached
      by_cases null : (phdr mem k).type = ptNull
      · refine ⟨k, comes.turn_null here null turns, fun j => ⟨copied j, ?_⟩⟩
        rintro ⟨⟨-, before⟩, different⟩
        obtain lt | rfl | behind := Nat.lt_trichotomy j k
        · exact lt
        · exact absurd null different
        · exact absurd null (before k behind)
      · rw [comes.turn_copy here null]
        apply ih (k + 1) (by omega) fun more => comes.succ here null (by omega)
        intro j lt
        obtain rfl | earlier := Nat.eq_or_lt_of_le (Nat.le_of_lt_succ lt)
        · exact ⟨comes.reached, null⟩
        · exact copied j earlier

/-- A loop that ends without a fault has found everything mapped. -/
theorem eachSegment_accessible {mem' : Bytes} :
    ∀ turns k, k + turns = loopTurns (phnum mem - 1) → (0 < turns → Comes mem k) →
      eachSegment (placed mem k) ((kernelBaseAddr + phdrOffset mem k) % 2 ^ 32)
        (read16 mem (kernelBaseAddr + 42)) turns = .ok mem' →
      ∀ j, k ≤ j → Reached mem j → Accessible mem j := by
  intro turns
  induction turns with
  | zero =>
      rintro k total - - j le ⟨lt, -⟩
      omega
  | succ turns ih =>
      intro k total comes run j le reached
      have comes := comes (Nat.succ_pos turns)
      have here := comes.accessible run
      obtain rfl | behind := Nat.eq_or_lt_of_le le
      · exact here
      · have other := reached.2 k behind
        rw [comes.turn_copy here other] at run
        exact ih (k + 1) (by omega) (fun more => comes.succ here other (by omega)) run j behind
          reached

/-- The loop begins with the first header. -/
theorem ElfImage.comes (image : ElfImage mem size) (keeps : Keeps mem) : Comes mem 0 where
  keeps := keeps
  reached := by
    refine ⟨?_, nofun⟩
    unfold loopTurns
    split <;> omega
  near := by
    have low := image.low
    have table := image.table
    have first := phdrOffset_le mem (Nat.zero_le (phnum mem))
    omega

theorem ElfImage.kernelInit_eq (image : ElfImage mem size) :
    kernelInit mem = eachSegment (placed mem 0) ((kernelBaseAddr + phdrOffset mem 0) % 2 ^ 32)
      (read16 mem (kernelBaseAddr + 42)) (loopTurns (phnum mem - 1)) := by
  have some := image.some
  have turns : (read16 mem (kernelBaseAddr + 44) + 2 ^ 16 - 1) % 2 ^ 16 = phnum mem - 1 := by
    have lt := read16_lt mem (kernelBaseAddr + 44)
    unfold phnum at *
    omega
  rw [kernelInit, turns, Nat.add_comm (mem.read32 _)]
  rfl

/-- The headers that are copied are the first ones, and memory is as they leave it. -/
theorem kernelInit_placed (image : ElfImage mem size) (keeps : Keeps mem)
    (accessible : ∀ k, Reached mem k → Accessible mem k) :
    ∃ n, kernelInit mem = .ok (placed mem n) ∧ ∀ j, j < n ↔ Copied mem j := by
  rw [image.kernelInit_eq]
  exact eachSegment_eq accessible _ 0 (Nat.zero_add _) (fun _ => image.comes keeps) nofun

theorem placed_segment (image : ElfImage mem size) {n i : Nat} (lt : k < phnum mem)
    (loadable : (phdr mem k).Loadable) (inside : i < (phdr mem k).memsz) :
    loadByte (placed mem n) ((phdr mem k).vaddr + i) =
      .ok (placed mem n ((phdr mem k).addr + i)) := by
  rw [loadByte, (image.lands k lt loadable).lowAddr_eq inside]
  rfl

/-- With two headers or more the loop stays in the table, where loadable segments and headers
without file bytes do no harm. -/
theorem ElfImage.keeps_of_plain (image : ElfImage mem size) (two : 2 ≤ phnum mem)
    (plain : ∀ k < phnum mem, (phdr mem k).Loadable ∨ (phdr mem k).type = ptNull ∨
      (phdr mem k).filesz = 0) :
    Keeps mem ∧ ∀ k, Reached mem k → Accessible mem k := by
  have low := image.low
  have before {k : Nat} (reached : Reached mem k) : k + 1 < phnum mem := by
    have lt := reached.1
    rw [loopTurns, if_neg (by omega)] at lt
    omega
  have header {k : Nat} (reached : Reached mem k) : phdrOffset mem k + 32 ≤ size := by
    have entry := image.entry
    calc phdrOffset mem k + 32 ≤ phdrOffset mem k + read16 mem (kernelBaseAddr + 42) := by omega
      _ = phdrOffset mem (k + 1) := (phdrOffset_succ mem k).symm
      _ ≤ phdrOffset mem (phnum mem) := phdrOffset_le mem (Nat.le_of_lt (before reached))
      _ ≤ size := image.table
  have bytes (k : Nat) : phdrBytes mem k ≤ 20 := by
    unfold phdrBytes
    split <;> omega
  have loadable {k : Nat} (copied : Copied mem k) (some : 0 < (phdr mem k).filesz) :
      (phdr mem k).Loadable := by
    obtain loadable | null | none := plain k (Nat.lt_of_succ_lt (before copied.1))
    · exact loadable
    · exact absurd null copied.2
    · omega
  -- a copy with bytes lies where a loadable segment may be
  have lands {k : Nat} (copied : Copied mem k) (some : 0 < (phdr mem k).filesz) :
      Mapped (phdr mem k).vaddr (phdr mem k).filesz ∧
        (phdr mem k).Misses loaderStack loaderEnd ∧
        ∀ lower upper, kernelBaseAddr ≤ lower → upper ≤ kernelBaseAddr + size →
          (phdr mem k).Misses lower upper := by
    have lt := Nat.lt_of_succ_lt (before copied.1)
    have room := image.room k lt (loadable copied some)
    obtain none | ⟨mapped, loader, apart⟩ := image.lands k lt (loadable copied some)
    · omega
    · unfold Mapped Phdr.Misses
      refine ⟨by omega, by omega, fun lower upper above below => by omega⟩
  -- and takes them from the image
  have source {k : Nat} (copied : Copied mem k) (some : 0 < (phdr mem k).filesz) :
      kernelBaseAddr ≤ (phdr mem k).fileAddr ∧
        (phdr mem k).fileAddr + (phdr mem k).filesz ≤ kernelBaseAddr + size ∧
        (phdr mem k).fileVaddr = (phdr mem k).fileAddr := by
    have inside := image.source k (Nat.lt_of_succ_lt (before copied.1)) (loadable copied some)
    unfold Phdr.fileAddr Phdr.fileVaddr
    omega
  have misses {k : Nat} (copied : Copied mem k) {lower upper : Nat}
      (range : (phdr mem k).filesz ≠ 0 → (phdr mem k).Misses lower upper) :
      (phdr mem k).Misses lower upper := by
    obtain none | some := Nat.eq_zero_or_pos (phdr mem k).filesz
    · exact .inl none
    · exact range (Nat.ne_of_gt some)
  have earlier {j k : Nat} (reached : Reached mem k) (lt : j < k) : Copied mem j :=
    ⟨⟨Nat.lt_trans lt reached.1, fun l less => reached.2 l (Nat.lt_trans less lt)⟩, reached.2 j lt⟩
  refine ⟨⟨?_, ?_, ?_, ?_⟩, ?_⟩
  · intro k copied
    exact misses copied fun some => (lands copied (Nat.pos_of_ne_zero some)).2.1
  · intro k reached j lt
    have copied := earlier reached lt
    have inside := header reached
    have short := bytes k
    exact misses copied fun some =>
      (lands copied (Nat.pos_of_ne_zero some)).2.2 _ _ (by omega) (by omega)
  · intro k copied some j lt
    have copied' := earlier copied.1 lt
    obtain ⟨above, below, -⟩ := source copied some
    exact misses copied' fun some =>
      (lands copied' (Nat.pos_of_ne_zero some)).2.2 _ _ above below
  · intro k copied
    obtain none | some := Nat.eq_zero_or_pos (phdr mem k).filesz
    · omega
    · obtain ⟨above, below, -⟩ := source copied some
      obtain none | apart | apart := (lands copied some).2.2 _ _ above below
      all_goals omega
  · intro k reached
    have inside := header reached
    have short := bytes k
    refine ⟨by omega, fun type => ?_, fun type => ?_⟩
    · obtain none | some := Nat.eq_zero_or_pos (phdr mem k).filesz
      · exact .inl none
      · obtain ⟨above, below, same⟩ := source ⟨reached, type⟩ some
        exact .inr (.inl (by omega))
    · obtain none | some := Nat.eq_zero_or_pos (phdr mem k).filesz
      · exact .inl none
      · exact (lands ⟨reached, type⟩ some).1

/-- A segment that is copied by its own header alone is supplied. -/
theorem ElfImage.placed_file (image : ElfImage mem size) (two : 2 ≤ phnum mem)
    (plain : ∀ k < phnum mem, (phdr mem k).Loadable ∨ (phdr mem k).type = ptNull ∨
      (phdr mem k).filesz = 0) {n i : Nat} (copied : ∀ j, j < n ↔ Copied mem j)
    (lt : k < phnum mem) (loadable : (phdr mem k).Loadable) (here : Copied mem k)
    (within : i < (phdr mem k).filesz) :
    placed mem n ((phdr mem k).addr + i) = mem (kernelBaseAddr + (phdr mem k).offset + i) := by
  have covers : Covers mem k ((phdr mem k).addr + i) := ⟨Nat.le_add_right _ _, by omega⟩
  rw [placed_of_covered ((copied k).mpr here) covers]
  · have low := image.low
    have inside := image.source k lt loadable
    refine congrArg mem ?_
    unfold Phdr.fileAddr Phdr.fileVaddr
    omega
  · rintro j after before ⟨start, stop⟩
    have copies := (copied j).mp before
    have bound : j < phnum mem := by
      have turns := copies.1.1
      rw [loopTurns, if_neg (by omega)] at turns
      omega
    have room := image.room k lt loadable
    obtain loadable' | null | none := plain j bound
    · have room' := image.room j bound loadable'
      have apart := image.apart j bound k after loadable loadable'
      omega
    · exact copies.2 null
    · omega

/-- Where the loop overwrites nothing that it still needs, the segments are loaded if and only if
everything it comes to is mapped and the last copy to each byte of a segment is the right one. -/
theorem kernelInit_loads (image : ElfImage mem size) : LoadsWhen mem ↔ Keeps mem ∧ Loads mem := by
  constructor
  · rintro ⟨keeps, accessible, supplied⟩
    obtain ⟨n, run, copied⟩ := kernelInit_placed image keeps accessible
    refine ⟨keeps, placed mem n, run, fun k lt loadable i inside => ?_⟩
    rw [placed_segment image lt loadable inside]
    exact congrArg Except.ok ((supplies_iff copied).mp (supplied k lt loadable i inside))
  · rintro ⟨keeps, mem', run, loaded⟩
    have accessible : ∀ k, Reached mem k → Accessible mem k := by
      intro k reached
      rw [image.kernelInit_eq] at run
      exact eachSegment_accessible _ 0 (Nat.zero_add _) (fun _ => image.comes keeps) run k
        (Nat.zero_le k) reached
    obtain ⟨n, run', copied⟩ := kernelInit_placed image keeps accessible
    obtain rfl := Except.ok.inj (run'.symm.trans run)
    refine ⟨keeps, accessible, fun k lt loadable i inside => (supplies_iff copied).mpr ?_⟩
    have byte := loaded k lt loadable i inside
    rw [placed_segment image lt loadable inside] at byte
    exact Except.ok.inj byte

end Loop

/-- A file of a header and a program header table, that segments take their bytes from. -/
def imageOf (phdrs : List Phdr) : Bytes :=
  let mem : Bytes := fun _ => 0
  let mem := mem.write32 (kernelBaseAddr + 28) 52
  let mem := mem.write32 (kernelBaseAddr + 42) (32 + 2 ^ 16 * phdrs.length)
  phdrs.zipIdx.foldl (fun mem (ph, k) =>
    let addr := kernelBaseAddr + 52 + 32 * k
    let mem := mem.write32 addr ph.type
    let mem := mem.write32 (addr + 4) ph.offset
    let mem := mem.write32 (addr + 8) ph.vaddr
    let mem := mem.write32 (addr + 16) ph.filesz
    mem.write32 (addr + 20) ph.memsz) mem

/-- A loadable segment, a `PT_NOTE` of one byte and a `PT_GNU_STACK` header. -/
def textAndNote : Bytes :=
  imageOf [⟨1, 0, 0xc0001500, 52, 52⟩, ⟨4, 0, 0, 1, 1⟩, ⟨0x6474e551, 0, 0, 0, 0⟩]

/-- Two loadable segments. -/
def textAndData : Bytes :=
  imageOf [⟨1, 0, 0xc0001500, 52, 52⟩, ⟨1, 28, 0xc0002000, 1, 1⟩]

theorem elfImage_textAndNote : ElfImage textAndNote 148 := by
  constructor <;> decide +kernel

theorem elfImage_textAndData : ElfImage textAndData 116 := by
  constructor <;> decide +kernel

/-- The first two of the three headers are copied. -/
theorem copied_textAndNote {k : Nat} : Reached textAndNote k ↔ k < 2 := by
  have turns : loopTurns (phnum textAndNote - 1) = 2 := by decide +kernel
  have types : ∀ j < 2, (phdr textAndNote j).type ≠ ptNull := by decide +kernel
  rw [Reached, turns]
  exact ⟨And.left, fun lt => ⟨lt, fun j less => types j (by omega)⟩⟩

/-- The note goes elsewhere, the last header is no loadable segment, and nothing is to be filled
with zeros. -/
theorem loads_textAndNote : Loads textAndNote := by
  have types : ∀ k < 2, (phdr textAndNote k).type ≠ ptNull := by decide +kernel
  have copied {k : Nat} (copies : Copied textAndNote k) : k < 2 := copied_textAndNote.mp copies.1
  have keeps : Keeps textAndNote := by
    constructor
    case loader =>
      have all : ∀ k < 2, (phdr textAndNote k).Misses loaderStack loaderEnd := by decide +kernel
      exact fun k copies => all k (copied copies)
    case headers =>
      have all : ∀ k < 2, ∀ j < k, (phdr textAndNote j).Misses
          (kernelBaseAddr + phdrOffset textAndNote k)
          (kernelBaseAddr + phdrOffset textAndNote k + phdrBytes textAndNote k) := by
        decide +kernel
      exact fun k reached => all k (copied_textAndNote.mp reached)
    case ahead =>
      have all : ∀ k < 2, ∀ j < k, (phdr textAndNote j).Misses (phdr textAndNote k).fileAddr
          ((phdr textAndNote k).fileAddr + (phdr textAndNote k).filesz) := by
        decide +kernel
      exact fun k copies _ => all k (copied copies)
    case itself =>
      have all : ∀ k < 2, (phdr textAndNote k).addr ≤ (phdr textAndNote k).fileAddr ∨
          (phdr textAndNote k).fileAddr + (phdr textAndNote k).filesz ≤
            (phdr textAndNote k).addr := by
        decide +kernel
      exact fun k copies => all k (copied copies)
  have accessible : ∀ k, Reached textAndNote k → Accessible textAndNote k := by
    have header : ∀ k < 2, kernelBaseAddr + phdrOffset textAndNote k + phdrBytes textAndNote k ≤
        0x100000 := by decide +kernel
    have mapped : ∀ k < 2, Mapped (phdr textAndNote k).fileVaddr (phdr textAndNote k).filesz ∧
        Mapped (phdr textAndNote k).vaddr (phdr textAndNote k).filesz := by decide +kernel
    intro k reached
    have lt := copied_textAndNote.mp reached
    exact ⟨header k lt, fun _ => (mapped k lt).1, fun _ => (mapped k lt).2⟩
  refine ((kernelInit_loads elfImage_textAndNote).mp ⟨keeps, accessible, ?_⟩).2
  intro k lt loadable i inside
  have num : phnum textAndNote = 3 := by decide +kernel
  have others : ∀ j < 3, (phdr textAndNote j).Loadable → j = 0 := by decide +kernel
  have note : phdr textAndNote 1 = ⟨4, 0, 0, 1, 1⟩ := by decide +kernel
  have text : phdr textAndNote 0 = ⟨1, 0, 0xc0001500, 52, 52⟩ := by decide +kernel
  obtain rfl := others k (by omega) loadable
  rw [text] at inside
  refine .inl ⟨0, ⟨copied_textAndNote.mpr (by decide), types 0 (by decide)⟩, ?_, ?_, ?_⟩
  · rw [Covers, text]
    exact ⟨Nat.le_add_right _ _, Nat.add_lt_add_left inside _⟩
  · intro j after copies covers
    obtain rfl : j = 1 := Nat.le_antisymm (Nat.le_of_lt_succ (copied copies)) after
    rw [Covers, note, text] at covers
    exact absurd (Nat.lt_of_le_of_lt (Nat.le_add_right _ _) covers.2) (by decide)
  · rw [text, Nat.add_sub_cancel_left, Phdr.byte_of_lt _ inside]
    rfl

/-- The second of two segments is not loaded. -/
theorem not_loads_textAndData : ElfImage textAndData 116 ∧ ¬Loads textAndData := by
  refine ⟨elfImage_textAndData, ?_⟩
  rintro ⟨mem', run, loaded⟩
  have byte := loaded 1 (by decide +kernel) (by decide +kernel) 0 (by decide +kernel)
  have left : (kernelInit textAndData).toOption.map (fun mem => mem 0x2000) = some 0 := by
    decide +kernel
  have segment : (phdr textAndData 1).byte textAndData 0 = 52 := by decide +kernel
  have mapped : lowAddr ((phdr textAndData 1).vaddr + 0) = .ok 0x2000 := by rfl
  rw [segment, loadByte, bind_ok mapped] at byte
  rw [run] at left
  have there : mem' 0x2000 = 0 := Option.some.inj left
  have wanted : mem' 0x2000 = 52 := Except.ok.inj byte
  rw [there] at wanted
  exact absurd wanted (by decide)

end Pumelo
