import Mathlib.Order.Bounds.Basic
import Pumelo.HeapCalls

/-!
# How much memory the loader finds

The loader collects the E820 map of the BIOS and takes the highest end of a range.  It looks
at no type, and compares with a signed jump.
-/

namespace Pumelo

open Foundation

/-- `TOTAL_MEM_BYTES` -/
def totalMemBytes : Nat := 0xd00

/-- `ARDS_BUF`, behind `GDT_DESC`. -/
def ardsBuf : Nat := 0xd46

/-- A range of the E820 map. -/
structure AddressRange where
  base : Nat
  length : Nat
  type : Nat
  deriving DecidableEq, Repr

/-- What `int $0x15` stores: two words for the base, two for the length, and the type. -/
def storeArds (mem : Bytes) (di : Nat) (range : AddressRange) : Bytes :=
  let mem := mem.write32 di range.base
  let mem := mem.write32 (di + 4) (range.base / 2 ^ 32)
  let mem := mem.write32 (di + 8) range.length
  let mem := mem.write32 (di + 12) (range.length / 2 ^ 32)
  mem.write32 (di + 16) range.type

/-- `e820_mem_get_loop`, where each call of the BIOS gives the next range. -/
def e820MemGetLoop (mem : Bytes) (di ardsNum : Nat) : List AddressRange → Bytes × Nat
  | [] => (mem, ardsNum)
  | range :: rest =>
      e820MemGetLoop (storeArds mem di range) ((di + 20) % 2 ^ 16) ((ardsNum + 1) % 2 ^ 16) rest

/-- A word as signed jumps take it. -/
def signedWord (word : Nat) : Int := if word < 2 ^ 31 then word else (word : Int) - 2 ^ 32

/-- `find_max_mem_area`; the register is 0 only behind the last turn. -/
def findMaxMemArea (mem : Bytes) (ebx edx : Nat) : (cx : Nat) → Nat
  | 0 => edx
  | cx + 1 =>
      let eax := (mem.read32 ebx + mem.read32 (ebx + 8)) % 2 ^ 32
      findMaxMemArea mem (ebx + 20) (if signedWord edx ≥ signedWord eax then edx else eax) cx

/-- The loader up to `mem_get_ok`. `loop` with 0 in the register takes 65536 turns. -/
def detectMemory (mem : Bytes) (map : List AddressRange) : Bytes :=
  let (mem, ardsNum) := e820MemGetLoop mem ardsBuf 0 map
  let edx := findMaxMemArea mem ardsBuf 0 (if ardsNum = 0 then 2 ^ 16 else ardsNum)
  mem.write32 totalMemBytes edx

/-- The end of a range. -/
def AddressRange.stop (range : AddressRange) : Nat := range.base + range.length

/-- The ends of usable memory. -/
def usableEnds (map : List AddressRange) : Set Nat :=
  { stop | ∃ range ∈ map, range.type = 1 ∧ stop = range.stop }

/-- The loader finds the highest end of usable memory, and the pools lie below it. -/
structure Detects (mem : Bytes) (map : List AddressRange) : Prop where
  highest : IsGreatest (usableEnds map) ((detectMemory mem map).read32 totalMemBytes)
  frames : ∀ (m : Machine) pf index,
    index < (memInit m ((detectMemory mem map).read32 totalMemBytes)).frameCount pf →
    ∃ stop ∈ usableEnds map,
      (memInit m ((detectMemory mem map).read32 totalMemBytes)).frameAddr pf index + 4096 ≤ stop

/-- Usable memory ends at 2 MB or above, everywhere below 2 GB, and no other range that ends
below 2 GB ends above it. -/
structure PlainMap (map : List AddressRange) : Prop where
  enough : ∃ range ∈ map, range.type = 1 ∧ 0x200000 ≤ range.stop
  below : ∀ range ∈ map, range.type = 1 → range.stop < 2 ^ 31
  others : ∀ range ∈ map, range.type ≠ 1 → range.stop < 2 ^ 31 →
    ∃ usable ∈ map, usable.type = 1 ∧ range.stop ≤ usable.stop

section

variable {mem : Bytes} {map : List AddressRange} {di ardsNum ebx edx cx : Nat}

theorem storeArds_of_outside (mem : Bytes) (range : AddressRange) {query : Nat}
    (outside : query < di ∨ di + 20 ≤ query) : storeArds mem di range query = mem query := by
  simp only [storeArds]
  rw [Bytes.write32_of_outside _ _ (by omega), Bytes.write32_of_outside _ _ (by omega),
    Bytes.write32_of_outside _ _ (by omega), Bytes.write32_of_outside _ _ (by omega),
    Bytes.write32_of_outside _ _ (by omega)]

/-- The words that the second loop reads. -/
theorem storeArds_words (mem : Bytes) (di : Nat) (range : AddressRange) :
    (storeArds mem di range).read32 di = range.base % 2 ^ 32 ∧
      (storeArds mem di range).read32 (di + 8) = range.length % 2 ^ 32 := by
  simp only [storeArds]
  constructor
  · rw [Bytes.read32_write32_of_disjoint _ _ (by omega),
      Bytes.read32_write32_of_disjoint _ _ (by omega),
      Bytes.read32_write32_of_disjoint _ _ (by omega),
      Bytes.read32_write32_of_disjoint _ _ (by omega), Bytes.read32_write32_mod]
  · rw [Bytes.read32_write32_of_disjoint _ _ (by omega),
      Bytes.read32_write32_of_disjoint _ _ (by omega), Bytes.read32_write32_mod]

/-- The first loop stores one range behind the other. -/
theorem e820MemGetLoop_spec (fits : di + 20 * map.length < 2 ^ 16)
    (counts : ardsNum + map.length < 2 ^ 16) :
    (e820MemGetLoop mem di ardsNum map).2 = ardsNum + map.length ∧
      (∀ query, query < di → (e820MemGetLoop mem di ardsNum map).1 query = mem query) ∧
      ∀ index (inside : index < map.length),
        (e820MemGetLoop mem di ardsNum map).1.read32 (di + 20 * index) =
            map[index].base % 2 ^ 32 ∧
          (e820MemGetLoop mem di ardsNum map).1.read32 (di + 20 * index + 8) =
            map[index].length % 2 ^ 32 := by
  induction map generalizing mem di ardsNum with
  | nil => exact ⟨rfl, fun _ _ => rfl, fun _ inside => absurd inside (Nat.not_lt_zero _)⟩
  | cons range rest ih =>
      rw [List.length_cons] at fits counts
      have diEq : (di + 20) % 2 ^ 16 = di + 20 := Nat.mod_eq_of_lt (by omega)
      have numEq : (ardsNum + 1) % 2 ^ 16 = ardsNum + 1 := Nat.mod_eq_of_lt (by omega)
      obtain ⟨num, low, words⟩ := @ih (storeArds mem di range) (di + 20) (ardsNum + 1)
        (by omega) (by omega)
      rw [e820MemGetLoop, diEq, numEq]
      refine ⟨?_, ?_, ?_⟩
      · rw [num, List.length_cons]
        omega
      · intro query below
        rw [low query (by omega), storeArds_of_outside _ _ (.inl below)]
      · intro index inside
        cases index with
        | zero =>
            obtain ⟨base, length⟩ := storeArds_words mem di range
            constructor
            · rw [List.getElem_cons_zero, ← base]
              exact Bytes.read32_congr fun query _ upper => low query (by omega)
            · rw [List.getElem_cons_zero, ← length]
              exact Bytes.read32_congr fun query _ upper => low query (by omega)
        | succ index =>
            have here := words index (by simpa using inside)
            have at' : di + 20 * (index + 1) = di + 20 + 20 * index := by omega
            rw [at']
            exact here

/-- The end that the second loop computes for a descriptor. -/
def endAt (mem : Bytes) (ebx index : Nat) : Nat :=
  (mem.read32 (ebx + 20 * index) + mem.read32 (ebx + 20 * index + 8)) % 2 ^ 32

/-- The second loop takes the highest of the ends below 2 GB. -/
theorem findMaxMemArea_spec (small : edx < 2 ^ 31) :
    findMaxMemArea mem ebx edx cx < 2 ^ 31 ∧ edx ≤ findMaxMemArea mem ebx edx cx ∧
      (∀ index, index < cx → endAt mem ebx index < 2 ^ 31 →
        endAt mem ebx index ≤ findMaxMemArea mem ebx edx cx) ∧
      (findMaxMemArea mem ebx edx cx = edx ∨
        ∃ index, index < cx ∧ findMaxMemArea mem ebx edx cx = endAt mem ebx index) := by
  induction cx generalizing ebx edx with
  | zero => exact ⟨small, Nat.le_refl _, fun _ inside => absurd inside (Nat.not_lt_zero _),
      .inl rfl⟩
  | succ cx ih =>
      have first : (mem.read32 ebx + mem.read32 (ebx + 8)) % 2 ^ 32 = endAt mem ebx 0 := rfl
      have later : ∀ index, endAt mem (ebx + 20) index = endAt mem ebx (index + 1) := by
        intro index
        have at' : ebx + 20 + 20 * index = ebx + 20 * (index + 1) := by omega
        rw [endAt, at', endAt]
      rw [findMaxMemArea, first]
      generalize next : (if signedWord edx ≥ signedWord (endAt mem ebx 0) then edx
        else endAt mem ebx 0) = edx'
      -- of two ends, a negative one is never taken
      have taken : edx' < 2 ^ 31 ∧ edx ≤ edx' ∧
          (endAt mem ebx 0 < 2 ^ 31 → endAt mem ebx 0 ≤ edx') ∧
          (edx' = edx ∨ edx' = endAt mem ebx 0) := by
        have bound : endAt mem ebx 0 < 2 ^ 32 := Nat.mod_lt _ (by decide)
        rw [signedWord, signedWord, if_pos small] at next
        split at next
        · split at next <;> omega
        · split at next <;> omega
      obtain ⟨lt, le, upper, from'⟩ := ih taken.1
      refine ⟨lt, Nat.le_trans taken.2.1 le, ?_, ?_⟩
      · intro index inside below
        cases index with
        | zero => exact Nat.le_trans (taken.2.2.1 below) le
        | succ index =>
            rw [← later] at below ⊢
            exact upper index (by omega) below
      · rcases from' with same | ⟨index, inside, same⟩
        · rcases taken.2.2.2 with old | new
          · exact .inl (same.trans old)
          · exact .inr ⟨0, Nat.succ_pos cx, same.trans new⟩
        · exact .inr ⟨index + 1, by omega, same.trans (later index)⟩

/-- What the loader stores: the highest end below 2 GB of any range, as 32 bits hold it. -/
theorem detectMemory_spec (positive : 1 ≤ map.length) (few : map.length ≤ 20) :
    (detectMemory mem map).read32 totalMemBytes < 2 ^ 31 ∧
      (∀ range ∈ map, range.stop % 2 ^ 32 < 2 ^ 31 →
        range.stop % 2 ^ 32 ≤ (detectMemory mem map).read32 totalMemBytes) ∧
      ((detectMemory mem map).read32 totalMemBytes = 0 ∨
        ∃ range ∈ map, (detectMemory mem map).read32 totalMemBytes = range.stop % 2 ^ 32) := by
  obtain ⟨num, -, words⟩ := @e820MemGetLoop_spec mem map ardsBuf 0
    (by simp only [ardsBuf]; omega) (by omega)
  have stops : ∀ index (inside : index < map.length),
      endAt (e820MemGetLoop mem ardsBuf 0 map).1 ardsBuf index = map[index].stop % 2 ^ 32 := by
    intro index inside
    obtain ⟨base, length⟩ := words index inside
    rw [endAt, base, length, AddressRange.stop]
    omega
  have spec := @findMaxMemArea_spec (e820MemGetLoop mem ardsBuf 0 map).1 ardsBuf 0 map.length
    (by decide)
  rw [Nat.zero_add] at num
  have value : (detectMemory mem map).read32 totalMemBytes =
      findMaxMemArea (e820MemGetLoop mem ardsBuf 0 map).1 ardsBuf 0 map.length := by
    simp only [detectMemory, num]
    rw [if_neg (by omega), Bytes.read32_write32_self _ (by omega)]
  rw [value]
  obtain ⟨lt, -, upper, from'⟩ := spec
  refine ⟨lt, ?_, ?_⟩
  · intro range member below
    obtain ⟨index, inside, rfl⟩ := List.mem_iff_getElem.mp member
    rw [← stops index inside] at below ⊢
    exact upper index inside below
  · rcases from' with zero | ⟨index, inside, same⟩
    · exact .inl zero
    · exact .inr ⟨map[index], List.getElem_mem inside, same.trans (stops index inside)⟩

end

section

variable {m : Machine} {allMem index : Nat} {pf : PoolFlags}

/-- `mem_init` lays the pools out as `mem_pool_init` does. -/
theorem memInit_frames (m : Machine) (allMem : Nat) (pf : PoolFlags) (index : Nat) :
    (memInit m allMem).frameCount pf = (memPoolInit m allMem).frameCount pf ∧
      (memInit m allMem).frameAddr pf index = (memPoolInit m allMem).frameAddr pf index := by
  have pool : (memInit m allMem).pool = (memPoolInit m allMem).pool := by
    obtain ⟨mem, start, -⟩ := memInit_spec m allMem
    rw [start]
  constructor
  · rw [Machine.frameCount, pool, Machine.frameCount]
  · rw [Machine.frameAddr, pool, Machine.frameAddr]

/-- The frames lie in the memory that the pools were made of. -/
theorem memInit_frame_below (lower : 0x200000 ≤ allMem) (upper : allMem < 2 ^ 32)
    (inside : index < (memInit m allMem).frameCount pf) :
    (memInit m allMem).frameAddr pf index + 4096 ≤ allMem := by
  obtain ⟨count, addr⟩ := memInit_frames m allMem pf index
  rw [count] at inside
  rw [addr]
  have laid := memPoolInit_laid m lower upper
  obtain ⟨-, -, -, fits, -⟩ := laid.frameAddr_spec inside
  cases pf with
  | kernel =>
      rw [laid.kernelStart, laid.kernelSize] at fits
      omega
  | user =>
      rw [laid.userStart, laid.userSize] at fits
      omega

/-- With less than 2 MB the count of free bytes wraps, and the first frame is at 2 MB. -/
theorem memInit_wraps (m : Machine) (small : allMem < 0x200000) :
    0 < (memInit m allMem).frameCount .kernel ∧
      (memInit m allMem).frameAddr .kernel 0 = 0x200000 := by
  obtain ⟨count, addr⟩ := memInit_frames m allMem .kernel 0
  rw [count, addr]
  constructor
  · simp only [memPoolInit, installLayout, poolLayout, Machine.frameCount, pageSize]
    omega
  · rfl

end

/-- The loader finds the end of usable memory exactly on the plain maps. -/
theorem detects_iff (mem : Bytes) {map : List AddressRange} (positive : 1 ≤ map.length)
    (few : map.length ≤ 20) (fits : ∀ range ∈ map, range.stop ≤ 2 ^ 32) :
    Detects mem map ↔ PlainMap map := by
  obtain ⟨lt, upper, from'⟩ := @detectMemory_spec mem map positive few
  constructor
  · rintro ⟨highest, frames⟩
    generalize (detectMemory mem map).read32 totalMemBytes = value at *
    obtain ⟨⟨top, member, usable, same⟩, bound⟩ := highest
    refine ⟨⟨top, member, usable, ?_⟩, ?_, ?_⟩
    · by_contra short
      obtain ⟨has, first⟩ := memInit_wraps Machine.blank (show value < 0x200000 by omega)
      obtain ⟨stop, isEnd, above⟩ := frames Machine.blank .kernel 0 has
      have le := bound isEnd
      omega
    · intro range member' usable'
      have le := bound ⟨range, member', usable', rfl⟩
      omega
    · intro range member' _ below
      have le := upper range member' (by omega)
      exact ⟨top, member, usable, by omega⟩
  · rintro ⟨⟨top, member, usable, enough⟩, below, others⟩
    have highest : IsGreatest (usableEnds map)
        ((detectMemory mem map).read32 totalMemBytes) := by
      generalize (detectMemory mem map).read32 totalMemBytes = value at *
      have topBelow := below top member usable
      have topLe := upper top member (by omega)
      constructor
      · rcases from' with zero | ⟨range, member', same⟩
        · omega
        · by_cases usable' : range.type = 1
          · have rangeBelow := below range member' usable'
            exact ⟨range, member', usable', by omega⟩
          · have rangeLe := fits range member'
            obtain ⟨above, member'', usable'', le⟩ := others range member' usable' (by omega)
            have aboveBelow := below above member'' usable''
            have aboveLe := upper above member'' (by omega)
            exact ⟨above, member'', usable'', by omega⟩
      · rintro stop ⟨range, member', usable', rfl⟩
        have rangeBelow := below range member' usable'
        have rangeLe := upper range member' (by omega)
        omega
    refine ⟨highest, fun m pf index inside => ?_⟩
    have enough' : 0x200000 ≤ (detectMemory mem map).read32 totalMemBytes :=
      Nat.le_trans enough (highest.2 ⟨top, member, usable, rfl⟩)
    exact ⟨_, highest.1, memInit_frame_below enough' (by omega) inside⟩

/-- Memory from 1 MB on, below the ranges that hold the BIOS. -/
def plainMap : List AddressRange :=
  [⟨0, 0x9fc00, 1⟩, ⟨0x9fc00, 0x400, 2⟩, ⟨0x100000, 0x1f00000, 1⟩, ⟨0xfffc0000, 0x40000, 2⟩]

theorem detects_plainMap : Detects (fun _ => 0) plainMap := by
  apply (detects_iff _ (by decide) (by decide) (by decide)).mpr
  exact ⟨by decide, by decide, by decide⟩

/-- A reserved range above 16 MB of memory. -/
theorem not_detects_reserved :
    ¬Detects (fun _ => 0) [⟨0x100000, 0xf00000, 1⟩, ⟨0x7f000000, 0x100000, 2⟩] := by
  rintro ⟨⟨⟨range, member, usable, same⟩, -⟩, -⟩
  obtain ⟨-, upper, -⟩ := @detectMemory_spec (fun _ => 0)
    [⟨0x100000, 0xf00000, 1⟩, ⟨0x7f000000, 0x100000, 2⟩] (by decide) (by decide)
  have reserved := upper ⟨0x7f000000, 0x100000, 2⟩ (by decide) (by decide)
  rw [same] at reserved
  rcases List.mem_cons.mp member with rfl | member
  · exact absurd reserved (by decide)
  · rw [List.mem_singleton.mp member] at usable
    exact absurd usable (by decide)

end Pumelo
