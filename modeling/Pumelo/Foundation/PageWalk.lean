import Mathlib.Data.Nat.Bitwise
import Mathlib.Tactic.Common

/-!
# The two-level x86 page walk

32-bit paging without large pages: a page directory and page tables of 1024
words each, held in physical memory.  Bit 0 of an entry is its present bit and
bits 12 to 31 name a frame.  The walk reads two words, and the lemmas say which
words these are, what a recursively mapped directory entry makes visible, and
which walks a write to one word can change.
-/

namespace Foundation

/-- Physical memory, one 32-bit word for every 4-aligned address. -/
abbrev Words := Nat → Nat

namespace Words

/-- Replace the word at one address. -/
def write (ram : Words) (addr word : Nat) : Words :=
  fun query => if query = addr then word else ram query

@[simp] theorem write_self (ram : Words) (addr word : Nat) :
    ram.write addr word addr = word :=
  if_pos rfl

/-- Write zero to the first `count` of the words that `target` enumerates. -/
def clearAt (ram : Words) (target : Nat → Nat) : (count : Nat) → Words
  | 0 => ram
  | count + 1 => (clearAt ram target count).write (target count) 0

/-- Set the 1024 words of a frame to zero. -/
def clearFrame (ram : Words) (frame : Nat) : Words :=
  ram.clearAt (fun index => frame + 4 * index) 1024

theorem write_of_ne (ram : Words) {addr query : Nat} (word : Nat) (different : query ≠ addr) :
    ram.write addr word query = ram query :=
  if_neg different

theorem clearAt_of_ne (ram : Words) {target : Nat → Nat} {count query : Nat}
    (different : ∀ index, index < count → query ≠ target index) :
    ram.clearAt target count query = ram query := by
  induction count with
  | zero => rfl
  | succ count ih =>
      rw [clearAt, write_of_ne _ _ (different count (Nat.lt_succ_self count))]
      exact ih fun index indexLt => different index (Nat.lt_succ_of_lt indexLt)

theorem clearAt_target (ram : Words) (target : Nat → Nat) {count index : Nat}
    (indexLt : index < count) : ram.clearAt target count (target index) = 0 := by
  induction count with
  | zero => exact absurd indexLt (Nat.not_lt_zero index)
  | succ count ih =>
      rw [clearAt]
      by_cases same : target index = target count
      · rw [same, write_self]
      · have earlier : index ≠ count := fun equal => same (by rw [equal])
        rw [write_of_ne _ _ same]
        exact ih (by omega)

theorem write_comm (ram : Words) {addr other : Nat} (word word' : Nat) (different : addr ≠ other) :
    (ram.write addr word).write other word' = (ram.write other word').write addr word := by
  funext query
  simp only [write]
  split
  · next same => rw [if_neg (fun equal => different (equal.symm.trans same))]
  · rfl

/-- Clearing elsewhere may come first. -/
theorem clearAt_write (ram : Words) {target : Nat → Nat} {count addr : Nat} (word : Nat)
    (different : ∀ index < count, addr ≠ target index) :
    (ram.write addr word).clearAt target count = (ram.clearAt target count).write addr word := by
  induction count with
  | zero => rfl
  | succ count ih =>
      rw [clearAt, clearAt, ih fun index lt => different index (Nat.lt_succ_of_lt lt),
        write_comm _ _ _ (different count (Nat.lt_succ_self count))]

theorem clearFrame_write (ram : Words) {frame addr : Nat} (word : Nat)
    (outside : addr < frame ∨ frame + 4096 ≤ addr) :
    (ram.write addr word).clearFrame frame = (ram.clearFrame frame).write addr word :=
  clearAt_write ram word fun index lt => by omega

theorem clearFrame_slot (ram : Words) (frame : Nat) {index : Nat} (indexLt : index < 1024) :
    ram.clearFrame frame (frame + 4 * index) = 0 :=
  clearAt_target ram (fun index => frame + 4 * index) indexLt

theorem clearFrame_outside (ram : Words) {frame query : Nat}
    (outside : query < frame ∨ frame + 4096 ≤ query) : ram.clearFrame frame query = ram query :=
  clearAt_of_ne ram fun index indexLt => by omega

end Words

namespace PageWalk

/-- Index of the directory entry that translates an address. -/
def dirIndex (vaddr : Nat) : Nat := vaddr / 2 ^ 22

/-- Index of the page-table entry that translates an address. -/
def tableIndex (vaddr : Nat) : Nat := vaddr / 2 ^ 12 % 2 ^ 10

/-- Offset of an address in its page. -/
def pageOffset (vaddr : Nat) : Nat := vaddr % 2 ^ 12

/-- The frame an entry names. -/
def frameOf (entry : Nat) : Nat := entry / 2 ^ 12 % 2 ^ 20 * 2 ^ 12

/-- The present bit of an entry. -/
def Present (entry : Nat) : Prop := entry % 2 = 1

instance (entry : Nat) : Decidable (Present entry) := inferInstanceAs (Decidable (_ = _))

/-- The address of the directory entry for `vaddr`; only the frame of `cr3` counts. -/
def pdeSlot (cr3 vaddr : Nat) : Nat := frameOf cr3 + 4 * dirIndex vaddr

/-- The address of the page-table entry for `vaddr`, when its table is present. -/
def pteSlot (ram : Words) (cr3 vaddr : Nat) : Option Nat :=
  let pde := ram (pdeSlot cr3 vaddr)
  if Present pde then some (frameOf pde + 4 * tableIndex vaddr) else none

/-- The physical address `vaddr` is mapped to, or `none` when not present. -/
def walk (ram : Words) (cr3 vaddr : Nat) : Option Nat :=
  (pteSlot ram cr3 vaddr).bind fun slot =>
    if Present (ram slot) then some (frameOf (ram slot) + pageOffset vaddr) else none

theorem and_one_eq (entry : Nat) : entry &&& 1 = entry % 2 := Nat.and_one_is_mod entry

theorem present_iff {entry : Nat} : Present entry ↔ entry &&& 1 ≠ 0 := by
  rw [and_one_eq, Present]
  omega

/-- Masking `width` bits from bit `shift` on. -/
theorem and_mask_shiftLeft (word shift width : Nat) :
    word &&& (2 ^ width - 1) <<< shift = word / 2 ^ shift % 2 ^ width * 2 ^ shift := by
  apply Nat.eq_of_testBit_eq
  intro index
  rw [Nat.testBit_and, ← Nat.shiftLeft_eq, Nat.testBit_shiftLeft, Nat.testBit_shiftLeft,
    Nat.testBit_two_pow_sub_one, Nat.testBit_mod_two_pow, ← Nat.shiftRight_eq_div_pow,
    Nat.testBit_shiftRight]
  by_cases low : shift ≤ index
  · rw [show shift + (index - shift) = index by omega]
    simp [low, Bool.and_comm]
  · simp [low]

/-- Masking the low twelve bits off a word leaves its frame. -/
theorem and_frame_mask (entry : Nat) : entry &&& 0xfffff000 = frameOf entry :=
  and_mask_shiftLeft entry 12 20

theorem frameOf_mod (entry : Nat) : frameOf entry % 2 ^ 12 = 0 := Nat.mul_mod_left _ _

theorem frameOf_lt (entry : Nat) : frameOf entry < 2 ^ 32 := by
  have bound := Nat.mod_lt (entry / 2 ^ 12) (by decide : 0 < 2 ^ 20)
  simp only [frameOf]
  omega

/-- An aligned frame with flags added names that frame. -/
theorem frameOf_add {frame flags : Nat} (aligned : frame % 2 ^ 12 = 0) (fits : frame < 2 ^ 32)
    (small : flags < 2 ^ 12) : frameOf (frame + flags) = frame := by
  simp only [frameOf]
  omega

/-- Disjoint bits are added by `|`. -/
theorem or_flags {frame flags : Nat} (aligned : frame % 2 ^ 12 = 0) (small : flags < 2 ^ 12) :
    frame ||| flags = frame + flags := by
  have split : frame = 2 ^ 12 * (frame / 2 ^ 12) := by omega
  rw [split, Nat.two_pow_add_eq_or_of_lt small]

/-! ## Walks and memory writes -/

theorem tableIndex_lt (vaddr : Nat) : tableIndex vaddr < 1024 := Nat.mod_lt _ (by decide)

theorem dirIndex_lt {vaddr : Nat} (fits : vaddr < 2 ^ 32) : dirIndex vaddr < 1024 := by
  simp only [dirIndex]
  omega

theorem walk_eq_none_of_pde {ram : Words} {cr3 vaddr : Nat}
    (absent : ¬Present (ram (pdeSlot cr3 vaddr))) : walk ram cr3 vaddr = none := by
  simp [walk, pteSlot, absent]

theorem walk_of_pde {ram : Words} {cr3 vaddr : Nat} (present : Present (ram (pdeSlot cr3 vaddr))) :
    walk ram cr3 vaddr =
      let pte := ram (frameOf (ram (pdeSlot cr3 vaddr)) + 4 * tableIndex vaddr)
      if Present pte then some (frameOf pte + pageOffset vaddr) else none := by
  simp [walk, pteSlot, present]

/-- Addresses of one page have one slot. -/
theorem pteSlot_of_page (ram : Words) (cr3 : Nat) {query vaddr : Nat}
    (samePage : query / 2 ^ 12 = vaddr / 2 ^ 12) :
    pteSlot ram cr3 query = pteSlot ram cr3 vaddr := by
  have pdeEq : pdeSlot cr3 query = pdeSlot cr3 vaddr := by
    simp only [pdeSlot, dirIndex]
    omega
  have tableEq : tableIndex query = tableIndex vaddr := by simp only [tableIndex, samePage]
  simp only [pteSlot, pdeEq, tableEq]

/-- A walk depends on its two words only. -/
theorem walk_congr {ram other : Words} {cr3 vaddr : Nat}
    (pdeEq : other (pdeSlot cr3 vaddr) = ram (pdeSlot cr3 vaddr))
    (pteEq : ∀ slot, pteSlot ram cr3 vaddr = some slot → other slot = ram slot) :
    walk other cr3 vaddr = walk ram cr3 vaddr := by
  have slotEq : pteSlot other cr3 vaddr = pteSlot ram cr3 vaddr := by
    simp only [pteSlot, pdeEq]
  simp only [walk, slotEq]
  cases found : pteSlot ram cr3 vaddr with
  | none => rfl
  | some slot => simp only [Option.bind_some, pteEq slot found]

/-- Frame and index of a slot are determined by its address. -/
theorem slot_inj {frame frame' index index' : Nat} (aligned : frame % 2 ^ 12 = 0)
    (aligned' : frame' % 2 ^ 12 = 0) (small : index < 1024) (small' : index' < 1024)
    (equal : frame + 4 * index = frame' + 4 * index') : frame = frame' ∧ index = index' := by
  omega

/-- Storing a present entry in the slot of one page maps that page and its
aliases, when the table is not the directory itself. -/
theorem walk_write_slot {ram : Words} {cr3 vaddr slot entry : Nat}
    (slotEq : pteSlot ram cr3 vaddr = some slot)
    (table : frameOf (ram (pdeSlot cr3 vaddr)) ≠ frameOf cr3) (present : Present entry)
    {query : Nat} (queryLt : query < 2 ^ 32) :
    pteSlot (ram.write slot entry) cr3 query = pteSlot ram cr3 query ∧
      walk (ram.write slot entry) cr3 query =
        if pteSlot ram cr3 query = some slot then some (frameOf entry + pageOffset query)
        else walk ram cr3 query := by
  simp only [pteSlot] at slotEq
  split at slotEq
  · obtain rfl := Option.some.inj slotEq
    -- The slot lies in another frame than the directory, whose words are kept.
    have pdeKept : (ram.write (frameOf (ram (pdeSlot cr3 vaddr)) + 4 * tableIndex vaddr) entry)
        (pdeSlot cr3 query) = ram (pdeSlot cr3 query) := by
      refine Words.write_of_ne _ _ fun equal => table ?_
      exact (slot_inj (frameOf_mod _) (frameOf_mod _) (dirIndex_lt queryLt)
        (tableIndex_lt vaddr) equal).1.symm
    have slotKept : pteSlot (ram.write (frameOf (ram (pdeSlot cr3 vaddr)) + 4 * tableIndex vaddr)
        entry) cr3 query = pteSlot ram cr3 query := by
      simp only [pteSlot, pdeKept]
    refine ⟨slotKept, ?_⟩
    simp only [walk, slotKept]
    cases found : pteSlot ram cr3 query with
    | none => simp
    | some other =>
        by_cases same : other = frameOf (ram (pdeSlot cr3 vaddr)) + 4 * tableIndex vaddr
        · simp [same, present]
        · simp [same, Words.write_of_ne _ entry same]
  · cases slotEq

/-- Installing a cleared table in an absent directory entry, with one present
entry in it, maps the page of that entry and no other. -/
theorem walk_new_table {ram : Words} {cr3 vaddr frame flags entry : Nat}
    (absent : ¬Present (ram (pdeSlot cr3 vaddr))) (vaddrLt : vaddr < 2 ^ 32)
    (aligned : frame % 2 ^ 12 = 0) (fits : frame < 2 ^ 32) (flagsLt : flags < 2 ^ 12)
    (flagsPresent : Present flags) (notDir : frame ≠ frameOf cr3)
    (unused : ∀ index, index < 1024 → Present (ram (frameOf cr3 + 4 * index)) →
      frameOf (ram (frameOf cr3 + 4 * index)) ≠ frame)
    (present : Present entry) {query : Nat} (queryLt : query < 2 ^ 32)
    (queryTable : Present (ram (pdeSlot cr3 query)) →
      frameOf (ram (pdeSlot cr3 query)) ≠ frameOf cr3) :
    walk ((((ram.write (pdeSlot cr3 vaddr) (frame + flags)).clearFrame frame).write
        (frame + 4 * tableIndex vaddr) entry)) cr3 query =
      if query / 2 ^ 12 = vaddr / 2 ^ 12 then some (frameOf entry + pageOffset query)
      else walk ram cr3 query := by
  have dirLt := dirIndex_lt queryLt
  have dirLt' := dirIndex_lt vaddrLt
  have tableLt := tableIndex_lt query
  have tableLt' := tableIndex_lt vaddr
  have dirAligned := frameOf_mod cr3
  -- Words outside the new table other than the directory entry are kept.
  have kept : ∀ other index, other % 2 ^ 12 = 0 → index < 1024 → other ≠ frame →
      other + 4 * index ≠ pdeSlot cr3 vaddr →
      (((ram.write (pdeSlot cr3 vaddr) (frame + flags)).clearFrame frame).write
        (frame + 4 * tableIndex vaddr) entry) (other + 4 * index) = ram (other + 4 * index) := by
    intro other index otherAligned indexLt different notPde
    rw [Words.write_of_ne _ _ (by omega), Words.clearFrame_outside _ (by omega),
      Words.write_of_ne _ _ notPde]
  by_cases sameDir : dirIndex query = dirIndex vaddr
  · have samePde : pdeSlot cr3 query = pdeSlot cr3 vaddr := by simp only [pdeSlot, sameDir]
    have pdeNew : (((ram.write (pdeSlot cr3 vaddr) (frame + flags)).clearFrame frame).write
        (frame + 4 * tableIndex vaddr) entry) (pdeSlot cr3 query) = frame + flags := by
      rw [samePde, Words.write_of_ne _ _ (by simp only [pdeSlot]; omega),
        Words.clearFrame_outside _ (by simp only [pdeSlot]; omega), Words.write_self]
    have pdePresent : Present (frame + flags) := by
      simp only [Present] at flagsPresent ⊢
      omega
    rw [walk_of_pde (by rw [pdeNew]; exact pdePresent), pdeNew, frameOf_add aligned fits flagsLt]
    by_cases sameTable : tableIndex query = tableIndex vaddr
    · have samePage : query / 2 ^ 12 = vaddr / 2 ^ 12 := by
        simp only [dirIndex, tableIndex] at sameDir sameTable
        omega
      simp only [sameTable, Words.write_self, present, if_true, samePage]
    · have otherPage : query / 2 ^ 12 ≠ vaddr / 2 ^ 12 := by
        intro equal
        exact sameTable (by simp only [tableIndex, equal])
      rw [if_neg otherPage, walk_eq_none_of_pde (by rw [samePde]; exact absent)]
      simp only [Words.write_of_ne _ entry (show frame + 4 * tableIndex query ≠
        frame + 4 * tableIndex vaddr by omega),
        Words.clearFrame_slot _ _ tableLt]
      rfl
  · have otherPage : query / 2 ^ 12 ≠ vaddr / 2 ^ 12 := by
      intro equal
      simp only [dirIndex] at sameDir
      omega
    rw [if_neg otherPage]
    apply walk_congr
    · exact kept _ _ dirAligned dirLt notDir.symm (by simp only [pdeSlot]; omega)
    · intro slot slotEq
      simp only [pteSlot] at slotEq
      split at slotEq
      · next pdePresent =>
          obtain rfl := Option.some.inj slotEq
          refine kept _ _ (frameOf_mod _) tableLt (unused _ dirLt pdePresent) fun equal => ?_
          exact queryTable pdePresent
            (slot_inj (frameOf_mod _) dirAligned tableLt dirLt' equal).1
      · cases slotEq

-- When entry 1023 of a directory names the directory, the topmost 4 MB of the
-- address space show the page tables, and the topmost page the directory.

section SelfMap

variable {ram : Words} {cr3 : Nat}

/-- Entry 1023 of the directory is present and names the directory itself. -/
def SelfMapped (ram : Words) (cr3 : Nat) : Prop :=
  Present (ram (frameOf cr3 + 4 * 1023)) ∧ frameOf (ram (frameOf cr3 + 4 * 1023)) = frameOf cr3

instance (ram : Words) (cr3 : Nat) : Decidable (SelfMapped ram cr3) :=
  inferInstanceAs (Decidable (_ ∧ _))

/-- The topmost page shows the directory. -/
theorem walk_dir_window (mapped : SelfMapped ram cr3) {index : Nat} (small : index < 1024) :
    walk ram cr3 (0xfffff000 + 4 * index) = some (frameOf cr3 + 4 * index) := by
  have dir : dirIndex (0xfffff000 + 4 * index) = 1023 := by simp only [dirIndex]; omega
  have table : tableIndex (0xfffff000 + 4 * index) = 1023 := by simp only [tableIndex]; omega
  have offset : pageOffset (0xfffff000 + 4 * index) = 4 * index := by
    simp only [pageOffset]; omega
  rw [walk_of_pde (by rw [pdeSlot, dir]; exact mapped.1), pdeSlot, dir, table, offset, mapped.2]
  simp only [mapped.1, mapped.2, if_true]

/-- Page `page` of the window shows the table that entry `page` names. -/
theorem walk_table_window (mapped : SelfMapped ram cr3) {page index : Nat} (pageLt : page < 1024)
    (small : index < 1024) :
    walk ram cr3 (0xffc00000 + 4096 * page + 4 * index) =
      let pde := ram (frameOf cr3 + 4 * page)
      if Present pde then some (frameOf pde + 4 * index) else none := by
  have dir : dirIndex (0xffc00000 + 4096 * page + 4 * index) = 1023 := by
    simp only [dirIndex]; omega
  have table : tableIndex (0xffc00000 + 4096 * page + 4 * index) = page := by
    simp only [tableIndex]; omega
  have offset : pageOffset (0xffc00000 + 4096 * page + 4 * index) = 4 * index := by
    simp only [pageOffset]; omega
  rw [walk_of_pde (by rw [pdeSlot, dir]; exact mapped.1), pdeSlot, dir, table, offset, mapped.2]

end SelfMap

end PageWalk

end Foundation
