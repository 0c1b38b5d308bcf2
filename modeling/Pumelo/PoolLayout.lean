import Mathlib.Data.Finset.Card
import Mathlib.Data.Finset.Image
import Pumelo.Pool

/-!
# Where `mem_pool_init` puts the pools

The count of free pages passes through 16 bits.  That keeps the bitmaps below the main
thread's page, and it drops every multiple of 65536 pages.
-/

namespace Pumelo

/-- `all_free_pages`, in 16 bits. -/
def allFreePages (allMem : Nat) : Nat :=
  (allMem + 2 ^ 32 - (pageSize * 256 + 0x100000)) % 2 ^ 32 / pageSize % 2 ^ 16

/-- The products that `mem_pool_init` computes. -/
def poolProducts (allMem : Nat) : List Nat :=
  [pageSize * 256, allFreePages allMem / 2 * pageSize,
    (allFreePages allMem - allFreePages allMem / 2) * pageSize]

/-- The layout in numbers without bounds. -/
def exactLayout (pages : Nat) : PoolLayout where
  kernelPool := ⟨⟨pages / 2 / 8, memBitmapBase⟩, 0x200000, pages / 2 * pageSize, lockInit⟩
  userPool := ⟨⟨(pages - pages / 2) / 8, memBitmapBase + pages / 2 / 8⟩,
    0x200000 + pages / 2 * pageSize, (pages - pages / 2) * pageSize, lockInit⟩
  kernelVaddr := ⟨⟨pages / 2 / 8, memBitmapBase + pages / 2 / 8 + (pages - pages / 2) / 8⟩,
    kernelHeapStart⟩

/-- The bitmaps in the order of their addresses. -/
def Machine.bitmaps (m : Machine) : List Bitmap :=
  [(m.pool .kernel).poolBitmap, (m.pool .user).poolBitmap, m.kernelVaddr.vaddrBitmap]

/-- The pools lie apart in free memory, and their bitmaps below the main thread's page. -/
structure PoolsApart (allMem : Nat) (m : Machine) : Prop where
  inside : ∀ pf, 0x200000 ≤ (m.pool pf).paddrStart ∧
    (m.pool pf).paddrStart + (m.pool pf).poolSize ≤ allMem
  disjoint : (m.pool .kernel).paddrStart + (m.pool .kernel).poolSize ≤ (m.pool .user).paddrStart
  bits : ∀ pf, m.frameCount pf ≤ (m.pool pf).poolSize / pageSize
  base : ∀ btmp ∈ m.bitmaps, 0xc009a000 ≤ btmp.bitmapBits
  bitmaps : m.bitmaps.Pairwise fun btmp next => btmp.bitmapBits + btmp.bitmapLen ≤ next.bitmapBits
  below : ∀ btmp ∈ m.bitmaps, btmp.bitmapBits + btmp.bitmapLen ≤ 0xc009e000

/-- No product is cut off, and neither is anything made of them. -/
structure NoWrap (allMem : Nat) : Prop where
  products : ∀ product ∈ poolProducts allMem, product < 2 ^ 32
  layout : poolLayout allMem = exactLayout (allFreePages allMem)

theorem allFreePages_lt (allMem : Nat) : allFreePages allMem < 2 ^ 16 := Nat.mod_lt _ (by decide)

theorem noWrap (allMem : Nat) : NoWrap allMem := by
  have pagesLt := allFreePages_lt allMem
  constructor
  · intro product member
    simp only [poolProducts, pageSize, List.mem_cons, List.not_mem_nil, or_false] at member
    omega
  · rw [allFreePages] at pagesLt
    simp only [poolLayout, exactLayout, allFreePages]
    generalize (allMem + 2 ^ 32 - (pageSize * 256 + 0x100000)) % 2 ^ 32 / pageSize % 2 ^ 16 = pages
      at pagesLt ⊢
    have userPages : (pages + 2 ^ 16 - pages / 2) % 2 ^ 16 = pages - pages / 2 := by omega
    have kernelSize : pages / 2 * pageSize % 2 ^ 32 = pages / 2 * pageSize := by
      simp only [pageSize]
      omega
    have userSize : (pages - pages / 2) * pageSize % 2 ^ 32 = (pages - pages / 2) * pageSize := by
      simp only [pageSize]
      omega
    have userStart : (0x200000 + pages / 2 * pageSize) % 2 ^ 32 =
        0x200000 + pages / 2 * pageSize := by
      simp only [pageSize]
      omega
    have usedMem : pageSize * 256 + 0x100000 = 0x200000 := by decide
    rw [userPages, usedMem, kernelSize, userSize, userStart]

/-- After `mem_pool_init` with at least 2 MB of memory. -/
theorem memPoolInit_apart (m : Machine) {allMem : Nat} (lower : 0x200000 ≤ allMem)
    (upper : allMem < 2 ^ 32) : PoolsApart allMem (memPoolInit m allMem) ∧ NoWrap allMem := by
  refine ⟨?_, noWrap allMem⟩
  have laid := memPoolInit_laid m lower upper
  have pagesLe : (allMem - 0x200000) / 4096 % 2 ^ 16 ≤ (allMem - 0x200000) / 4096 :=
    Nat.mod_le _ _
  generalize memPoolInit m allMem = m at laid ⊢
  generalize (allMem - 0x200000) / 4096 % 2 ^ 16 = pages at laid pagesLe
  have kernelLe := laid.kernelPages_le
  have userLe := laid.userPages_le
  have bitmaps : m.bitmaps = [⟨pages / 2 / 8, 0xc009a000⟩,
      ⟨(pages - pages / 2) / 8, 0xc009a000 + pages / 2 / 8⟩,
      ⟨pages / 2 / 8, 0xc009a000 + pages / 2 / 8 + (pages - pages / 2) / 8⟩] := by
    rw [Machine.bitmaps, laid.kernelBitmap, laid.userBitmap, laid.vaddr]
  constructor
  · intro pf
    cases pf with
    | kernel =>
        rw [laid.kernelStart, laid.kernelSize]
        omega
    | user =>
        rw [laid.userStart, laid.userSize]
        omega
  · rw [laid.kernelStart, laid.kernelSize, laid.userStart]
  · intro pf
    cases pf with
    | kernel =>
        rw [laid.frameCount_kernel, laid.kernelSize, pageSize]
        omega
    | user =>
        rw [laid.frameCount_user, laid.userSize, pageSize]
        omega
  · rw [bitmaps]
    simp only [List.forall_mem_cons, List.not_mem_nil, false_implies, implies_true, and_true]
    omega
  · rw [bitmaps]
    simp only [List.pairwise_cons, List.forall_mem_cons, List.not_mem_nil, false_implies,
      implies_true, List.Pairwise.nil, and_true]
    omega
  · rw [bitmaps]
    simp only [List.forall_mem_cons, List.not_mem_nil, false_implies, implies_true, and_true]
    omega

/-- With 32 MB. -/
theorem memPoolInit_apart_32 : PoolsApart 0x2000000 (memPoolInit Machine.blank 0x2000000) ∧
    NoWrap 0x2000000 :=
  memPoolInit_apart Machine.blank (by decide) (by decide)

/-- The whole pages of free memory. -/
def wholePages (allMem : Nat) : Finset Nat :=
  (Finset.range ((allMem - 0x200000) / pageSize)).image fun page => 0x200000 + pageSize * page

/-- The pages that have bits in a pool's bitmap. -/
def Machine.framesOf (m : Machine) (pf : PoolFlags) : Finset Nat :=
  (Finset.range (m.frameCount pf)).image (m.frameAddr pf)

/-- The pools cover all free pages but those lost when each bitmap is rounded down to bytes. -/
structure CoversMemory (allMem : Nat) (m : Machine) : Prop where
  few : (wholePages allMem \ (m.framesOf .kernel ∪ m.framesOf .user)).card ≤ 14
  rounding : ∀ pf, (m.pool pf).poolSize / pageSize < m.frameCount pf + 8

section

variable {m : Machine} {kernelPages userPages allMem : Nat}

theorem card_wholePages (allMem : Nat) :
    (wholePages allMem).card = (allMem - 0x200000) / 4096 := by
  rw [wholePages, Finset.card_image_of_injective, Finset.card_range, pageSize]
  intro page other equal
  simp only [pageSize] at equal
  omega

theorem Machine.card_framesOf (m : Machine) (pf : PoolFlags) :
    (m.framesOf pf).card = m.frameCount pf := by
  rw [Machine.framesOf, Finset.card_image_of_injective, Finset.card_range]
  intro index other equal
  simp only [Machine.frameAddr] at equal
  omega

/-- No frame is in both pools. -/
theorem Laid.framesOf_disjoint (laid : Laid m kernelPages userPages) :
    Disjoint (m.framesOf .kernel) (m.framesOf .user) := by
  rw [Finset.disjoint_left]
  intro frame kernel user
  obtain ⟨index, inside, rfl⟩ := Finset.mem_image.mp kernel
  obtain ⟨other, inside', equal⟩ := Finset.mem_image.mp user
  have same := laid.frameAddr_inj (Finset.mem_range.mp inside') (Finset.mem_range.mp inside) equal
  cases same.1

theorem Laid.framesOf_subset (laid : Laid m kernelPages userPages)
    (fits : kernelPages + userPages ≤ (allMem - 0x200000) / 4096) (pf : PoolFlags) :
    m.framesOf pf ⊆ wholePages allMem := by
  intro frame member
  obtain ⟨index, inside, rfl⟩ := Finset.mem_image.mp member
  rw [Finset.mem_range] at inside
  apply Finset.mem_image.mpr
  cases pf with
  | kernel =>
      rw [laid.frameCount_kernel] at inside
      refine ⟨index, Finset.mem_range.mpr ?_, ?_⟩
      · simp only [pageSize]
        omega
      · simp only [pageSize, Machine.frameAddr, laid.kernelStart]
  | user =>
      rw [laid.frameCount_user] at inside
      refine ⟨kernelPages + index, Finset.mem_range.mpr ?_, ?_⟩
      · simp only [pageSize]
        omega
      · simp only [pageSize, Machine.frameAddr, laid.userStart]
        omega

/-- The pages without a bit. -/
theorem Laid.card_uncovered (laid : Laid m kernelPages userPages)
    (fits : kernelPages + userPages ≤ (allMem - 0x200000) / 4096) :
    (wholePages allMem \ (m.framesOf .kernel ∪ m.framesOf .user)).card =
      (allMem - 0x200000) / 4096 - (8 * (kernelPages / 8) + 8 * (userPages / 8)) := by
  have subset := Finset.union_subset (laid.framesOf_subset fits .kernel)
    (laid.framesOf_subset fits .user)
  rw [Finset.card_sdiff_of_subset subset, card_wholePages,
    Finset.card_union_of_disjoint laid.framesOf_disjoint, Machine.card_framesOf,
    Machine.card_framesOf, laid.frameCount_kernel, laid.frameCount_user]

theorem Laid.rounding (laid : Laid m kernelPages userPages) (pf : PoolFlags) :
    (m.pool pf).poolSize / pageSize < m.frameCount pf + 8 := by
  cases pf with
  | kernel =>
      rw [laid.frameCount_kernel, laid.kernelSize, pageSize]
      omega
  | user =>
      rw [laid.frameCount_user, laid.userSize, pageSize]
      omega

end

/-- All memory is covered exactly when it has fewer than 65536 free pages. -/
theorem memPoolInit_covers (m : Machine) {allMem : Nat} (lower : 0x200000 ≤ allMem)
    (upper : allMem < 2 ^ 32) :
    CoversMemory allMem (memPoolInit m allMem) ↔ allMem < 0x10200000 := by
  have laid := memPoolInit_laid m lower upper
  have card := laid.card_uncovered (show _ ≤ (allMem - 0x200000) / 4096 by omega)
  constructor
  · rintro ⟨few, -⟩
    rw [card] at few
    omega
  · intro small
    refine ⟨?_, laid.rounding⟩
    rw [card]
    omega

/-- With 32 MB. -/
theorem memPoolInit_covers_32 : CoversMemory 0x2000000 (memPoolInit Machine.blank 0x2000000) :=
  (memPoolInit_covers Machine.blank (by decide) (by decide)).mpr (by decide)

/-- With 258 MB there is no page in either pool. -/
theorem not_memPoolInit_covers :
    ¬CoversMemory 0x10200000 (memPoolInit Machine.blank 0x10200000) := by
  have laid := memPoolInit_laid Machine.blank (show 0x200000 ≤ 0x10200000 by decide) (by decide)
  rintro ⟨few, -⟩
  rw [laid.card_uncovered (by decide)] at few
  exact absurd few (by decide)

end Pumelo
