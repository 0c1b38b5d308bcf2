import Mathlib.Data.List.Perm.Subperm
import Pumelo.Heap

/-!
# The shape of the heap

What the descriptors, the arena headers and the free lists look like in memory
between two calls, and how each of the three ways to change a free list keeps
that: taking a block, putting one back, and adding or releasing a whole arena.
-/

namespace Pumelo

open Foundation PageWalk

/-- Block size of a size class. -/
def classSize (cls : Nat) : Nat := 16 * 2 ^ cls

/-- Blocks in an arena of a size class. -/
def classCount (cls : Nat) : Nat := 4084 / classSize cls

/-- Block number `idx` of an arena. -/
def blockAt (page cls idx : Nat) : Nat := page + 12 + idx * classSize cls

/-- The address is a block of this arena. -/
def IsBlock (page cls b : Nat) : Prop := ∃ idx, idx < classCount cls ∧ b = blockAt page cls idx

/-- All blocks of an arena. -/
def blocksOf (page cls : Nat) : List Nat := (List.range (classCount cls)).map (blockAt page cls)

theorem classSize_ge (cls : Nat) : 16 ≤ classSize cls := by
  have pos := Nat.two_pow_pos cls
  rw [classSize]
  omega

theorem classSize_le {cls : Nat} (small : cls < 7) : classSize cls ≤ 1024 := by
  have bound : 2 ^ cls ≤ 2 ^ 6 := Nat.pow_le_pow_right (by decide) (by omega)
  rw [classSize]
  omega

theorem classCount_mul_le (cls : Nat) : classCount cls * classSize cls ≤ 4084 :=
  Nat.div_mul_le_self 4084 (classSize cls)

theorem classCount_pos {cls : Nat} (small : cls < 7) : 0 < classCount cls :=
  Nat.div_pos (by have := classSize_le small; omega) (by have := classSize_ge cls; omega)

theorem classCount_le (cls : Nat) : classCount cls ≤ 255 := by
  have size := classSize_ge cls
  have bound : classCount cls * 16 ≤ classCount cls * classSize cls := Nat.mul_le_mul_left _ size
  have := classCount_mul_le cls
  omega

/-- Blocks lie behind the header and inside the page. -/
theorem IsBlock.bounds {page cls b : Nat} (block : IsBlock page cls b) :
    page + 12 ≤ b ∧ b + classSize cls ≤ page + 4096 := by
  obtain ⟨idx, idxLt, rfl⟩ := block
  have fits : (idx + 1) * classSize cls ≤ classCount cls * classSize cls :=
    Nat.mul_le_mul_right _ idxLt
  have total := classCount_mul_le cls
  rw [Nat.succ_mul] at fits
  rw [blockAt]
  omega

theorem blockAt_apart {page cls idx other : Nat} (different : idx ≠ other) :
    Apart (classSize cls) (blockAt page cls idx) (blockAt page cls other) := by
  unfold Apart
  rw [blockAt, blockAt]
  rcases Nat.lt_or_gt_of_ne different with less | more
  · have step : (idx + 1) * classSize cls ≤ other * classSize cls := Nat.mul_le_mul_right _ less
    rw [Nat.succ_mul] at step
    omega
  · have step : (other + 1) * classSize cls ≤ idx * classSize cls := Nat.mul_le_mul_right _ more
    rw [Nat.succ_mul] at step
    omega

theorem IsBlock.apart {page cls b b' : Nat} (block : IsBlock page cls b)
    (block' : IsBlock page cls b') (different : b ≠ b') : Apart (classSize cls) b b' := by
  obtain ⟨idx, -, rfl⟩ := block
  obtain ⟨idx', -, rfl⟩ := block'
  exact blockAt_apart fun equal => different (by rw [equal])

theorem blockAt_inj {page cls idx other : Nat}
    (equal : blockAt page cls idx = blockAt page cls other) : idx = other := by
  by_contra different
  have apart : Apart (classSize cls) (blockAt page cls idx) (blockAt page cls other) :=
    blockAt_apart different
  have size := classSize_ge cls
  exact apart.ne (by omega) equal

/-- `block_to_arena` finds the page of a block. -/
theorem IsBlock.blockToArena {page cls b : Nat} (block : IsBlock page cls b)
    (aligned : page % 4096 = 0) (pageLt : page < 2 ^ 32) : blockToArena b = page := by
  obtain ⟨lower, upper⟩ := block.bounds
  have size := classSize_ge cls
  rw [Pumelo.blockToArena, and_frame_mask]
  simp only [frameOf]
  omega

/-- The arenas, as pages with their classes, and the free list of each class. -/
structure Heap where
  arenas : List (Nat × Nat)
  free : Nat → List Nat

/-- Free blocks of one arena. -/
def Heap.freeIn (heap : Heap) (page cls : Nat) : Nat :=
  (heap.free cls).countP fun b => blockToArena b = page

/-- Descriptors, free lists and arena headers as the heap describes them. -/
structure HeapShape (kBlockDescs : Nat) (mem : Bytes) (heap : Heap) : Prop where
  blockSize : ∀ cls, cls < 7 → blockSizeOf mem (descAddr kBlockDescs cls) = classSize cls
  perArena : ∀ cls, cls < 7 → blockPerArenaOf mem (descAddr kBlockDescs cls) = classCount cls
  lists : ∀ cls, cls < 7 → ListAt mem (freeListOf (descAddr kBlockDescs cls)) (heap.free cls)
  nodup : (heap.arenas.map Prod.fst).Nodup
  placed : ∀ page cls, (page, cls) ∈ heap.arenas → cls < 7 ∧ page % 4096 = 0 ∧ page < 2 ^ 32 ∧
    (page + 4096 ≤ kBlockDescs ∨ kBlockDescs + 168 ≤ page)
  header : ∀ page cls, (page, cls) ∈ heap.arenas →
    arenaDesc mem page = descAddr kBlockDescs cls ∧ arenaLarge mem page = 0
  count : ∀ page cls, (page, cls) ∈ heap.arenas → arenaCnt mem page = heap.freeIn page cls
  blocks : ∀ cls, cls < 7 → ∀ b ∈ heap.free cls,
    ∃ page, (page, cls) ∈ heap.arenas ∧ IsBlock page cls b

/-- Replace the free list of one class. -/
def Heap.setFree (heap : Heap) (cls : Nat) (blocks : List Nat) : Heap :=
  { heap with free := fun query => if query = cls then blocks else heap.free query }

namespace HeapShape

variable {kBlockDescs : Nat} {mem mem' : Bytes} {heap : Heap} {page cls b : Nat}

/-- A page is an arena of one class only. -/
theorem class_unique (shape : HeapShape kBlockDescs mem heap) {cls' : Nat}
    (arena : (page, cls) ∈ heap.arenas) (arena' : (page, cls') ∈ heap.arenas) : cls = cls' := by
  have equal := List.inj_on_of_nodup_map shape.nodup arena arena' rfl
  exact congrArg Prod.snd equal

/-- Pages of different arenas do not overlap. -/
theorem pages_apart (shape : HeapShape kBlockDescs mem heap) {page' cls' : Nat}
    (arena : (page, cls) ∈ heap.arenas) (arena' : (page', cls') ∈ heap.arenas)
    (different : page ≠ page') : page + 4096 ≤ page' ∨ page' + 4096 ≤ page := by
  have aligned := (shape.placed page cls arena).2.1
  have aligned' := (shape.placed page' cls' arena').2.1
  omega

/-- Where an entry of a free list lies: in its descriptor or in an arena of its
class. -/
theorem node_cases (shape : HeapShape kBlockDescs mem heap) (small : cls < 7) {node : Nat}
    (member : node ∈ listNodes (freeListOf (descAddr kBlockDescs cls)) (heap.free cls)) :
    (node = kBlockDescs + 24 * cls + 8 ∨ node = kBlockDescs + 24 * cls + 16) ∨
      node ∈ heap.free cls ∧ ∃ page, (page, cls) ∈ heap.arenas ∧
        page + 12 ≤ node ∧ node + 16 ≤ page + 4096 := by
  rcases mem_listNodes.mp member with rfl | free | rfl
  · exact .inl (.inl (by simp [freeListOf, descAddr]))
  · obtain ⟨page, arena, block⟩ := shape.blocks cls small node free
    have bounds := block.bounds
    have size := classSize_ge cls
    exact .inr ⟨free, page, arena, by omega, by omega⟩
  · exact .inl (.inr (by simp [freeListOf, descAddr, tailer]))

/-- The heap keeps its shape when memory changes in one class only: in its list,
in its free blocks, and in one page that belongs to no arena of another class. -/
theorem update (shape : HeapShape kBlockDescs mem heap) (small : cls < 7) {heap' : Heap}
    (pageAligned : page % 4096 = 0) (pageLt : page < 2 ^ 32)
    (pagePlaced : page + 4096 ≤ kBlockDescs ∨ kBlockDescs + 168 ≤ page)
    (ofClass : ∀ other, (page, other) ∈ heap.arenas → other = cls)
    (agree : ∀ query,
      (query < kBlockDescs + 24 * cls + 8 ∨ kBlockDescs + 24 * cls + 24 ≤ query) →
      (∀ b ∈ heap.free cls, query < b ∨ b + 8 ≤ query) →
      (query < page ∨ page + 4096 ≤ query) → mem' query = mem query)
    (list : ListAt mem' (freeListOf (descAddr kBlockDescs cls)) (heap'.free cls))
    (otherFree : ∀ other, other ≠ cls → heap'.free other = heap.free other)
    (nodup : (heap'.arenas.map Prod.fst).Nodup)
    (otherArenas : ∀ other otherCls, other ≠ page →
      ((other, otherCls) ∈ heap'.arenas ↔ (other, otherCls) ∈ heap.arenas))
    (pageClass : ∀ other, (page, other) ∈ heap'.arenas → other = cls)
    (otherCount : ∀ other, other ≠ page → heap'.freeIn other cls = heap.freeIn other cls)
    (header : (page, cls) ∈ heap'.arenas →
      arenaDesc mem' page = descAddr kBlockDescs cls ∧ arenaLarge mem' page = 0 ∧
        arenaCnt mem' page = heap'.freeIn page cls)
    (blocks : ∀ b ∈ heap'.free cls, ∃ page, (page, cls) ∈ heap'.arenas ∧ IsBlock page cls b) :
    HeapShape kBlockDescs mem' heap' := by
  -- Where the free blocks of the class lie.
  have freeBounds : ∀ b ∈ heap.free cls, ∃ other, (other, cls) ∈ heap.arenas ∧
      other + 12 ≤ b ∧ b + 16 ≤ other + 4096 := by
    intro b free
    obtain ⟨other, arena, block⟩ := shape.blocks cls small b free
    have bounds := block.bounds
    have size := classSize_ge cls
    exact ⟨other, arena, by omega, by omega⟩
  have descKept : ∀ other, other < 7 → ∀ offset, offset < 8 →
      mem' (kBlockDescs + 24 * other + offset) = mem (kBlockDescs + 24 * other + offset) := by
    intro other otherLt offset offsetLt
    refine agree _ (by omega) (fun b free => ?_) (by omega)
    obtain ⟨arenaPage, arena, lower, upper⟩ := freeBounds b free
    have placed := (shape.placed arenaPage cls arena).2.2.2
    omega
  have headerKept : ∀ other otherCls, (other, otherCls) ∈ heap.arenas → other ≠ page →
      ∀ offset, offset < 12 → mem' (other + offset) = mem (other + offset) := by
    intro other otherCls arena different offset offsetLt
    obtain ⟨-, aligned, -, placed⟩ := shape.placed other otherCls arena
    refine agree _ (by omega) (fun b free => ?_) (by omega)
    obtain ⟨blockPage, blockArena, lower, upper⟩ := freeBounds b free
    by_cases same : other = blockPage
    · omega
    · have apart := shape.pages_apart arena blockArena same
      omega
  refine ⟨?_, ?_, ?_, nodup, ?_, ?_, ?_, ?_⟩
  · intro other otherLt
    rw [← shape.blockSize other otherLt]
    exact Bytes.read32_congr_offset fun offset offsetLt =>
      descKept other otherLt offset (by omega)
  · intro other otherLt
    rw [← shape.perArena other otherLt]
    refine Bytes.read32_congr_offset fun offset offsetLt => ?_
    rw [Nat.add_assoc]
    exact descKept other otherLt (4 + offset) (by omega)
  · intro other otherLt
    by_cases same : other = cls
    · rw [same]
      exact list
    · rw [otherFree other same]
      refine (shape.lists other otherLt).congr fun query inside => ?_
      have someNode : ∃ node ∈ listNodes (freeListOf (descAddr kBlockDescs other))
          (heap.free other), node ≤ query ∧ query < node + 8 := by
        simpa [Outside] using inside
      obtain ⟨node, member, lower, upper⟩ := someNode
      rcases shape.node_cases otherLt member with descNode | ⟨-, nodePage, nodeArena, nodeLower,
        nodeUpper⟩
      · refine agree query (by omega) (fun b free => ?_) (by omega)
        obtain ⟨blockPage, blockArena, blockLower, blockUpper⟩ := freeBounds b free
        have placed := (shape.placed blockPage cls blockArena).2.2.2
        omega
      · obtain ⟨-, aligned, -, placed⟩ := shape.placed nodePage other nodeArena
        have notPage : nodePage ≠ page := by
          rintro rfl
          exact same (ofClass other nodeArena)
        refine agree query (by omega) (fun b free => ?_) (by omega)
        obtain ⟨blockPage, blockArena, blockLower, blockUpper⟩ := freeBounds b free
        have different : nodePage ≠ blockPage := by
          rintro rfl
          exact same (shape.class_unique nodeArena blockArena)
        have apart := shape.pages_apart nodeArena blockArena different
        omega
  · intro other otherCls arena
    by_cases same : other = page
    · subst same
      obtain rfl := pageClass otherCls arena
      exact ⟨small, pageAligned, pageLt, pagePlaced⟩
    · exact shape.placed other otherCls ((otherArenas other otherCls same).mp arena)
  · intro other otherCls arena
    by_cases same : other = page
    · subst same
      obtain rfl := pageClass otherCls arena
      exact ⟨(header arena).1, (header arena).2.1⟩
    · have arena' := (otherArenas other otherCls same).mp arena
      have kept := headerKept other otherCls arena' same
      obtain ⟨desc, large⟩ := shape.header other otherCls arena'
      rw [← desc, ← large]
      constructor
      · exact Bytes.read32_congr_offset fun offset offsetLt => kept offset (by omega)
      · refine Bytes.read32_congr_offset fun offset offsetLt => ?_
        rw [Nat.add_assoc]
        exact kept (8 + offset) (by omega)
  · intro other otherCls arena
    by_cases same : other = page
    · subst same
      obtain rfl := pageClass otherCls arena
      exact (header arena).2.2
    · have arena' := (otherArenas other otherCls same).mp arena
      have kept := headerKept other otherCls arena' same
      have countKept : heap'.freeIn other otherCls = heap.freeIn other otherCls := by
        by_cases sameCls : otherCls = cls
        · rw [sameCls]
          exact otherCount other same
        · rw [Heap.freeIn, Heap.freeIn, otherFree otherCls sameCls]
      rw [countKept, ← shape.count other otherCls arena']
      refine Bytes.read32_congr_offset fun offset offsetLt => ?_
      rw [Nat.add_assoc]
      exact kept (4 + offset) (by omega)
  · intro other otherLt b free
    by_cases same : other = cls
    · subst same
      exact blocks b free
    · rw [otherFree other same] at free
      obtain ⟨blockPage, arena, block⟩ := shape.blocks other otherLt b free
      have different : blockPage ≠ page := by
        rintro rfl
        exact same (ofClass other arena)
      exact ⟨blockPage, (otherArenas blockPage other different).mpr arena, block⟩

theorem node_off_desc (shape : HeapShape kBlockDescs mem heap) (small : cls < 7) {node : Nat}
    (member : node ∈ listNodes (freeListOf (descAddr kBlockDescs cls)) (heap.free cls))
    {other : Nat} (otherLt : other < 7) :
    node + 8 ≤ descAddr kBlockDescs other ∨ descAddr kBlockDescs other + 8 ≤ node := by
  simp only [descAddr, sizeofMemBlockDesc]
  rcases shape.node_cases small member with desc | ⟨-, page, arena, lower, upper⟩
  · omega
  · have placed := (shape.placed page cls arena).2.2.2
    omega

theorem node_off_header (shape : HeapShape kBlockDescs mem heap) (small : cls < 7) {node : Nat}
    (member : node ∈ listNodes (freeListOf (descAddr kBlockDescs cls)) (heap.free cls))
    {other otherCls : Nat} (arena : (other, otherCls) ∈ heap.arenas) :
    node + 8 ≤ other ∨ other + 12 ≤ node := by
  obtain ⟨-, aligned, -, placed⟩ := shape.placed other otherCls arena
  rcases shape.node_cases small member with desc | ⟨-, page, nodeArena, lower, upper⟩
  · omega
  · by_cases same : other = page
    · omega
    · have apart := shape.pages_apart arena nodeArena same
      omega

theorem node_off_block (shape : HeapShape kBlockDescs mem heap) (small : cls < 7) {node : Nat}
    (member : node ∈ listNodes (freeListOf (descAddr kBlockDescs cls)) (heap.free cls))
    (arena : (page, cls) ∈ heap.arenas) (block : IsBlock page cls b) (different : node ≠ b) :
    node + 8 ≤ b ∨ b + classSize cls ≤ node := by
  have bounds := block.bounds
  have size := classSize_ge cls
  obtain ⟨-, aligned, -, placed⟩ := shape.placed page cls arena
  rcases shape.node_cases small member with desc | ⟨free, other, otherArena, lower, upper⟩
  · omega
  · by_cases same : page = other
    · obtain ⟨nodePage, nodeArena, nodeBlock⟩ := shape.blocks cls small node free
      have nodeBounds := nodeBlock.bounds
      have nodePageEq : nodePage = page := by
        by_contra other'
        have apart := shape.pages_apart nodeArena arena other'
        omega
      subst nodePageEq
      have apart := nodeBlock.apart block different
      unfold Apart at apart
      omega
    · have apart := shape.pages_apart arena otherArena same
      omega

/-- Changes in the entries of one list, and in one block, keep the words of the
descriptors and of the arena's header. -/
theorem words_of_agree (shape : HeapShape kBlockDescs mem heap) (small : cls < 7)
    (arena : (page, cls) ∈ heap.arenas) (block : IsBlock page cls b)
    (agree : ∀ query, Outside (b :: listNodes (freeListOf (descAddr kBlockDescs cls))
      (heap.free cls)) query → mem' query = mem query) :
    blockSizeOf mem' (descAddr kBlockDescs cls) = classSize cls ∧
      blockPerArenaOf mem' (descAddr kBlockDescs cls) = classCount cls ∧
      ∀ offset, offset < 12 → mem' (page + offset) = mem (page + offset) := by
  have bounds := block.bounds
  have size := classSize_ge cls
  have placed := (shape.placed page cls arena).2.2.2
  have descKept : ∀ offset, offset < 8 →
      mem' (descAddr kBlockDescs cls + offset) = mem (descAddr kBlockDescs cls + offset) := by
    intro offset offsetLt
    refine agree _ (List.forall_mem_cons.mpr ⟨?_, fun node member => ?_⟩)
    · simp only [descAddr, sizeofMemBlockDesc]
      omega
    · have off := shape.node_off_desc small member small
      omega
  refine ⟨?_, ?_, ?_⟩
  · rw [← shape.blockSize cls small]
    exact Bytes.read32_congr_offset fun offset offsetLt => descKept offset (by omega)
  · rw [← shape.perArena cls small]
    refine Bytes.read32_congr_offset fun offset offsetLt => ?_
    rw [Nat.add_assoc]
    exact descKept (4 + offset) (by omega)
  · intro offset offsetLt
    refine agree _ (List.forall_mem_cons.mpr ⟨by omega, fun node member => ?_⟩)
    have off := shape.node_off_header small member arena
    omega

/-- The free blocks of an arena, without repetition, are some of its blocks. -/
theorem freeIn_subperm (shape : HeapShape kBlockDescs mem heap) (small : cls < 7)
    (arena : (page, cls) ∈ heap.arenas) :
    ((heap.free cls).filter fun b => blockToArena b = page).Subperm (blocksOf page cls) := by
  refine List.subperm_of_subset ((shape.lists cls small).nodup.filter _) fun b member => ?_
  rw [List.mem_filter, decide_eq_true_eq] at member
  obtain ⟨other, otherArena, block⟩ := shape.blocks cls small b member.1
  obtain ⟨-, aligned, otherLt, -⟩ := shape.placed other cls otherArena
  have same : other = page := (block.blockToArena aligned otherLt).symm.trans member.2
  subst same
  obtain ⟨idx, idxLt, rfl⟩ := block
  exact List.mem_map.mpr ⟨idx, List.mem_range.mpr idxLt, rfl⟩

theorem freeIn_le (shape : HeapShape kBlockDescs mem heap) (small : cls < 7)
    (arena : (page, cls) ∈ heap.arenas) : heap.freeIn page cls ≤ classCount cls := by
  have length := (shape.freeIn_subperm small arena).length_le
  rwa [← List.countP_eq_length_filter, blocksOf, List.length_map, List.length_range] at length

/-- When as many blocks are free as the arena has, all of them are. -/
theorem mem_free_of_full (shape : HeapShape kBlockDescs mem heap) (small : cls < 7)
    (arena : (page, cls) ∈ heap.arenas) (full : heap.freeIn page cls = classCount cls) {idx : Nat}
    (idxLt : idx < classCount cls) : blockAt page cls idx ∈ heap.free cls := by
  have perm := (shape.freeIn_subperm small arena).perm_of_length_le (by
    rw [← List.countP_eq_length_filter, blocksOf, List.length_map, List.length_range]
    exact Nat.le_of_eq full.symm)
  have member : blockAt page cls idx ∈ blocksOf page cls :=
    List.mem_map.mpr ⟨idx, List.mem_range.mpr idxLt, rfl⟩
  exact (List.mem_filter.mp (perm.mem_iff.mpr member)).1

end HeapShape

/-- The bytes that belong to the heap: the descriptors and the pages of arenas. -/
def HeapArea (kBlockDescs : Nat) (arenas : List (Nat × Nat)) (query : Nat) : Prop :=
  (kBlockDescs ≤ query ∧ query < kBlockDescs + 168) ∨
    ∃ page cls, (page, cls) ∈ arenas ∧ page ≤ query ∧ query < page + 4096

theorem not_heapArea {kBlockDescs : Nat} {arenas : List (Nat × Nat)} {query : Nat} :
    ¬HeapArea kBlockDescs arenas query ↔
      (query < kBlockDescs ∨ kBlockDescs + 168 ≤ query) ∧
        ∀ page cls, (page, cls) ∈ arenas → query < page ∨ page + 4096 ≤ query := by
  constructor
  · intro outside
    constructor
    · by_contra inside
      exact outside (.inl (by omega))
    · intro page cls arena
      by_contra inside
      exact outside (.inr ⟨page, cls, arena, by omega, by omega⟩)
  · rintro ⟨offDesc, offPages⟩ (inDesc | ⟨page, cls, arena, inPage⟩)
    · omega
    · have off := offPages page cls arena
      omega

/-- The entries of the free lists belong to the heap. -/
theorem HeapShape.node_outside {kBlockDescs : Nat} {mem : Bytes} {heap : Heap} {cls : Nat}
    (shape : HeapShape kBlockDescs mem heap) (small : cls < 7) {query : Nat}
    (outside : ¬HeapArea kBlockDescs heap.arenas query) :
    Outside (listNodes (freeListOf (descAddr kBlockDescs cls)) (heap.free cls)) query := by
  obtain ⟨offDesc, offPages⟩ := not_heapArea.mp outside
  intro node member
  rcases shape.node_cases small member with desc | ⟨-, page, arena, lower, upper⟩
  · omega
  · have off := offPages page cls arena
    omega

/-! ## Taking a block -/

section Operations

variable {m : Machine} {heap : Heap} {page cls b : Nat}

theorem Heap.freeIn_cons {heap : Heap} {rest : List Nat} (free : heap.free cls = b :: rest)
    (other : Nat) : heap.freeIn other cls =
      (heap.setFree cls rest).freeIn other cls + if blockToArena b = other then 1 else 0 := by
  simp only [Heap.freeIn, Heap.setFree, free, List.countP_cons, decide_eq_true_eq, if_true]

/-- `sys_malloc` takes the first block of a list, clears it and counts it off in
its arena. -/
theorem HeapShape.takeBlock (shape : HeapShape m.image.kBlockDescs m.mem heap) (small : cls < 7)
    {rest : List Nat} (free : heap.free cls = b :: rest) :
    ∃ mem, takeBlock m (descAddr m.image.kBlockDescs cls) = (b, { m with mem := mem }) ∧
      HeapShape m.image.kBlockDescs mem (heap.setFree cls rest) ∧
      (∀ offset, offset < classSize cls → mem (b + offset) = 0) ∧
      ∀ query, ¬HeapArea m.image.kBlockDescs heap.arenas query → mem query = m.mem query := by
  obtain ⟨page, arena, block⟩ := shape.blocks cls small b (by simp [free])
  obtain ⟨-, aligned, pageLt, placed⟩ := shape.placed page cls arena
  have bounds := block.bounds
  have size := classSize_ge cls
  have pageEq := block.blockToArena aligned pageLt
  have list := shape.lists cls small
  have listCons : ListAt m.mem (freeListOf (descAddr m.image.kBlockDescs cls))
      ([] ++ b :: rest) := by
    rw [List.nil_append, ← free]
    exact list
  have restNode : ∀ node ∈ listNodes (freeListOf (descAddr m.image.kBlockDescs cls)) rest,
      node ∈ listNodes (freeListOf (descAddr m.image.kBlockDescs cls)) (heap.free cls) ∧
        node ≠ b := by
    intro node member
    have nodup := listCons.nodup
    have notTailer := listCons.tailer_not_mem
    have apart := listCons.apart
    rw [free]
    simp only [mem_listNodes, List.mem_cons] at member ⊢
    refine ⟨by tauto, ?_⟩
    rintro rfl
    rcases member with header | inRest | isTailer
    · simp only [listNodes, List.nil_append, List.cons_append, List.pairwise_cons] at apart
      exact (apart.1 node (by simp)).ne (by decide) header.symm
    · exact (List.nodup_cons.mp nodup).1 inRest
    · exact notTailer (by simp [← isTailer])
  -- Memory after unlinking, after clearing, and after counting.
  have unlinkKept : ∀ query, (∀ node ∈ listNodes (freeListOf (descAddr m.image.kBlockDescs cls))
      (heap.free cls), query < node ∨ node + 8 ≤ query) →
      linkRemove m.mem b query = m.mem query := by
    intro query outside
    exact listCons.remove_of_outside fun node member => outside node (restNode node member).1
  obtain ⟨blockSize, -, headerUnlinked⟩ := shape.words_of_agree small arena
    block fun query outside => unlinkKept query (List.forall_mem_cons.mp outside).2
  have headerKept : ∀ offset, offset < 12 →
      ((linkRemove m.mem b).fill b 0 (classSize cls)) (page + offset) = m.mem (page + offset) := by
    intro offset offsetLt
    rw [Bytes.fill_of_outside _ _ (by omega)]
    exact headerUnlinked offset offsetLt
  have cntEq : arenaCnt ((linkRemove m.mem b).fill b 0 (classSize cls)) page =
      (heap.setFree cls rest).freeIn page cls + 1 := by
    have count := shape.count page cls arena
    rw [Heap.freeIn_cons free, if_pos pageEq] at count
    rw [← count]
    refine Bytes.read32_congr_offset fun offset offsetLt => ?_
    rw [Nat.add_assoc]
    exact headerKept (4 + offset) (by omega)
  have cntLt := Bytes.read32_lt ((linkRemove m.mem b).fill b 0 (classSize cls)) (page + 4)
  rw [← arenaCnt, cntEq] at cntLt
  have next : nextOf m.mem (freeListOf (descAddr m.image.kBlockDescs cls)) = b :=
    listCons.next_cons
  refine ⟨((linkRemove m.mem b).fill b 0 (classSize cls)).write32 (page + 4)
    ((heap.setFree cls rest).freeIn page cls), ?_, ?_, ?_, ?_⟩
  · simp only [Pumelo.takeBlock, listPop, listRemove_eq, next, blockSize, pageEq, cntEq,
      Machine.store32]
    rw [show (heap.setFree cls rest).freeIn page cls + 1 + 2 ^ 32 - 1 =
      (heap.setFree cls rest).freeIn page cls + 2 ^ 32 by omega, Nat.add_mod_right,
      Nat.mod_eq_of_lt (by omega)]
  · have listRest : ListAt (((linkRemove m.mem b).fill b 0 (classSize cls)).write32 (page + 4)
        ((heap.setFree cls rest).freeIn page cls))
        (freeListOf (descAddr m.image.kBlockDescs cls)) rest := by
      refine listCons.remove.congr fun query inside => ?_
      have someNode : ∃ node ∈ listNodes (freeListOf (descAddr m.image.kBlockDescs cls)) rest,
          node ≤ query ∧ query < node + 8 := by
        simpa [Outside] using inside
      obtain ⟨node, member, lower, upper⟩ := someNode
      obtain ⟨oldMember, different⟩ := restNode node member
      have offHeader := shape.node_off_header small oldMember arena
      have offBlock := shape.node_off_block small oldMember arena block different
      rw [Bytes.write32_of_outside _ _ (by omega), Bytes.fill_of_outside _ _ (by omega)]
    apply shape.update small aligned pageLt placed
    · intro other otherArena
      exact shape.class_unique otherArena arena
    · intro query offDesc offFree offPage
      rw [Bytes.write32_of_outside _ _ (by omega), Bytes.fill_of_outside _ _ (by omega)]
      refine unlinkKept query fun node member => ?_
      rcases shape.node_cases small member with desc | ⟨nodeFree, -⟩
      · omega
      · exact offFree node nodeFree
    · simpa [Heap.setFree] using listRest
    · intro other different
      simp [Heap.setFree, different]
    · exact shape.nodup
    · intro other otherCls _
      exact Iff.rfl
    · intro other otherArena
      exact shape.class_unique otherArena arena
    · intro other different
      rw [Heap.freeIn_cons free other, if_neg (by rw [pageEq]; exact different.symm), Nat.add_zero]
    · intro _
      obtain ⟨desc, large⟩ := shape.header page cls arena
      refine ⟨?_, ?_, ?_⟩
      · rw [← desc]
        refine Bytes.read32_congr_offset fun offset offsetLt => ?_
        rw [Bytes.write32_of_outside _ _ (by omega)]
        exact headerKept offset (by omega)
      · rw [← large]
        refine Bytes.read32_congr_offset fun offset offsetLt => ?_
        rw [Bytes.write32_of_outside _ _ (by omega), Nat.add_assoc]
        exact headerKept (8 + offset) (by omega)
      · exact Bytes.read32_write32_self _ (by omega)
    · intro other member
      have inRest : other ∈ rest := by simpa [Heap.setFree] using member
      exact shape.blocks cls small other (by simp [free, inRest])
  · intro offset offsetLt
    rw [Bytes.write32_of_outside _ _ (by omega), Bytes.fill_of_inside _ _ (by omega) (by omega)]
  · intro query outside
    have offPage := (not_heapArea.mp outside).2 page cls arena
    rw [Bytes.write32_of_outside _ _ (by omega), Bytes.fill_of_outside _ _ (by omega)]
    exact unlinkKept query (shape.node_outside small outside)

theorem Heap.freeIn_append (heap : Heap) (b cls other : Nat) :
    (heap.setFree cls (heap.free cls ++ [b])).freeIn other cls =
      heap.freeIn other cls + if blockToArena b = other then 1 else 0 := by
  simp [Heap.freeIn, Heap.setFree, List.countP_append, List.countP_cons]

/-- `sys_free` appends a live block to its list and counts it in its arena. -/
theorem HeapShape.appendBlock (shape : HeapShape m.image.kBlockDescs m.mem heap) (small : cls < 7)
    (arena : (page, cls) ∈ heap.arenas) (block : IsBlock page cls b)
    (live : b ∉ heap.free cls) :
    ∃ mem, (let m := listAppend m (freeListOf (arenaDesc m.mem page)) b
        m.store32 (page + 4) ((arenaCnt m.mem page + 1) % 2 ^ 32)) = { m with mem := mem } ∧
      HeapShape m.image.kBlockDescs mem (heap.setFree cls (heap.free cls ++ [b])) ∧
      ∀ query, ¬HeapArea m.image.kBlockDescs heap.arenas query → mem query = m.mem query := by
  obtain ⟨-, aligned, pageLt, placed⟩ := shape.placed page cls arena
  have bounds := block.bounds
  have size := classSize_ge cls
  have pageEq := block.blockToArena aligned pageLt
  have list := shape.lists cls small
  obtain ⟨descEq, largeEq⟩ := shape.header page cls arena
  have notNode : ∀ node ∈ listNodes (freeListOf (descAddr m.image.kBlockDescs cls))
      (heap.free cls), node ≠ b := by
    rintro node member rfl
    rcases shape.node_cases small member with desc | ⟨free, -⟩
    · omega
    · exact live free
  have fresh : ∀ node ∈ listNodes (freeListOf (descAddr m.image.kBlockDescs cls))
      (heap.free cls), Apart 8 b node := by
    intro node member
    have off := shape.node_off_block small member arena block (notNode node member)
    unfold Apart
    omega
  have linkKept : ∀ query, Outside (b :: listNodes (freeListOf (descAddr m.image.kBlockDescs cls))
      (heap.free cls)) query → linkBefore m.mem
        (tailer (freeListOf (descAddr m.image.kBlockDescs cls))) b query = m.mem query :=
    fun _ outside => list.append_of_outside outside
  obtain ⟨-, -, headerKept⟩ := shape.words_of_agree small arena block linkKept
  have cntEq : arenaCnt (linkBefore m.mem
      (tailer (freeListOf (descAddr m.image.kBlockDescs cls))) b) page = heap.freeIn page cls := by
    rw [← shape.count page cls arena]
    refine Bytes.read32_congr_offset fun offset offsetLt => ?_
    rw [Nat.add_assoc]
    exact headerKept (4 + offset) (by omega)
  have cntLe : heap.freeIn page cls + 1 < 2 ^ 32 := by
    have most := shape.freeIn_le small arena
    have few := classCount_le cls
    omega
  refine ⟨(linkBefore m.mem (tailer (freeListOf (descAddr m.image.kBlockDescs cls))) b).write32
    (page + 4) (heap.freeIn page cls + 1), ?_, ?_, ?_⟩
  · simp only [listAppend, listInsertBefore_eq, descEq, cntEq, Machine.store32]
    rw [Nat.mod_eq_of_lt cntLe]
  · have listNew : ListAt ((linkBefore m.mem
        (tailer (freeListOf (descAddr m.image.kBlockDescs cls))) b).write32 (page + 4)
        (heap.freeIn page cls + 1)) (freeListOf (descAddr m.image.kBlockDescs cls))
        (heap.free cls ++ [b]) := by
      refine (list.append fresh (by omega)).congr fun query inside => ?_
      have someNode : ∃ node ∈ listNodes (freeListOf (descAddr m.image.kBlockDescs cls))
          (heap.free cls ++ [b]), node ≤ query ∧ query < node + 8 := by
        simpa [Outside] using inside
      obtain ⟨node, member, lower, upper⟩ := someNode
      rw [Bytes.write32_of_outside _ _]
      by_cases isNew : node = b
      · omega
      · have oldMember : node ∈ listNodes (freeListOf (descAddr m.image.kBlockDescs cls))
            (heap.free cls) := by
          simp only [mem_listNodes, List.mem_append, List.mem_singleton] at member ⊢
          tauto
        have off := shape.node_off_header small oldMember arena
        omega
    apply shape.update small aligned pageLt placed
    · intro other otherArena
      exact shape.class_unique otherArena arena
    · intro query offDesc offFree offPage
      rw [Bytes.write32_of_outside _ _ (by omega)]
      refine linkKept query (List.forall_mem_cons.mpr ⟨by omega, fun node member => ?_⟩)
      rcases shape.node_cases small member with desc | ⟨nodeFree, -⟩
      · omega
      · exact offFree node nodeFree
    · simpa [Heap.setFree] using listNew
    · intro other different
      simp [Heap.setFree, different]
    · exact shape.nodup
    · intro other otherCls _
      exact Iff.rfl
    · intro other otherArena
      exact shape.class_unique otherArena arena
    · intro other different
      rw [Heap.freeIn_append, if_neg (by rw [pageEq]; exact different.symm), Nat.add_zero]
    · intro _
      refine ⟨?_, ?_, ?_⟩
      · refine Eq.trans (Bytes.read32_congr_offset fun offset offsetLt => ?_) descEq
        rw [Bytes.write32_of_outside _ _ (by omega)]
        exact headerKept offset (by omega)
      · rw [← largeEq]
        refine Bytes.read32_congr_offset fun offset offsetLt => ?_
        rw [Bytes.write32_of_outside _ _ (by omega), Nat.add_assoc]
        exact headerKept (8 + offset) (by omega)
      · rw [Heap.freeIn_append, if_pos pageEq]
        exact Bytes.read32_write32_self _ cntLe
    · intro other member
      have either : other ∈ heap.free cls ∨ other = b := by simpa [Heap.setFree] using member
      rcases either with old | rfl
      · exact shape.blocks cls small other old
      · exact ⟨page, arena, block⟩
  · intro query outside
    have offPage := (not_heapArea.mp outside).2 page cls arena
    rw [Bytes.write32_of_outside _ _ (by omega)]
    exact linkKept query (List.forall_mem_cons.mpr ⟨by omega, shape.node_outside small outside⟩)

/-! ## Releasing an arena -/

/-- The heap without an arena and its blocks. -/
def Heap.release (heap : Heap) (page cls : Nat) : Heap where
  arenas := heap.arenas.erase (page, cls)
  free := (heap.setFree cls ((heap.free cls).filter fun b => blockToArena b ≠ page)).free

theorem arenaToBlock_eq {mem : Bytes} {kBlockDescs idx : Nat} (pageAligned : page % 4096 = 0)
    (pageLt : page < 2 ^ 32) (idxLt : idx < classCount cls)
    (desc : arenaDesc mem page = descAddr kBlockDescs cls)
    (size : blockSizeOf mem (descAddr kBlockDescs cls) = classSize cls) :
    arenaToBlock mem page idx = blockAt page cls idx := by
  have block : IsBlock page cls (blockAt page cls idx) := ⟨idx, idxLt, rfl⟩
  have bounds := block.bounds
  have sizeGe := classSize_ge cls
  rw [arenaToBlock, desc, size, sizeofArena, ← blockAt, Nat.mod_eq_of_lt (by omega)]

/-- Removing one entry from a list without repetition. -/
theorem filter_ne_of_nodup {front back : List Nat} (nodup : (front ++ b :: back).Nodup) :
    (front ++ b :: back).filter (fun other => other ≠ b) = front ++ back := by
  rw [List.nodup_middle, List.nodup_cons, List.mem_append, not_or] at nodup
  have frontKept : front.filter (fun other => decide (other ≠ b)) = front := by
    refine List.filter_eq_self.mpr fun other member => decide_eq_true ?_
    rintro rfl
    exact nodup.1.1 member
  have backKept : back.filter (fun other => decide (other ≠ b)) = back := by
    refine List.filter_eq_self.mpr fun other member => decide_eq_true ?_
    rintro rfl
    exact nodup.1.2 member
  rw [List.filter_append, List.filter_cons, frontKept, backKept]
  simp

/-- The loop of `sys_free` finds and removes the blocks of an arena one by one. -/
theorem HeapShape.releaseBlocks (shape : HeapShape m.image.kBlockDescs m.mem heap)
    (small : cls < 7) (arena : (page, cls) ∈ heap.arenas)
    (full : ∀ idx, idx < classCount cls → blockAt page cls idx ∈ heap.free cls) {count : Nat}
    (countLe : count ≤ classCount cls) :
    ∃ mem, releaseBlocks m page count = .ok { m with mem := mem } ∧
      ListAt mem (freeListOf (descAddr m.image.kBlockDescs cls))
        ((heap.free cls).filter fun b => ∀ idx, idx < count → b ≠ blockAt page cls idx) ∧
      ∀ query, Outside (listNodes (freeListOf (descAddr m.image.kBlockDescs cls))
        (heap.free cls)) query → mem query = m.mem query := by
  obtain ⟨-, aligned, pageLt, placed⟩ := shape.placed page cls arena
  obtain ⟨descEq, -⟩ := shape.header page cls arena
  induction count with
  | zero =>
      refine ⟨m.mem, rfl, ?_, fun _ _ => rfl⟩
      simpa using shape.lists cls small
  | succ count ih =>
      obtain ⟨mem, run, list, agree⟩ := ih (by omega)
      have block : IsBlock page cls (blockAt page cls count) := ⟨count, by omega, rfl⟩
      obtain ⟨size, -, header⟩ := shape.words_of_agree small arena block fun query outside =>
        agree query (List.forall_mem_cons.mp outside).2
      have desc : arenaDesc mem page = descAddr m.image.kBlockDescs cls := by
        rw [← descEq]
        exact Bytes.read32_congr_offset fun offset offsetLt => header offset (by omega)
      have toBlock := arenaToBlock_eq aligned pageLt (by omega : count < classCount cls) desc size
      have member : blockAt page cls count ∈ (heap.free cls).filter fun b =>
          ∀ idx, idx < count → b ≠ blockAt page cls idx := by
        refine List.mem_filter.mpr ⟨full count (by omega), decide_eq_true fun idx idxLt equal => ?_⟩
        have := blockAt_inj equal
        omega
      obtain ⟨front, back, split⟩ := List.append_of_mem member
      have listSplit := list
      rw [split] at listSplit
      refine ⟨linkRemove mem (blockAt page cls count), ?_, ?_, ?_⟩
      · rw [Pumelo.releaseBlocks, bind_ok run]
        simp only [desc, toBlock, list.listFind_eq, member, decide_true]
        rw [bind_ok rfl, bind_ok (assert_of rfl _), listRemove_eq]
        rfl
      · have remaining : (heap.free cls).filter
            (fun b => ∀ idx, idx < count + 1 → b ≠ blockAt page cls idx) = front ++ back := by
          rw [← filter_ne_of_nodup listSplit.nodup, ← split, List.filter_filter]
          refine List.filter_congr fun other _ => ?_
          rw [← Bool.decide_and, decide_eq_decide]
          constructor
          · intro all
            exact ⟨all count (by omega), fun idx idxLt => all idx (by omega)⟩
          · rintro ⟨last, earlier⟩ idx idxLt
            rcases Nat.lt_succ_iff_lt_or_eq.mp idxLt with less | rfl
            · exact earlier idx less
            · exact last
        rw [remaining]
        exact listSplit.remove
      · intro query outside
        rw [listSplit.remove_of_outside, agree query outside]
        intro node nodeMember
        apply outside
        have fromFree : ∀ other ∈ front ++ back, other ∈ heap.free cls := by
          intro other inRest
          have inFilter : other ∈ (heap.free cls).filter fun b =>
              ∀ idx, idx < count → b ≠ blockAt page cls idx := by
            rw [split]
            simp only [List.mem_append, List.mem_cons] at inRest ⊢
            tauto
          exact (List.mem_filter.mp inFilter).1
        rcases mem_listNodes.mp nodeMember with header | inRest | isTailer
        · exact mem_listNodes.mpr (.inl header)
        · exact mem_listNodes.mpr (.inr (.inl (fromFree node inRest)))
        · exact mem_listNodes.mpr (.inr (.inr isTailer))

/-- After all blocks of an arena are taken off the list, the heap is as if the
arena had never been. -/
theorem HeapShape.release (shape : HeapShape m.image.kBlockDescs m.mem heap) (small : cls < 7)
    (arena : (page, cls) ∈ heap.arenas) (full : heap.freeIn page cls = classCount cls) :
    ∃ mem, Pumelo.releaseBlocks m page (classCount cls) = .ok { m with mem := mem } ∧
      HeapShape m.image.kBlockDescs mem (heap.release page cls) ∧
      ∀ query, ¬HeapArea m.image.kBlockDescs heap.arenas query → mem query = m.mem query := by
  obtain ⟨-, aligned, pageLt, placed⟩ := shape.placed page cls arena
  obtain ⟨mem, run, list, agree⟩ := shape.releaseBlocks small arena
    (fun idx idxLt => shape.mem_free_of_full small arena full idxLt) (Nat.le_refl _)
  have arenasNodup : heap.arenas.Nodup := shape.nodup.of_map
  have remaining : (heap.free cls).filter
      (fun b => ∀ idx, idx < classCount cls → b ≠ blockAt page cls idx) =
      (heap.release page cls).free cls := by
    simp only [Heap.release, Heap.setFree, if_true]
    refine List.filter_congr fun b free => ?_
    rw [decide_eq_decide]
    obtain ⟨other, otherArena, block⟩ := shape.blocks cls small b free
    obtain ⟨-, otherAligned, otherLt, -⟩ := shape.placed other cls otherArena
    rw [block.blockToArena otherAligned otherLt]
    constructor
    · rintro noBlock rfl
      obtain ⟨idx, idxLt, equal⟩ := block
      exact noBlock idx idxLt equal
    · rintro different idx idxLt rfl
      have own : IsBlock page cls (blockAt page cls idx) := ⟨idx, idxLt, rfl⟩
      exact different ((block.blockToArena otherAligned otherLt).symm.trans
        (own.blockToArena aligned pageLt))
  rw [remaining] at list
  refine ⟨mem, run, ?_, fun query outside => agree query (shape.node_outside small outside)⟩
  apply shape.update small aligned pageLt placed
  · intro other otherArena
    exact shape.class_unique otherArena arena
  · intro query offDesc offFree offPage
    refine agree query fun node member => ?_
    rcases shape.node_cases small member with desc | ⟨nodeFree, -⟩
    · omega
    · exact offFree node nodeFree
  · exact list
  · intro other different
    simp [Heap.release, Heap.setFree, different]
  · exact shape.nodup.sublist ((List.erase_sublist).map Prod.fst)
  · intro other otherCls different
    rw [Heap.release, List.Nodup.mem_erase_iff arenasNodup]
    simp [different]
  · intro other otherArena
    exact shape.class_unique (List.mem_of_mem_erase otherArena) arena
  · intro other different
    simp only [Heap.freeIn, Heap.release, Heap.setFree, if_true, List.countP_filter]
    refine List.countP_congr fun b _ => ?_
    simp only [Bool.and_eq_true, decide_eq_true_eq]
    constructor
    · exact fun both => both.1
    · rintro rfl
      exact ⟨rfl, different⟩
  · intro stillArena
    exact absurd stillArena (List.Nodup.not_mem_erase arenasNodup)
  · intro b member
    simp only [Heap.release, Heap.setFree, if_true, List.mem_filter, decide_eq_true_eq] at member
    obtain ⟨other, otherArena, block⟩ := shape.blocks cls small b member.1
    obtain ⟨-, otherAligned, otherLt, -⟩ := shape.placed other cls otherArena
    refine ⟨other, ?_, block⟩
    rw [Heap.release, List.Nodup.mem_erase_iff arenasNodup]
    refine ⟨?_, otherArena⟩
    rintro equal
    cases equal
    exact member.2 (block.blockToArena otherAligned otherLt)

/-- The heap with a new arena, all blocks of which are free. -/
def Heap.addArena (heap : Heap) (page cls : Nat) : Heap where
  arenas := (page, cls) :: heap.arenas
  free := (heap.setFree cls (blocksOf page cls)).free

/-- The loop of `sys_malloc` puts the blocks of a page on an empty list in order. -/
theorem carveBlocks_ok {kBlockDescs : Nat} (small : cls < 7) (aligned : page % 4096 = 0)
    (pageLt : page < 2 ^ 32) (placed : page + 4096 ≤ kBlockDescs ∨ kBlockDescs + 168 ≤ page)
    (desc : arenaDesc m.mem page = descAddr kBlockDescs cls)
    (size : blockSizeOf m.mem (descAddr kBlockDescs cls) = classSize cls)
    (empty : ListAt m.mem (freeListOf (descAddr kBlockDescs cls)) []) {count : Nat}
    (countLe : count ≤ classCount cls) :
    ∃ mem, carveBlocks m page count = .ok { m with mem := mem } ∧
      ListAt mem (freeListOf (descAddr kBlockDescs cls))
        ((List.range count).map (blockAt page cls)) ∧
      ∀ query, (query < kBlockDescs + 24 * cls + 8 ∨ kBlockDescs + 24 * cls + 24 ≤ query) →
        (query < page + 12 ∨ page + 4096 ≤ query) → mem query = m.mem query := by
  induction count with
  | zero => exact ⟨m.mem, rfl, by simpa using empty, fun _ _ _ => rfl⟩
  | succ count ih =>
      obtain ⟨mem, run, list, agree⟩ := ih (by omega)
      have block : IsBlock page cls (blockAt page cls count) := ⟨count, by omega, rfl⟩
      have bounds := block.bounds
      have sizeGe := classSize_ge cls
      have descKept : arenaDesc mem page = descAddr kBlockDescs cls := by
        rw [← desc]
        exact Bytes.read32_congr fun query lower upper => agree query (by omega) (by omega)
      have sizeKept : blockSizeOf mem (descAddr kBlockDescs cls) = classSize cls := by
        rw [← size]
        refine Bytes.read32_congr fun query lower upper => agree query ?_ ?_ <;>
        · simp only [descAddr, sizeofMemBlockDesc] at lower upper
          omega
      have toBlock := arenaToBlock_eq aligned pageLt (by omega : count < classCount cls)
        descKept sizeKept
      have nodeCases : ∀ node ∈ listNodes (freeListOf (descAddr kBlockDescs cls))
          ((List.range count).map (blockAt page cls)),
          (node = kBlockDescs + 24 * cls + 8 ∨ node = kBlockDescs + 24 * cls + 16) ∨
            ∃ idx, idx < count ∧ node = blockAt page cls idx := by
        intro node member
        rcases mem_listNodes.mp member with rfl | inBlocks | rfl
        · exact .inl (.inl (by simp [freeListOf, descAddr]))
        · obtain ⟨idx, inRange, rfl⟩ := List.mem_map.mp inBlocks
          exact .inr ⟨idx, List.mem_range.mp inRange, rfl⟩
        · exact .inl (.inr (by simp [freeListOf, descAddr, tailer]))
      have notMember : blockAt page cls count ∉ (List.range count).map (blockAt page cls) := by
        intro member
        obtain ⟨idx, inRange, equal⟩ := List.mem_map.mp member
        have less := List.mem_range.mp inRange
        have same := blockAt_inj equal
        omega
      have fresh : ∀ node ∈ listNodes (freeListOf (descAddr kBlockDescs cls))
          ((List.range count).map (blockAt page cls)), Apart 8 (blockAt page cls count) node := by
        intro node member
        rcases nodeCases node member with inDesc | ⟨idx, idxLt, rfl⟩
        · unfold Apart
          omega
        · have apart := @blockAt_apart page cls count idx (by omega)
          unfold Apart at apart ⊢
          omega
      refine ⟨linkBefore mem (tailer (freeListOf (descAddr kBlockDescs cls)))
        (blockAt page cls count), ?_, ?_, ?_⟩
      · rw [carveBlocks, bind_ok run]
        simp only [descKept, toBlock, list.listFind_eq, notMember, decide_false]
        rw [bind_ok rfl, bind_ok (assert_of rfl _), listAppend, listInsertBefore_eq]
        rfl
      · rw [List.range_succ, List.map_append]
        exact list.append fresh (by omega)
      · intro query offDesc offPage
        rw [list.append_of_outside, agree query offDesc offPage]
        refine List.forall_mem_cons.mpr ⟨by omega, fun node member => ?_⟩
        rcases nodeCases node member with inDesc | ⟨idx, idxLt, rfl⟩
        · omega
        · have idxBounds := IsBlock.bounds (⟨idx, by omega, rfl⟩ : IsBlock page cls _)
          omega

/-- `sys_malloc` turns a page that belongs to no arena into one, when the list of
its class is empty. -/
theorem HeapShape.initArena (shape : HeapShape m.image.kBlockDescs m.mem heap) (small : cls < 7)
    (empty : heap.free cls = []) (aligned : page % 4096 = 0) (pageLt : page < 2 ^ 32)
    (placed : page + 4096 ≤ m.image.kBlockDescs ∨ m.image.kBlockDescs + 168 ≤ page)
    (unused : ∀ other, (page, other) ∉ heap.arenas) :
    ∃ mem, Pumelo.initArena m (descAddr m.image.kBlockDescs cls) page = .ok { m with mem := mem } ∧
      HeapShape m.image.kBlockDescs mem (heap.addArena page cls) ∧
      ∀ query, ¬HeapArea m.image.kBlockDescs (heap.addArena page cls).arenas query →
        mem query = m.mem query := by
  have descLt : descAddr m.image.kBlockDescs cls < 2 ^ 32 := by
    have image := m.image.descs_placed
    simp only [descAddr, sizeofMemBlockDesc]
    omega
  have countLt : classCount cls < 2 ^ 32 := by
    have few := classCount_le cls
    omega
  -- The stores before the loop.
  let header := (((m.mem.fill page 0 4096).write32 page (descAddr m.image.kBlockDescs cls)).write32
    (page + 8) 0).write32 (page + 4) (classCount cls)
  have headerAgree : ∀ query, (query < page ∨ page + 4096 ≤ query) →
      header query = m.mem query := by
    intro query off
    simp only [header]
    rw [Bytes.write32_of_outside _ _ (by omega), Bytes.write32_of_outside _ _ (by omega),
      Bytes.write32_of_outside _ _ (by omega), Bytes.fill_of_outside _ _ (by omega)]
  have headerDesc : arenaDesc header page = descAddr m.image.kBlockDescs cls := by
    rw [arenaDesc, Bytes.read32_write32_of_disjoint _ _ (by omega),
      Bytes.read32_write32_of_disjoint _ _ (by omega), Bytes.read32_write32_self _ descLt]
  have headerLarge : arenaLarge header page = 0 := by
    rw [arenaLarge, Bytes.read32_write32_of_disjoint _ _ (by omega),
      Bytes.read32_write32_self _ (by decide)]
  have headerCnt : arenaCnt header page = classCount cls := Bytes.read32_write32_self _ countLt
  have descWord : ∀ (changed : Bytes) offset, offset + 4 ≤ 8 →
      (∀ query, (query < page ∨ page + 4096 ≤ query) → changed query = m.mem query) →
      changed.read32 (descAddr m.image.kBlockDescs cls + offset) =
        m.mem.read32 (descAddr m.image.kBlockDescs cls + offset) := by
    intro changed offset offsetLe kept
    refine Bytes.read32_congr fun query lower upper => kept query ?_
    simp only [descAddr, sizeofMemBlockDesc] at lower upper
    omega
  have headerSize : blockSizeOf header (descAddr m.image.kBlockDescs cls) = classSize cls :=
    (descWord header 0 (by omega) headerAgree).trans (shape.blockSize cls small)
  have headerCount : blockPerArenaOf header (descAddr m.image.kBlockDescs cls) = classCount cls :=
    (descWord header 4 (by omega) headerAgree).trans (shape.perArena cls small)
  have countBefore : blockPerArenaOf (((m.mem.fill page 0 4096).write32 page
      (descAddr m.image.kBlockDescs cls)).write32 (page + 8) 0)
      (descAddr m.image.kBlockDescs cls) = classCount cls := by
    refine (descWord _ 4 (by omega) fun query off => ?_).trans (shape.perArena cls small)
    rw [Bytes.write32_of_outside _ _ (by omega), Bytes.write32_of_outside _ _ (by omega),
      Bytes.fill_of_outside _ _ (by omega)]
  have listEmpty : ListAt header (freeListOf (descAddr m.image.kBlockDescs cls)) [] := by
    have list := shape.lists cls small
    rw [empty] at list
    refine list.congr fun query inside => headerAgree query ?_
    have someNode : ∃ node ∈ listNodes (freeListOf (descAddr m.image.kBlockDescs cls)) [],
        node ≤ query ∧ query < node + 8 := by
      simpa [Outside] using inside
    obtain ⟨node, member, lower, upper⟩ := someNode
    simp only [mem_listNodes, List.not_mem_nil, false_or, freeListOf, descAddr, tailer,
      sizeofMemBlockDesc] at member
    omega
  obtain ⟨mem, run, list, agree⟩ := @carveBlocks_ok { m with mem := header, intr := .off }
    page cls m.image.kBlockDescs small aligned pageLt placed headerDesc headerSize listEmpty
      (classCount cls) (Nat.le_refl _)
  have memAgree : ∀ query, (query < m.image.kBlockDescs + 24 * cls + 8 ∨
      m.image.kBlockDescs + 24 * cls + 24 ≤ query) → (query < page ∨ page + 4096 ≤ query) →
      mem query = m.mem query := by
    intro query offDesc offPage
    rw [agree query offDesc (by omega)]
    exact headerAgree query offPage
  refine ⟨mem, ?_, ?_, ?_⟩
  · simp only [Pumelo.initArena, Machine.store32, pageSize, countBefore, intrDisable_eq]
    rw [show blockPerArenaOf header (descAddr m.image.kBlockDescs cls) = classCount cls from
      headerCount, bind_ok run]
    simp only [setIntrStatus_eq]
    rfl
  · apply shape.update small aligned pageLt placed
    · intro other otherArena
      exact absurd otherArena (unused other)
    · intro query offDesc _ offPage
      exact memAgree query offDesc offPage
    · rw [show (heap.addArena page cls).free cls = blocksOf page cls by
        simp [Heap.addArena, Heap.setFree]]
      exact list
    · intro other different
      simp [Heap.addArena, Heap.setFree, different]
    · rw [Heap.addArena, List.map_cons, List.nodup_cons]
      refine ⟨?_, shape.nodup⟩
      intro member
      obtain ⟨⟨_, other⟩, otherArena, rfl⟩ := List.mem_map.mp member
      exact unused other otherArena
    · intro other otherCls different
      simp [Heap.addArena, different]
    · intro other otherArena
      rcases List.mem_cons.mp otherArena with equal | old
      · exact congrArg Prod.snd equal
      · exact absurd old (unused other)
    · intro other different
      simp only [Heap.freeIn, Heap.addArena, Heap.setFree, if_true, empty, List.countP_nil]
      refine List.countP_eq_zero.mpr fun b member => ?_
      obtain ⟨idx, inRange, rfl⟩ := List.mem_map.mp member
      have block : IsBlock page cls (blockAt page cls idx) := ⟨idx, List.mem_range.mp inRange, rfl⟩
      rw [block.blockToArena aligned pageLt]
      simpa using different.symm
    · intro _
      have kept : ∀ offset, offset < 12 → mem (page + offset) = header (page + offset) :=
        fun offset offsetLt => agree _ (by omega) (by omega)
      refine ⟨?_, ?_, ?_⟩
      · exact (Bytes.read32_congr_offset fun offset offsetLt => kept offset (by omega)).trans
          headerDesc
      · refine (Bytes.read32_congr_offset fun offset offsetLt => ?_).trans headerLarge
        rw [Nat.add_assoc]
        exact kept (8 + offset) (by omega)
      · have all : (heap.addArena page cls).freeIn page cls = classCount cls := by
          simp only [Heap.freeIn, Heap.addArena, Heap.setFree, if_true]
          rw [List.countP_eq_length.mpr, blocksOf, List.length_map, List.length_range]
          intro b member
          obtain ⟨idx, inRange, rfl⟩ := List.mem_map.mp member
          have block : IsBlock page cls (blockAt page cls idx) :=
            ⟨idx, List.mem_range.mp inRange, rfl⟩
          exact decide_eq_true (block.blockToArena aligned pageLt)
        rw [all, ← headerCnt]
        refine Bytes.read32_congr_offset fun offset offsetLt => ?_
        rw [Nat.add_assoc]
        exact kept (4 + offset) (by omega)
    · intro b member
      have inBlocks : b ∈ blocksOf page cls := by simpa [Heap.addArena, Heap.setFree] using member
      obtain ⟨idx, inRange, rfl⟩ := List.mem_map.mp inBlocks
      exact ⟨page, List.mem_cons_self, idx, List.mem_range.mp inRange, rfl⟩
  · intro query outside
    obtain ⟨offDesc, offPages⟩ := not_heapArea.mp outside
    exact memAgree query (by omega) (offPages page cls List.mem_cons_self)

/-- The heap depends on its descriptors, on the headers of its arenas and on its
free blocks, not on the contents of live ones. -/
theorem HeapShape.congr {kBlockDescs : Nat} {mem mem' : Bytes}
    (shape : HeapShape kBlockDescs mem heap)
    (agree : ∀ query, (kBlockDescs ≤ query ∧ query < kBlockDescs + 168) ∨
      (∃ page cls, (page, cls) ∈ heap.arenas ∧ page ≤ query ∧ query < page + 12) ∨
      (∃ cls, cls < 7 ∧ ∃ b ∈ heap.free cls, b ≤ query ∧ query < b + 8) →
      mem' query = mem query) :
    HeapShape kBlockDescs mem' heap := by
  have descKept : ∀ cls, cls < 7 → ∀ offset, offset < 8 →
      mem' (descAddr kBlockDescs cls + offset) = mem (descAddr kBlockDescs cls + offset) := by
    intro cls small offset offsetLt
    refine agree _ (.inl ?_)
    simp only [descAddr, sizeofMemBlockDesc]
    omega
  have headerKept : ∀ page cls, (page, cls) ∈ heap.arenas → ∀ offset, offset < 12 →
      mem' (page + offset) = mem (page + offset) := by
    intro page cls arena offset offsetLt
    exact agree _ (.inr (.inl ⟨page, cls, arena, by omega, by omega⟩))
  refine ⟨?_, ?_, ?_, shape.nodup, shape.placed, ?_, ?_, shape.blocks⟩
  · intro cls small
    rw [← shape.blockSize cls small]
    exact Bytes.read32_congr_offset fun offset offsetLt => descKept cls small offset (by omega)
  · intro cls small
    rw [← shape.perArena cls small]
    refine Bytes.read32_congr_offset fun offset offsetLt => ?_
    rw [Nat.add_assoc]
    exact descKept cls small (4 + offset) (by omega)
  · intro cls small
    refine (shape.lists cls small).congr fun query inside => agree query ?_
    have someNode : ∃ node ∈ listNodes (freeListOf (descAddr kBlockDescs cls)) (heap.free cls),
        node ≤ query ∧ query < node + 8 := by
      simpa [Outside] using inside
    obtain ⟨node, member, lower, upper⟩ := someNode
    rcases shape.node_cases small member with desc | ⟨free, -⟩
    · exact .inl (by omega)
    · exact .inr (.inr ⟨cls, small, node, free, lower, upper⟩)
  · intro page cls arena
    obtain ⟨desc, large⟩ := shape.header page cls arena
    rw [← desc, ← large]
    constructor
    · exact Bytes.read32_congr_offset fun offset offsetLt =>
        headerKept page cls arena offset (by omega)
    · refine Bytes.read32_congr_offset fun offset offsetLt => ?_
      rw [Nat.add_assoc]
      exact headerKept page cls arena (8 + offset) (by omega)
  · intro page cls arena
    rw [← shape.count page cls arena]
    refine Bytes.read32_congr_offset fun offset offsetLt => ?_
    rw [Nat.add_assoc]
    exact headerKept page cls arena (4 + offset) (by omega)

/-- Changes outside the heap's area keep it. -/
theorem HeapShape.congr_area {kBlockDescs : Nat} {mem mem' : Bytes}
    (shape : HeapShape kBlockDescs mem heap)
    (agree : ∀ query, HeapArea kBlockDescs heap.arenas query → mem' query = mem query) :
    HeapShape kBlockDescs mem' heap := by
  refine shape.congr fun query inside => agree query ?_
  rcases inside with desc | ⟨page, cls, arena, lower, upper⟩ | ⟨cls, small, b, free, lower, upper⟩
  · exact .inl desc
  · exact .inr ⟨page, cls, arena, by omega, by omega⟩
  · obtain ⟨page, arena, block⟩ := shape.blocks cls small b free
    have bounds := block.bounds
    have size := classSize_ge cls
    exact .inr ⟨page, cls, arena, by omega, by omega⟩

end Operations

end Pumelo
