import Mathlib.Data.List.Nodup
import Pumelo.Foundation.System
import Pumelo.Pool

/-!
# Runs of the frame allocator

Callers take frames from the two pools and give them back in any order. A live
frame is recorded with the pool it was taken from; the invariant identifies the
live frames with the set bits of the two bitmaps.
-/

namespace Pumelo

open Foundation

/-- The machine with the frames that were allocated and not freed since. -/
structure FrameState where
  machine : Machine
  live : List (PoolFlags × Nat)

namespace FrameState

/-- The pool has a clear bit left. -/
def NotExhausted (s : FrameState) (pf : PoolFlags) : Prop :=
  ∃ index, index < s.machine.frameCount pf ∧ s.machine.frameBit pf index = false

/-- One call: an allocation from a pool that is not exhausted, or a free of a
live frame. -/
inductive Step : FrameState → FrameState → Prop where
  | alloc {s : FrameState} {pf : PoolFlags} {paddr : Nat} {m : Machine} :
      s.NotExhausted pf →
      allocPhysicalPages s.machine pf = .ok (paddr, m) →
      Step s ⟨m, (pf, paddr) :: s.live⟩
  | free {s : FrameState} {pf : PoolFlags} {paddr : Nat} {m : Machine} :
      (pf, paddr) ∈ s.live →
      freePhysicalPages s.machine paddr = .ok m →
      Step s ⟨m, s.live.erase (pf, paddr)⟩

/-- A frame of a pool: aligned and inside the pool's range. -/
def InPool (s : FrameState) (pf : PoolFlags) (paddr : Nat) : Prop :=
  paddr % 4096 = 0 ∧ (s.machine.pool pf).paddrStart ≤ paddr ∧
    paddr < (s.machine.pool pf).paddrStart + (s.machine.pool pf).poolSize

/-- What an allocation from `pf` returns: the lowest frame of the pool that is
not live, and live for no pool. -/
def AllocSound (s : FrameState) (pf : PoolFlags) : Prop :=
  ∃ paddr m, allocPhysicalPages s.machine pf = .ok (paddr, m) ∧ s.InPool pf paddr ∧
    (∀ pf', (pf', paddr) ∉ s.live) ∧
    ∀ lower, s.InPool pf lower → lower < paddr → (pf, lower) ∈ s.live

/-- What a free of a frame taken from `pf` does: its bit in that pool is cleared
and every other bit of the pools is kept. -/
def FreeSound (s : FrameState) (pf : PoolFlags) (paddr : Nat) : Prop :=
  ∃ m, freePhysicalPages s.machine paddr = .ok m ∧
    ∀ pf' index, index < s.machine.frameCount pf' →
      m.frameBit pf' index =
        (if pf' = pf ∧ s.machine.frameAddr pf' index = paddr then false
         else s.machine.frameBit pf' index)

/-- The contract of the allocator in one state. -/
structure Sound (s : FrameState) : Prop where
  placed : ∀ pf paddr, (pf, paddr) ∈ s.live → s.InPool pf paddr
  distinct : (s.live.map Prod.snd).Nodup
  bits : ∀ pf paddr, (pf, paddr) ∈ s.live ↔
    ∃ index, index < s.machine.frameCount pf ∧ s.machine.frameAddr pf index = paddr ∧
      s.machine.frameBit pf index = true
  alloc : ∀ pf, s.NotExhausted pf → s.AllocSound pf
  free : ∀ pf paddr, (pf, paddr) ∈ s.live → s.FreeSound pf paddr

end FrameState

/-- The allocator after `mem_pool_init` with a given amount of memory. -/
def frameSystem (m : Machine) (allMem : Nat) : System FrameState where
  init s := s = ⟨memPoolInit m allMem, []⟩
  step := FrameState.Step

/-- The pools keep their layout, no frame is recorded twice, and the recorded
frames are those whose bits are set. -/
structure FrameState.Inv (kernelPages userPages : Nat) (s : FrameState) : Prop where
  laid : Laid s.machine kernelPages userPages
  nodup : s.live.Nodup
  bits : ∀ pf paddr, (pf, paddr) ∈ s.live ↔
    ∃ index, index < s.machine.frameCount pf ∧ s.machine.frameAddr pf index = paddr ∧
      s.machine.frameBit pf index = true

namespace FrameState.Inv

variable {kernelPages userPages : Nat} {s : FrameState}

theorem init (m : Machine) {allMem : Nat} (lower : 0x200000 ≤ allMem) (upper : allMem < 2 ^ 32) :
    Inv ((allMem - 0x200000) / 4096 % 2 ^ 16 / 2)
      ((allMem - 0x200000) / 4096 % 2 ^ 16 - (allMem - 0x200000) / 4096 % 2 ^ 16 / 2)
      ⟨memPoolInit m allMem, []⟩ where
  laid := memPoolInit_laid m lower upper
  nodup := List.nodup_nil
  bits pf paddr := by
    constructor
    · intro member
      cases member
    · rintro ⟨index, inside, -, set⟩
      rw [memPoolInit_frameBit m inside] at set
      cases set

/-- A frame with a clear bit is live for no pool. -/
theorem not_live (inv : Inv kernelPages userPages s) {pf pf' : PoolFlags} {index : Nat}
    (inside : index < s.machine.frameCount pf) (clear : s.machine.frameBit pf index = false) :
    (pf', s.machine.frameAddr pf index) ∉ s.live := by
  intro member
  obtain ⟨index', inside', equal, set⟩ := (inv.bits _ _).mp member
  obtain ⟨rfl, rfl⟩ := inv.laid.frameAddr_inj inside' inside equal
  rw [clear] at set
  cases set

/-- After marking one frame, a frame's bit is set exactly when the frame was
marked so, or was set before and is another one. -/
theorem exists_setFrame (inv : Inv kernelPages userPages s) {pf pf' : PoolFlags} {index : Nat}
    (value : Bool) (inside : index < s.machine.frameCount pf) (paddr : Nat) :
    (∃ index', index' < s.machine.frameCount pf' ∧ s.machine.frameAddr pf' index' = paddr ∧
        (s.machine.setFrame pf index value).frameBit pf' index' = true) ↔
      if (pf', paddr) = (pf, s.machine.frameAddr pf index) then value = true
      else (pf', paddr) ∈ s.live := by
  rw [inv.bits]
  constructor
  · rintro ⟨index', inside', rfl, set⟩
    rw [inv.laid.frameBit_setFrame value inside inside'] at set
    split at set
    · next same =>
        obtain ⟨rfl, rfl⟩ := same
        rwa [if_pos rfl]
    · next other =>
        rw [if_neg]
        · exact ⟨index', inside', rfl, set⟩
        · intro equal
          rw [Prod.mk.injEq] at equal
          exact other (inv.laid.frameAddr_inj inside' inside equal.2)
  · split
    · next same =>
        rw [Prod.mk.injEq] at same
        obtain ⟨rfl, rfl⟩ := same
        intro set
        refine ⟨index, inside, rfl, ?_⟩
        rw [inv.laid.frameBit_setFrame value inside inside, if_pos ⟨rfl, rfl⟩]
        exact set
    · next other =>
        rintro ⟨index', inside', rfl, set⟩
        refine ⟨index', inside', rfl, ?_⟩
        rw [inv.laid.frameBit_setFrame value inside inside', if_neg]
        · exact set
        · rintro ⟨rfl, rfl⟩
          exact other rfl

theorem step (inv : Inv kernelPages userPages s) {next : FrameState} (taken : Step s next) :
    Inv kernelPages userPages next := by
  cases taken with
  | @alloc pf paddr m notExhausted run =>
      obtain ⟨index, inside, clear, -, rfl, rfl⟩ := allocPhysicalPages_ok run
      rw [(inv.laid.frameAddr_spec inside).1]
      refine ⟨inv.laid.setFrame pf index true, ?_, ?_⟩
      · exact List.nodup_cons.mpr ⟨inv.not_live inside clear, inv.nodup⟩
      · intro pf' paddr'
        refine Iff.trans ?_ (inv.exists_setFrame true inside paddr').symm
        rw [List.mem_cons]
        split <;> simp_all
  | @free pf paddr m member run =>
      obtain ⟨index, inside, rfl, -⟩ := (inv.bits _ _).mp member
      rw [inv.laid.freePhysicalPages_eq inside, Except.ok.injEq] at run
      subst run
      refine ⟨inv.laid.setFrame pf index false, inv.nodup.erase _, ?_⟩
      intro pf' paddr'
      refine Iff.trans ?_ (inv.exists_setFrame false inside paddr').symm
      rw [inv.nodup.mem_erase_iff]
      split <;> simp_all

theorem inPool (inv : Inv kernelPages userPages s) {pf : PoolFlags} {index : Nat}
    (inside : index < s.machine.frameCount pf) : s.InPool pf (s.machine.frameAddr pf index) := by
  obtain ⟨_, aligned, lower, upper, _, _⟩ := inv.laid.frameAddr_spec inside
  exact ⟨aligned, lower, by omega⟩

/-- An aligned address below a frame of the pool is a frame of the pool. -/
theorem exists_index (inv : Inv kernelPages userPages s) {pf : PoolFlags} {index lower : Nat}
    (inPool : s.InPool pf lower) (below : lower < s.machine.frameAddr pf index) :
    ∃ index', index' < index ∧ s.machine.frameAddr pf index' = lower := by
  obtain ⟨aligned, start, _⟩ := inPool
  have startAligned : (s.machine.pool pf).paddrStart % 4096 = 0 := by
    cases pf with
    | kernel => rw [inv.laid.kernelStart]
    | user => rw [inv.laid.userStart]; omega
  rw [Machine.frameAddr] at below
  refine ⟨(lower - (s.machine.pool pf).paddrStart) / 4096, by omega, ?_⟩
  rw [Machine.frameAddr]
  omega

theorem allocSound (inv : Inv kernelPages userPages s) {pf : PoolFlags}
    (notExhausted : s.NotExhausted pf) : s.AllocSound pf := by
  obtain ⟨clearIndex, clearInside, clearBit⟩ := notExhausted
  obtain ⟨paddr, m, run⟩ := allocPhysicalPages_of_clear clearInside clearBit
  obtain ⟨index, inside, clear, lowest, paddrEq, -⟩ := allocPhysicalPages_ok run
  rw [(inv.laid.frameAddr_spec inside).1] at paddrEq
  subst paddrEq
  refine ⟨_, m, run, inv.inPool inside, fun pf' => inv.not_live inside clear, ?_⟩
  intro lower inPool below
  obtain ⟨index', earlier, rfl⟩ := inv.exists_index inPool below
  exact (inv.bits _ _).mpr ⟨index', Nat.lt_trans earlier inside, rfl, lowest index' earlier⟩

theorem freeSound (inv : Inv kernelPages userPages s) {pf : PoolFlags} {paddr : Nat}
    (member : (pf, paddr) ∈ s.live) : s.FreeSound pf paddr := by
  obtain ⟨index, inside, rfl, -⟩ := (inv.bits _ _).mp member
  refine ⟨_, inv.laid.freePhysicalPages_eq inside, ?_⟩
  intro pf' index' inside'
  rw [inv.laid.frameBit_setFrame false inside inside']
  have sameFrame : pf' = pf ∧ s.machine.frameAddr pf' index' = s.machine.frameAddr pf index ↔
      pf' = pf ∧ index' = index := by
    constructor
    · intro same
      exact inv.laid.frameAddr_inj inside' inside same.2
    · rintro ⟨rfl, rfl⟩
      exact ⟨rfl, rfl⟩
  simp only [sameFrame]

/-- Equal addresses are frames of one pool, so that no address is live twice. -/
theorem distinct (inv : Inv kernelPages userPages s) : (s.live.map Prod.snd).Nodup := by
  refine List.Nodup.map_on ?_ inv.nodup
  rintro ⟨pf, paddr⟩ member ⟨pf', paddr'⟩ member' equal
  obtain ⟨index, inside, rfl, -⟩ := (inv.bits _ _).mp member
  obtain ⟨index', inside', rfl, -⟩ := (inv.bits _ _).mp member'
  obtain ⟨rfl, rfl⟩ := inv.laid.frameAddr_inj inside inside' equal
  rfl

theorem sound (inv : Inv kernelPages userPages s) : s.Sound where
  placed pf paddr member := by
    obtain ⟨index, inside, rfl, -⟩ := (inv.bits _ _).mp member
    exact inv.inPool inside
  distinct := inv.distinct
  bits := inv.bits
  alloc _ notExhausted := inv.allocSound notExhausted
  free _ _ member := inv.freeSound member

end FrameState.Inv

theorem Reachable.frameInv {m : Machine} {allMem : Nat} (lower : 0x200000 ≤ allMem)
    (upper : allMem < 2 ^ 32) {s : FrameState} (reachable : (frameSystem m allMem).Reachable s) :
    FrameState.Inv ((allMem - 0x200000) / 4096 % 2 ^ 16 / 2)
      ((allMem - 0x200000) / 4096 % 2 ^ 16 - (allMem - 0x200000) / 4096 % 2 ^ 16 / 2) s := by
  refine System.Reachable.invariant ?_ ?_ reachable
  · rintro _ rfl
    exact FrameState.Inv.init m lower upper
  · intro state next inv taken
    exact inv.step taken

/-- Every run of the frame allocator keeps its contract. -/
theorem frames_sound (m : Machine) {allMem : Nat} (lower : 0x200000 ≤ allMem)
    (upper : allMem < 2 ^ 32) {s : FrameState} (reachable : (frameSystem m allMem).Reachable s) :
    s.Sound :=
  (Reachable.frameInv lower upper reachable).sound

/-- With 32 MB of memory, after one allocation from the kernel pool. -/
theorem frames_sound_after_alloc :
    ∃ s, s.live ≠ [] ∧ (frameSystem Machine.blank 0x2000000).Reachable s ∧ s.Sound := by
  have inside : 0 < (memPoolInit Machine.blank 0x2000000).frameCount .kernel := by decide
  have clear := memPoolInit_frameBit Machine.blank inside
  obtain ⟨paddr, m, run⟩ := allocPhysicalPages_of_clear inside clear
  have reachable : (frameSystem Machine.blank 0x2000000).Reachable ⟨m, [(.kernel, paddr)]⟩ :=
    .step (.init rfl) (.alloc ⟨0, inside, clear⟩ run)
  exact ⟨_, by simp, reachable,
    frames_sound Machine.blank (by decide) (by decide) reachable⟩

end Pumelo
