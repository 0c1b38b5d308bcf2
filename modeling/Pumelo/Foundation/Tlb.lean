import Pumelo.Foundation.PageWalk

/-!
# Cached translations

A translation lookaside buffer holds translations that the MMU loaded from the
page tables, at most one for a page.  It loads one at any moment and gives one up
only when it is told to.  An entry is as good as the words it was loaded from:
as long as no store replaces a present entry of the tables, whatever was loaded
meanwhile is still what they say.
-/

namespace Foundation

open PageWalk

/-- Every present entry is still there. -/
def KeepsPresent (ram ram' : Words) : Prop :=
  ∀ slot, Present (ram slot) → ram' slot = ram slot

namespace KeepsPresent

variable {ram ram' ram'' : Words}

theorem refl (ram : Words) : KeepsPresent ram ram := fun _ _ => rfl

theorem trans (first : KeepsPresent ram ram') (second : KeepsPresent ram' ram'') :
    KeepsPresent ram ram'' := by
  intro slot present
  have kept := first slot present
  have presentThere : Present (ram' slot) := by rwa [kept]
  exact (second slot presentThere).trans kept

/-- A store keeps the present entries when it goes where none is. -/
theorem write {slot : Nat} (absent : ¬Present (ram slot)) (word : Nat) :
    KeepsPresent ram (ram.write slot word) := by
  intro query present
  apply Words.write_of_ne
  rintro rfl
  exact absent present

/-- A page that was translated is translated as before. -/
theorem walk (keeps : KeepsPresent ram ram') {cr3 vaddr paddr : Nat}
    (mapped : walk ram cr3 vaddr = some paddr) : PageWalk.walk ram' cr3 vaddr = some paddr := by
  rw [← mapped]
  by_cases pdePresent : Present (ram (pdeSlot cr3 vaddr))
  · have pdeEq := keeps _ pdePresent
    refine walk_congr pdeEq fun slot slotEq => keeps slot ?_
    -- The walk went through the slot, so that its entry is present.
    by_contra ptePresent
    simp [PageWalk.walk, slotEq, ptePresent] at mapped
  · rw [walk_eq_none_of_pde pdePresent] at mapped
    cases mapped

end KeepsPresent

/-- The present entries are the same ones on both sides. -/
structure SamePresent (ram ram' : Words) : Prop where
  keeps : KeepsPresent ram ram'
  adds_none : KeepsPresent ram' ram

namespace SamePresent

variable {ram ram' ram'' : Words}

theorem refl (ram : Words) : SamePresent ram ram := ⟨.refl ram, .refl ram⟩

theorem trans (first : SamePresent ram ram') (second : SamePresent ram' ram'') :
    SamePresent ram ram'' :=
  ⟨first.keeps.trans second.keeps, second.adds_none.trans first.adds_none⟩

/-- Replacing an absent entry by an absent one. -/
theorem write {slot word : Nat} (absent : ¬Present (ram slot)) (wordAbsent : ¬Present word) :
    SamePresent ram (ram.write slot word) := by
  refine ⟨.write absent word, fun query present => ?_⟩
  by_cases same : query = slot
  · subst same
    rw [Words.write_self] at present
    exact absurd present wordAbsent
  · exact (Words.write_of_ne ram word same).symm

/-- Walks see present entries only. -/
theorem walk_eq (same : SamePresent ram ram') (cr3 vaddr : Nat) :
    walk ram' cr3 vaddr = walk ram cr3 vaddr := by
  apply Option.ext
  intro paddr
  constructor
  · exact same.adds_none.walk
  · exact same.keeps.walk

theorem present_iff (same : SamePresent ram ram') (slot : Nat) :
    Present (ram' slot) ↔ Present (ram slot) := by
  constructor
  · intro present
    rwa [same.adds_none slot present]
  · intro present
    rwa [same.keeps slot present]

end SamePresent

/-- The frame that is cached for each page number. -/
abbrev Tlb := Nat → Option Nat

/-- The page tables translate a page of the 32-bit address space into a frame. -/
def MapsPage (ram : Words) (cr3 page frame : Nat) : Prop :=
  page < 2 ^ 20 ∧ walk ram cr3 (4096 * page) = some frame

namespace Tlb

/-- The buffer after a load of `cr3`. -/
def empty : Tlb := fun _ => none

/-- The buffer with a translation loaded into it. -/
def load (tlb : Tlb) (page frame : Nat) : Tlb :=
  fun query => if query = page then some frame else tlb query

/-- No entry for a page differs from what the page tables say for it. -/
def Coherent (tlb : Tlb) (ram : Words) (cr3 : Nat) : Prop :=
  ∀ page frame, tlb page = some frame → walk ram cr3 (4096 * page) = some frame

/-- How the buffer can be found after code during which the page tables passed
through some moments, the last one `ram`, and which told the buffer to give up
the entries of some pages.  Other entries stay; a new entry was loaded at one of
the moments, and for a page whose entry was given up, after that. -/
structure Evolves (moment : Words → Prop) (ram : Words) (cr3 : Nat) (dropped : Nat → Prop)
    (before after : Tlb) : Prop where
  kept : ∀ page frame, before page = some frame → ¬dropped page → after page = some frame
  loaded : ∀ page frame, after page = some frame →
    before page = some frame ∧ ¬dropped page ∨
      ∃ tables, moment tables ∧ (dropped page → tables = ram) ∧ MapsPage tables cr3 page frame

variable {tlb before after : Tlb} {ram ram' : Words} {cr3 : Nat}

theorem empty_coherent (ram : Words) (cr3 : Nat) : empty.Coherent ram cr3 := by
  intro page frame cached
  cases cached

theorem Coherent.load (coherent : tlb.Coherent ram cr3) {page frame : Nat}
    (maps : MapsPage ram cr3 page frame) : (tlb.load page frame).Coherent ram cr3 := by
  intro query cachedFrame cached
  rw [Tlb.load] at cached
  split at cached
  · next same =>
      cases cached
      rw [same]
      exact maps.2
  · exact coherent query cachedFrame cached

theorem Coherent.mono (coherent : tlb.Coherent ram cr3) (keeps : KeepsPresent ram ram') :
    tlb.Coherent ram' cr3 :=
  fun page frame cached => keeps.walk (coherent page frame cached)

/-- A buffer that nothing is loaded into, and that has no entry to give up. -/
theorem Evolves.unchanged {moment : Words → Prop} {dropped : Nat → Prop}
    (undropped : ∀ page frame, tlb page = some frame → ¬dropped page) :
    Evolves moment ram cr3 dropped tlb tlb where
  kept _ _ cached _ := cached
  loaded page frame cached := .inl ⟨cached, undropped page frame cached⟩

/-- The buffer still agrees with the tables when the present entries of every
moment are there at the last one, whatever was given up. -/
theorem Evolves.coherent {moment : Words → Prop} {dropped : Nat → Prop}
    (evolves : Evolves moment ram' cr3 dropped before after)
    (keeps : ∀ tables, moment tables → KeepsPresent tables ram') (start : moment ram)
    (coherent : before.Coherent ram cr3) : after.Coherent ram' cr3 := by
  intro page frame cached
  rcases evolves.loaded page frame cached with ⟨old, -⟩ | ⟨tables, atMoment, -, maps⟩
  · exact coherent.mono (keeps ram start) page frame old
  · exact (keeps tables atMoment).walk maps.2

end Tlb

end Foundation
