import Mathlib.Data.Nat.Bitwise
import Mathlib.Logic.Equiv.Fin.Basic
import Mathlib.Logic.Function.Basic
import Mathlib.Tactic.Common

/-!
# Interrupt controllers

The 8259A, and the two of them in a PC: the initialisation words, the masks, the
priorities of the lines, the acknowledge of the processor and the end of an interrupt.
Lines are edge-triggered and vectors are those of a processor of the 8086 family; a byte
that asks for anything else is not modelled, and there is no state behind it.
-/

namespace Foundation

/-- What a controller takes the next byte at its data port for. -/
inductive PicPhase where
  | vector (single : Bool)
  | cascade
  | mode
  | mask
  deriving DecidableEq, Repr

/-- A controller; line 0 has the highest priority. -/
structure Pic where
  phase : PicPhase
  /-- The vector of line 0. -/
  base : Nat
  /-- The lines with a slave on them; in a slave, its own number. -/
  cascade : Nat
  autoEnd : Bool
  masked : Fin 8 → Bool
  request : Fin 8 → Bool
  service : Fin 8 → Bool

namespace Pic

/-- The interrupt of the highest priority that is served is over. -/
def endOfInterrupt (pic : Pic) : Pic :=
  match Fin.find? pic.service with
  | some line => { pic with service := Function.update pic.service line false }
  | none => pic

/-- A byte at the command port: the first initialisation word, or the end of an interrupt. -/
def command (pic : Pic) (byte : Nat) : Option Pic :=
  if byte / 8 = 2 ∧ byte % 2 = 1 then
    some { pic with
      phase := .vector (byte.testBit 1)
      masked := fun _ => false
      request := fun _ => false
      service := fun _ => false }
  else if byte / 8 = 4 then some pic.endOfInterrupt
  else none

/-- A byte at the data port: the next initialisation word, or the masks. -/
def data (pic : Pic) (byte : Nat) : Option Pic :=
  match pic.phase with
  | .vector single => some { pic with
      base := byte / 8 * 8
      phase := if single then .mode else .cascade }
  | .cascade => some { pic with cascade := byte, phase := .mode }
  | .mode =>
      if byte < 4 ∧ byte % 2 = 1 then some { pic with autoEnd := byte.testBit 1, phase := .mask }
      else none
  | .mask => some { pic with masked := fun line => byte.testBit line }

/-- A line that is not masked, and neither it nor one above it is served. -/
def Free (pic : Pic) (line : Fin 8) : Prop :=
  pic.masked line = false ∧ ∀ other ≤ line, pic.service other = false

instance (pic : Pic) (line : Fin 8) : Decidable (pic.Free line) := instDecidableAnd

/-- The line that the controller asks the processor for. -/
def highest (pic : Pic) : Option (Fin 8) :=
  Fin.find? fun line => pic.request line && decide (pic.Free line)

/-- The vector of a line. -/
def vector (pic : Pic) (line : Fin 8) : Nat := pic.base + line

/-- A line is served from now on. -/
def serve (pic : Pic) (line : Fin 8) : Pic := { pic with
  request := Function.update pic.request line false
  service := if pic.autoEnd then pic.service else Function.update pic.service line true }

/-- A device puts its line up. -/
def raise (pic : Pic) (line : Fin 8) : Pic :=
  { pic with request := Function.update pic.request line true }

/-- A line asks for a vector. -/
def Asks (pic : Pic) (vec : Nat) : Prop := ∃ line, pic.vector line = vec ∧ pic.request line

instance (pic : Pic) (vec : Nat) : Decidable (pic.Asks vec) :=
  inferInstanceAs (Decidable (∃ line, pic.vector line = vec ∧ pic.request line))

/-- No line is served. -/
def Idle (pic : Pic) : Prop := ∀ line, pic.service line = false

/-- One line is served. -/
def Serves (pic : Pic) (line : Fin 8) : Prop :=
  ∀ other, pic.service other = decide (other = line)

variable {pic : Pic} {line : Fin 8}

theorem Idle.free (idle : pic.Idle) : pic.Free line ↔ pic.masked line = false :=
  and_iff_left fun other _ => idle other

theorem highest_eq_some : pic.highest = some line ↔ (pic.request line ∧ pic.Free line) ∧
    ∀ other < line, pic.request other → ¬pic.Free other := by
  simp [highest]

theorem highest_eq_none : pic.highest = none ↔ ∀ line, pic.request line → ¬pic.Free line := by
  simp [highest]

theorem asks_vector : pic.Asks (pic.vector line) ↔ pic.request line := by
  constructor
  · rintro ⟨other, same, asks⟩
    rwa [← Fin.ext (Nat.add_left_cancel same)]
  · exact fun asks => ⟨line, rfl, asks⟩

/-- The vectors of a controller are the eight from its base on. -/
theorem Asks.range {vec : Nat} (asks : pic.Asks vec) : pic.base ≤ vec ∧ vec < pic.base + 8 := by
  obtain ⟨line, rfl, -⟩ := asks
  simp only [vector]
  omega

theorem asks_raise {vec : Nat} :
    (pic.raise line).Asks vec ↔ vec = pic.vector line ∨ pic.Asks vec := by
  constructor
  · rintro ⟨other, same, asks⟩
    by_cases raised : other = line
    · exact .inl (raised ▸ same.symm)
    · exact .inr ⟨other, same, by simpa [raise, raised] using asks⟩
  · rintro (rfl | ⟨other, same, asks⟩)
    · exact ⟨line, rfl, Function.update_self ..⟩
    · by_cases raised : other = line
      · exact ⟨line, raised ▸ same, Function.update_self ..⟩
      · exact ⟨other, same, by simpa [raise, raised] using asks⟩

theorem asks_serve {vec : Nat} :
    (pic.serve line).Asks vec ↔ vec ≠ pic.vector line ∧ pic.Asks vec := by
  constructor
  · rintro ⟨other, same, asks⟩
    have served : other ≠ line := by
      rintro rfl
      simp [serve] at asks
    have apart : vec ≠ pic.vector line := by
      rintro rfl
      exact served (Fin.ext (Nat.add_left_cancel same))
    exact ⟨apart, other, same, by simpa [serve, served] using asks⟩
  · rintro ⟨apart, other, same, asks⟩
    have served : other ≠ line := by
      rintro rfl
      exact apart same.symm
    exact ⟨other, same, by simpa [serve, served] using asks⟩

theorem Idle.serves (idle : pic.Idle) (manual : pic.autoEnd = false) :
    (pic.serve line).Serves line := by
  intro other
  by_cases same : other = line
  · simp [serve, manual, same]
  · simp [serve, manual, same, idle other]

/-- The end of an interrupt ends the one that is served. -/
theorem Serves.endOfInterrupt (serves : pic.Serves line) : pic.endOfInterrupt.Idle := by
  have found : Fin.find? pic.service = some line := by
    rw [Fin.find?_eq_some_iff]
    refine ⟨by simp [serves line], fun other lower => ?_⟩
    simp [serves other, lower.ne]
  intro other
  simp only [Pic.endOfInterrupt, found]
  by_cases same : other = line
  · simp [same]
  · simp [serves other, same]

/-- Without one there is none to end. -/
theorem Idle.endOfInterrupt (idle : pic.Idle) : pic.endOfInterrupt = pic := by
  have none' : Fin.find? pic.service = none := Fin.find?_eq_none_iff.mpr idle
  simp only [Pic.endOfInterrupt, none']

theorem endOfInterrupt_eq (pic : Pic) :
    pic.endOfInterrupt = { pic with service := pic.endOfInterrupt.service } := by
  unfold Pic.endOfInterrupt
  split <;> rfl

theorem asks_endOfInterrupt {vec : Nat} : pic.endOfInterrupt.Asks vec ↔ pic.Asks vec := by
  rw [endOfInterrupt_eq]
  rfl

end Pic

/-- The two controllers of a PC. -/
structure Pics where
  master : Pic
  slave : Pic

namespace Pics

/-- The master, with the slave's output on its line 2. -/
def wired (pics : Pics) : Pic := { pics.master with
  request := Function.update pics.master.request 2 pics.slave.highest.isSome }

/-- The vector on the bus when the master answers for a line and the slave for its own, and what
both serve then.  A slave that is asked in vain answers for its last line, and serves none. -/
def answer (pics : Pics) (line : Fin 8) (inner : Option (Fin 8)) : Option (Nat × Pics) :=
  if pics.master.cascade.testBit line then
    if pics.slave.cascade % 8 = line then
      match inner with
      | some line' =>
          some (pics.slave.vector line', ⟨pics.master.serve line, pics.slave.serve line'⟩)
      | none => some (pics.slave.vector 7, ⟨pics.master.serve line, pics.slave⟩)
    else none
  else some (pics.master.vector line, ⟨pics.master.serve line, pics.slave⟩)

/-- The processor acknowledges an interrupt. -/
def acknowledge (pics : Pics) : Option (Nat × Pics) :=
  pics.wired.highest.bind fun line => pics.answer line pics.slave.highest

/-- The processor acknowledges an interrupt whose line has gone down before. -/
inductive Spurious (pics : Pics) : Nat → Pics → Prop where
  | master : Spurious pics (pics.master.vector 7) pics
  | slave {vec : Nat} {next : Pics} : pics.master.Free 2 → pics.answer 2 none = some (vec, next) →
      Spurious pics vec next

/-- A device puts its line up at one of the controllers. -/
def raise (pics : Pics) (slave : Bool) (line : Fin 8) : Pics :=
  if slave then { pics with slave := pics.slave.raise line }
  else { pics with master := pics.master.raise line }

/-- A byte at a port of one of the controllers. -/
def outb (pics : Pics) (port byte : Nat) : Option Pics :=
  if port = 0x20 then (pics.master.command byte).map fun master => { pics with master }
  else if port = 0x21 then (pics.master.data byte).map fun master => { pics with master }
  else if port = 0xa0 then (pics.slave.command byte).map fun slave => { pics with slave }
  else if port = 0xa1 then (pics.slave.data byte).map fun slave => { pics with slave }
  else none

/-- A device asks for a vector. -/
def Requests (pics : Pics) (vec : Nat) : Prop := pics.master.Asks vec ∨ pics.slave.Asks vec

instance (pics : Pics) (vec : Nat) : Decidable (pics.Requests vec) := instDecidableOr

/-- Bytes one after the other. -/
def outbs (pics : Pics) (writes : List (Nat × Nat)) : Option Pics :=
  writes.foldlM (fun pics write => pics.outb write.1 write.2) pics

end Pics

end Foundation
