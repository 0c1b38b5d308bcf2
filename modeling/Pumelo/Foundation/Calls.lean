import Mathlib.Data.Set.Finite.Lemmas
import Mathlib.Logic.Relation
import Mathlib.Order.WellFounded

/-!
# Recursive calls

A recursion comes to its end from a call when the call is accessible in the relation from
a call to those that it makes.  Where only finitely many calls can be reached, this is so
exactly when none of them leads back to itself.
-/

namespace Foundation

open Relation

variable {α : Type*} {calls : α → α → Prop} {start call : α}

/-- What an accessible call leads to is accessible. -/
theorem acc_of_reachable (ends : Acc (fun inner outer => calls outer inner) start)
    (reach : ReflTransGen calls start call) : Acc (fun inner outer => calls outer inner) call := by
  induction reach with
  | refl => exact ends
  | tail _ made ih => exact ih.inv made

/-- An accessible call does not lead back to itself. -/
theorem not_transGen_of_acc (ends : Acc (fun inner outer => calls outer inner) call) :
    ¬TransGen calls call call := by
  induction ends with
  | intro call _ ih =>
      intro loop
      obtain ⟨inner, made, back⟩ := TransGen.head'_iff.mp loop
      exact ih inner made (TransGen.tail' back made)

/-- A recursion over finitely many calls ends when no call leads back to itself. -/
theorem acc_iff_acyclic (finite : {call | ReflTransGen calls start call}.Finite) :
    Acc (fun inner outer => calls outer inner) start ↔
      ∀ call, ReflTransGen calls start call → ¬TransGen calls call call := by
  constructor
  · intro ends call reach
    exact not_transGen_of_acc (acc_of_reachable ends reach)
  · intro acyclic
    have : Finite {call // ReflTransGen calls start call} := finite.to_subtype
    let leads (inner outer : {call // ReflTransGen calls start call}) : Prop :=
      TransGen calls outer.1 inner.1
    have : IsTrans _ leads := ⟨fun _ _ _ first second => second.trans first⟩
    have : Std.Irrefl leads := ⟨fun call loop => acyclic call.1 call.2 loop⟩
    have ends : ∀ call : {call // ReflTransGen calls start call},
        Acc (fun inner outer => calls outer inner) call.1 := by
      intro call
      induction call using (Finite.wellFounded_of_trans_of_irrefl leads).induction with
      | _ call ih =>
          exact Acc.intro _ fun inner made => ih ⟨inner, call.2.tail made⟩ (.single made)
    exact ends ⟨start, .refl⟩

end Foundation
