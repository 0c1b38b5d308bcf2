import Mathlib.Data.List.Nodup
import Mathlib.Data.Finset.Card
import Mathlib.Data.Finset.Range
import Mathlib.Tactic.Common

/-!
# Doubly linked chains

A chain is a list of nodes in which every two neighbours point at each other.
The two link fields are arbitrary functions, so that the lemmas serve any
representation of the nodes.  Inserting and unlinking a node each change two
neighbouring links and keep all others.
-/

namespace Foundation

variable {α : Type*}

/-- Consecutive nodes are linked forwards by `next` and backwards by `prev`. -/
def Linked (next prev : α → α) : List α → Prop
  | left :: right :: rest =>
      next left = right ∧ prev right = left ∧ Linked next prev (right :: rest)
  | _ => True

namespace Linked

variable {next prev next' prev' : α → α}

@[simp] theorem nil : Linked next prev [] := trivial

@[simp] theorem singleton (node : α) : Linked next prev [node] := trivial

theorem cons_cons {left right : α} {rest : List α} :
    Linked next prev (left :: right :: rest) ↔
      next left = right ∧ prev right = left ∧ Linked next prev (right :: rest) :=
  Iff.rfl

theorem tail {node : α} {nodes : List α} (linked : Linked next prev (node :: nodes)) :
    Linked next prev nodes := by
  cases nodes with
  | nil => trivial
  | cons => exact linked.2.2

/-- A chain splits at any node into two chains that share the node. -/
theorem append_iff {front back : List α} {node : α} :
    Linked next prev (front ++ node :: back) ↔
      Linked next prev (front ++ [node]) ∧ Linked next prev (node :: back) := by
  induction front with
  | nil => simp
  | cons head front ih =>
      cases front with
      | nil => simp [cons_cons, and_assoc]
      | cons second front =>
          simp only [List.cons_append, cons_cons] at ih ⊢
          rw [ih]
          simp only [and_assoc]

/-- The neighbours at any position of a chain point at each other. -/
theorem neighbours {front back : List α} {left right : α}
    (linked : Linked next prev (front ++ left :: right :: back)) :
    next left = right ∧ prev right = left := by
  rw [append_iff] at linked
  exact ⟨linked.2.1, linked.2.2.1⟩

/-- A chain that ends in `last` reads `next` of its other nodes and `prev` of
all but its first. -/
theorem congr_to {front : List α} {last : α}
    (linked : Linked next prev (front ++ [last]))
    (nextEq : ∀ node ∈ front, next' node = next node)
    (prevEq : ∀ node ∈ (front ++ [last]).tail, prev' node = prev node) :
    Linked next' prev' (front ++ [last]) := by
  induction front with
  | nil => trivial
  | cons head front ih =>
      have ih := ih linked.tail (fun node member => nextEq node (by simp [member]))
        (fun node member => prevEq node (List.mem_of_mem_tail member))
      cases front with
      | nil =>
          exact ⟨(nextEq head (by simp)).trans linked.1,
            (prevEq last (by simp)).trans linked.2.1, trivial⟩
      | cons second front =>
          exact ⟨(nextEq head (by simp)).trans linked.1,
            (prevEq second (by simp)).trans linked.2.1, ih⟩

/-- A chain that starts at `first` reads `prev` of its other nodes only. -/
theorem congr_from {first : α} {back : List α}
    (linked : Linked next prev (first :: back))
    (nextEq : ∀ node ∈ first :: back, next' node = next node)
    (prevEq : ∀ node ∈ back, prev' node = prev node) :
    Linked next' prev' (first :: back) := by
  induction back generalizing first with
  | nil => trivial
  | cons second back ih =>
      exact ⟨(nextEq first (by simp)).trans linked.1,
        (prevEq second (by simp)).trans linked.2.1,
        ih linked.2.2 (fun node member => nextEq node (List.mem_cons_of_mem _ member))
          fun node member => prevEq node (List.mem_cons_of_mem _ member)⟩

/-- A chain survives every change that keeps the links of its nodes. -/
theorem congr {nodes : List α} (linked : Linked next prev nodes)
    (nextEq : ∀ node ∈ nodes, next' node = next node)
    (prevEq : ∀ node ∈ nodes, prev' node = prev node) :
    Linked next' prev' nodes := by
  cases nodes with
  | nil => trivial
  | cons first back =>
      exact linked.congr_from nextEq fun node member =>
        prevEq node (List.mem_cons_of_mem _ member)

/-- Link `node` in between two neighbours. -/
theorem insert {front back : List α} {left node right : α}
    (linked : Linked next prev (front ++ left :: right :: back))
    (nextLeft : next' left = node) (prevNode : prev' node = left)
    (nextNode : next' node = right) (prevRight : prev' right = node)
    (nextFront : ∀ other ∈ front, next' other = next other)
    (prevFront : ∀ other ∈ (front ++ [left]).tail, prev' other = prev other)
    (nextBack : ∀ other ∈ right :: back, next' other = next other)
    (prevBack : ∀ other ∈ back, prev' other = prev other) :
    Linked next' prev' (front ++ left :: node :: right :: back) := by
  rw [append_iff] at linked ⊢
  refine ⟨linked.1.congr_to nextFront prevFront, nextLeft, prevNode, nextNode, prevRight, ?_⟩
  exact linked.2.2.2.congr_from nextBack prevBack

/-- Take a node out from between its two neighbours. -/
theorem unlink {front back : List α} {left node right : α}
    (linked : Linked next prev (front ++ left :: node :: right :: back))
    (nextLeft : next' left = right) (prevRight : prev' right = left)
    (nextFront : ∀ other ∈ front, next' other = next other)
    (prevFront : ∀ other ∈ (front ++ [left]).tail, prev' other = prev other)
    (nextBack : ∀ other ∈ right :: back, next' other = next other)
    (prevBack : ∀ other ∈ back, prev' other = prev other) :
    Linked next' prev' (front ++ left :: right :: back) := by
  rw [append_iff] at linked ⊢
  refine ⟨linked.1.congr_to nextFront prevFront, nextLeft, prevRight, ?_⟩
  exact linked.2.2.2.2.2.congr_from nextBack prevBack

end Linked

/-- Addresses whose cells of `size` bytes do not overlap. -/
def Apart (size : Nat) (left right : Nat) : Prop :=
  left + size ≤ right ∨ right + size ≤ left

instance (size left right : Nat) : Decidable (Apart size left right) :=
  inferInstanceAs (Decidable (_ ∨ _))

theorem Apart.symm {size left right : Nat} (apart : Apart size left right) :
    Apart size right left :=
  Or.symm apart

theorem Apart.ne {size left right : Nat} (apart : Apart size left right) (pos : 0 < size) :
    left ≠ right := by
  unfold Apart at apart
  omega

theorem nodup_of_pairwise_apart {size : Nat} {nodes : List Nat} (pos : 0 < size)
    (apart : nodes.Pairwise (Apart size)) : nodes.Nodup :=
  apart.imp fun separate => separate.ne pos

/-- Cells of `size` bytes below `size * count` number at most `count`. -/
theorem length_le_of_apart {size count : Nat} {nodes : List Nat} (pos : 0 < size)
    (apart : nodes.Pairwise (Apart size)) (below : ∀ node ∈ nodes, node < size * count) :
    nodes.length ≤ count := by
  have nodup : (nodes.map (· / size)).Nodup := by
    rw [List.Nodup, List.pairwise_map]
    refine apart.imp fun {left right} separate equal => ?_
    have leftMod := Nat.mod_lt left pos
    have rightMod := Nat.mod_lt right pos
    have leftEq := Nat.div_add_mod left size
    have rightEq := Nat.div_add_mod right size
    rw [equal] at leftEq
    unfold Apart at separate
    omega
  have subset : (nodes.map (· / size)).toFinset ⊆ Finset.range count := by
    intro quotient member
    simp only [List.mem_toFinset, List.mem_map] at member
    obtain ⟨node, nodeMem, rfl⟩ := member
    exact Finset.mem_range.mpr (Nat.div_lt_of_lt_mul (below node nodeMem))
  have card := Finset.card_le_card subset
  rwa [List.toFinset_card_of_nodup nodup, List.length_map, Finset.card_range] at card

end Foundation
