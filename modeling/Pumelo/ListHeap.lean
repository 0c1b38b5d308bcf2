import Mathlib.Logic.Function.Basic
import Pumelo.List

/-!
# Lists that share a heap

The functions of `list.c` see two entries and know no list.  Over a heap with any number of
lists that do not overlap, each of them changes one sequence and no other.
-/

namespace Pumelo

open Foundation

/-- The elements of the lists of a heap, by the address of the list. -/
abbrev Contents := Nat → Option (List Nat)

/-- An element is put before another one, or at the end. -/
def insertedBefore (before elem : Nat) : List Nat → List Nat
  | [] => [elem]
  | head :: rest =>
      if head = before then elem :: head :: rest else head :: insertedBefore before elem rest

theorem insertedBefore_append {before elem : Nat} {front : List Nat} (back : List Nat)
    (first : before ∉ front) :
    insertedBefore before elem (front ++ before :: back) = front ++ elem :: before :: back := by
  induction front with
  | nil => exact if_pos rfl
  | cons head front ih =>
      rw [List.mem_cons, not_or] at first
      rw [List.cons_append, insertedBefore, if_neg (Ne.symm first.1), ih first.2, List.cons_append]

theorem insertedBefore_of_not_mem {before elem : Nat} {elems : List Nat} (other : before ∉ elems) :
    insertedBefore before elem elems = elems ++ [elem] := by
  induction elems with
  | nil => rfl
  | cons head rest ih =>
      rw [List.mem_cons, not_or] at other
      rw [insertedBefore, if_neg (Ne.symm other.1), ih other.2, List.cons_append]

theorem mem_insertedBefore {before elem node : Nat} {elems : List Nat} :
    node ∈ insertedBefore before elem elems → node = elem ∨ node ∈ elems := by
  induction elems with
  | nil => simp [insertedBefore]
  | cons head rest ih =>
      intro member
      rw [insertedBefore] at member
      split at member
      · exact List.mem_cons.mp member
      · rw [List.mem_cons] at member ⊢
        tauto

/-- A call that changes a list. The list of an entry is no argument of the function. -/
inductive ListChange where
  | push (plist elem : Nat)
  | append (plist elem : Nat)
  | insertBefore (plist before elem : Nat)
  | remove (plist elem : Nat)
  | pop (plist : Nat)

namespace ListChange

/-- The list that is to change. -/
def plist : ListChange → Nat
  | push plist _ | append plist _ | insertBefore plist _ _ | remove plist _ | pop plist => plist

def run (m : Machine) : ListChange → Machine
  | push plist elem => listPush m plist elem
  | append plist elem => listAppend m plist elem
  | insertBefore _ before elem => listInsertBefore m before elem
  | remove _ elem => listRemove m elem
  | pop plist => (listPop m plist).2

/-- What is to happen to its elements. -/
def change : ListChange → List Nat → List Nat
  | push _ elem => fun elems => elem :: elems
  | append _ elem => fun elems => elems ++ [elem]
  | insertBefore _ before elem => insertedBefore before elem
  | remove _ elem => fun elems => elems.erase elem
  | pop _ => List.tail

def apply (contents : Contents) (call : ListChange) : Contents :=
  Function.update contents call.plist ((contents call.plist).map call.change)

end ListChange

/-- Every list of the heap is well formed, and no two overlap. -/
structure Holds (mem : Bytes) (contents : Contents) : Prop where
  wellFormed : ∀ plist elems, contents plist = some elems → ListAt mem plist elems
  disjoint : ∀ left elems right others, contents left = some elems → contents right = some others →
    left ≠ right → ∀ node ∈ listNodes left elems, ∀ other ∈ listNodes right others,
      Apart 8 node other

/-- An entry of no list. -/
structure Loose (contents : Contents) (elem : Nat) : Prop where
  apart : ∀ plist elems, contents plist = some elems → ∀ node ∈ listNodes plist elems,
    Apart 8 elem node
  small : elem + 8 ≤ 2 ^ 32

/-- What the caller sees to. -/
def ListChange.Legal (contents : Contents) (elems : List Nat) : ListChange → Prop
  | push _ elem | append _ elem => Loose contents elem
  | insertBefore plist before elem => Loose contents elem ∧ (before ∈ elems ∨ before = tailer plist)
  | remove _ elem => elem ∈ elems
  | pop _ => elems ≠ []

namespace ListAt

variable {mem : Bytes} {plist elem before : Nat} {elems : List Nat}

/-- The nodes around a place in front of an element. -/
theorem exists_place (plist before : Nat) (front back : List Nat) :
    ∃ nodes left, listNodes plist (front ++ before :: back) =
        nodes ++ left :: before :: (back ++ [tailer plist]) ∧
      ∀ elem, listNodes plist (front ++ elem :: before :: back) =
        nodes ++ left :: elem :: before :: (back ++ [tailer plist]) := by
  obtain ⟨nodes, left, split⟩ :=
    List.eq_nil_or_concat' (plist :: front) |>.resolve_left (by simp)
  refine ⟨nodes, left, ?_, fun elem => ?_⟩
  · calc
      listNodes plist (front ++ before :: back) =
          (plist :: front) ++ before :: (back ++ [tailer plist]) := by simp [listNodes]
      _ = nodes ++ left :: before :: (back ++ [tailer plist]) := by simp [split]
  · calc
      listNodes plist (front ++ elem :: before :: back) =
          (plist :: front) ++ elem :: before :: (back ++ [tailer plist]) := by simp [listNodes]
      _ = nodes ++ left :: elem :: before :: (back ++ [tailer plist]) := by simp [split]

/-- `list_insert_before` puts a fresh entry before an element. -/
theorem insertBefore (list : ListAt mem plist elems) (member : before ∈ elems)
    (fresh : ∀ node ∈ listNodes plist elems, Apart 8 elem node) (small : elem + 8 ≤ 2 ^ 32) :
    ListAt (linkBefore mem before elem) plist (insertedBefore before elem elems) := by
  obtain ⟨front, back, rfl, first⟩ := List.eq_append_cons_of_mem member
  obtain ⟨nodes, left, split, splitInserted⟩ := exists_place plist before front back
  have chained : Chained mem (nodes ++ left :: before :: (back ++ [tailer plist])) := split ▸ list
  rw [insertedBefore_append back first, ListAt, splitInserted]
  exact chained.linkBefore (fun node within => fresh node (split ▸ within)) small

/-- `list_insert_before` changes bytes of the list's entries and the new one only. -/
theorem insertBefore_of_outside (list : ListAt mem plist elems) (member : before ∈ elems)
    {query : Nat} (outside : Outside (elem :: listNodes plist elems) query) :
    linkBefore mem before elem query = mem query := by
  obtain ⟨front, back, rfl⟩ := List.append_of_mem member
  obtain ⟨nodes, left, split, -⟩ := exists_place plist before front back
  have chained : Chained mem (nodes ++ left :: before :: (back ++ [tailer plist])) := split ▸ list
  apply chained.linkBefore_of_outside
  intro node within
  apply outside
  rw [split]
  simp only [List.mem_cons, List.not_mem_nil, or_false] at within
  simp only [List.mem_cons, List.mem_append]
  tauto

end ListAt

/-! ## All lists of the heap -/

section Heap

variable {mem mem' : Bytes} {contents : Contents} {plist elem : Nat} {elems elems' : List Nat}

/-- When the bytes that change are those of one list and of entries of no list, the other lists
stay. -/
theorem Holds.update {changed : List Nat} (holds : Holds mem contents)
    (there : contents plist = some elems) (list : ListAt mem' plist elems')
    (own : ∀ node ∈ changed, node ∈ listNodes plist elems ∨ Loose contents node)
    (subset : ∀ node ∈ listNodes plist elems', node ∈ changed)
    (frame : ∀ query, Outside changed query → mem' query = mem query) :
    Holds mem' (Function.update contents plist (some elems')) := by
  have apart : ∀ other others, contents other = some others → other ≠ plist →
      ∀ node ∈ changed, ∀ node' ∈ listNodes other others, Apart 8 node node' := by
    intro other others held different node member node' member'
    obtain within | loose := own node member
    · exact holds.disjoint plist elems other others there held different.symm node within
        node' member'
    · exact loose.apart other others held node' member'
  constructor
  case wellFormed =>
    intro other others held
    obtain rfl | different := eq_or_ne other plist
    · rw [Function.update_self] at held
      exact Option.some.inj held ▸ list
    · rw [Function.update_of_ne different] at held
      apply (holds.wellFormed other others held).congr
      intro query inside
      apply frame
      intro node member
      by_contra near
      apply inside
      intro node' member'
      have separate := apart other others held different node member node' member'
      unfold Apart at separate
      omega
  case disjoint =>
    intro left lefts right rights heldLeft heldRight different node member other member'
    obtain rfl | left' := eq_or_ne left plist
    · rw [Function.update_self] at heldLeft
      rw [Function.update_of_ne different.symm] at heldRight
      obtain rfl := Option.some.inj heldLeft
      exact apart right rights heldRight different.symm node (subset node member) other member'
    · rw [Function.update_of_ne left'] at heldLeft
      obtain rfl | right' := eq_or_ne right plist
      · rw [Function.update_self] at heldRight
        obtain rfl := Option.some.inj heldRight
        exact (apart left lefts heldLeft left' other (subset other member') node member).symm
      · rw [Function.update_of_ne right'] at heldRight
        exact holds.disjoint left lefts right rights heldLeft heldRight different node member other
          member'

/-- A new element of a list was a loose entry. -/
theorem Holds.insert (holds : Holds mem contents) (there : contents plist = some elems)
    (loose : Loose contents elem) (list : ListAt mem' plist elems')
    (members : ∀ node ∈ elems', node = elem ∨ node ∈ elems)
    (frame : ∀ query, Outside (elem :: listNodes plist elems) query → mem' query = mem query) :
    Holds mem' (Function.update contents plist (some elems')) := by
  apply holds.update there list _ _ frame
  · intro node member
    obtain rfl | within := List.mem_cons.mp member
    · exact .inr loose
    · exact .inl within
  · intro node member
    rw [mem_listNodes] at member
    rw [List.mem_cons, mem_listNodes]
    obtain rfl | within | rfl := member
    · exact .inr (.inl rfl)
    · have case := members node within
      tauto
    · exact .inr (.inr (.inr rfl))

/-- An element that leaves its list leaves the others where they are. -/
theorem Holds.delete {front back : List Nat} (holds : Holds mem contents)
    (there : contents plist = some (front ++ elem :: back)) :
    Holds (linkRemove mem elem) (Function.update contents plist (some (front ++ back))) := by
  have list := holds.wellFormed plist _ there
  apply holds.update there list.remove _ (fun _ => id) fun query => list.remove_of_outside
  intro node member
  left
  rw [mem_listNodes] at member ⊢
  simp only [List.mem_append, List.mem_cons] at member ⊢
  tauto

/-- One call changes the sequence of one list and no other. -/
theorem Holds.run {m : Machine} (holds : Holds m.mem contents) {call : ListChange}
    (there : contents call.plist = some elems) (legal : call.Legal contents elems) :
    Holds (call.run m).mem (call.apply contents) := by
  have list := holds.wellFormed call.plist elems there
  rw [ListChange.apply, there, Option.map_some]
  cases call with
  | push plist elem =>
      rw [ListChange.run, listPush, listInsertBefore_eq]
      exact holds.insert there legal (list.push (legal.apart plist elems there) legal.small)
        (fun node member => List.mem_cons.mp member) fun query => list.push_of_outside
  | append plist elem =>
      rw [ListChange.run, listAppend_eq]
      apply holds.insert there legal (list.append (legal.apart plist elems there) legal.small) _
        fun query => list.append_of_outside
      intro node member
      rw [List.mem_append, List.mem_singleton] at member
      exact member.symm
  | insertBefore plist before elem =>
      obtain ⟨loose, place⟩ := legal
      rw [ListChange.run, listInsertBefore_eq]
      have fresh := loose.apart plist elems there
      by_cases member : before ∈ elems
      · exact holds.insert there loose (list.insertBefore member fresh loose.small)
          (fun node => mem_insertedBefore) fun query => list.insertBefore_of_outside member
      · obtain rfl := place.resolve_left member
        rw [ListChange.change, insertedBefore_of_not_mem member]
        apply holds.insert there loose (list.append fresh loose.small) _
          fun query => list.append_of_outside
        intro node within
        rw [List.mem_append, List.mem_singleton] at within
        exact within.symm
  | remove plist elem =>
      obtain ⟨front, back, rfl, first⟩ := List.eq_append_cons_of_mem legal
      have erased : (front ++ elem :: back).erase elem = front ++ back := by
        rw [List.erase_append_right _ first, List.erase_cons_head]
      rw [ListChange.run, listRemove_eq]
      show Holds (linkRemove m.mem elem) (Function.update contents plist
        (some ((front ++ elem :: back).erase elem)))
      rw [erased]
      exact holds.delete there
  | pop plist =>
      obtain ⟨head, rest, rfl⟩ := List.exists_cons_of_ne_nil legal
      have next : nextOf m.mem plist = head := list.next_cons
      rw [ListChange.run, listPop, listRemove_eq, next]
      exact @Holds.delete _ _ _ _ [] rest holds there

end Heap

/-- A callback of `list_traversal` that leaves the elements of the list as they are. -/
def KeepsList (plist : Nat) (elems : List Nat) (func : Machine → Nat → Int → Except Fault Machine)
    (arg : Int) : Prop :=
  ∀ m elem m', func m elem arg = .ok m' → ListAt m.mem plist elems → ListAt m'.mem plist elems

/-- What the functions that change nothing return. -/
structure Answers (m : Machine) (plist : Nat) (elems : List Nat) : Prop where
  first : ∀ head rest, elems = head :: rest → (listPop m plist).1 = head
  find : ∀ target, listFind m.mem plist target = .ok (decide (target ∈ elems))
  len : listLen m.mem plist = .ok elems.length
  empty : listEmpty m.mem plist ↔ elems = []
  traversal : ∀ func arg fuel, KeepsList plist elems func arg → elems.length < fuel →
    listTraversal m plist func arg fuel = elems.foldlM (fun m elem => func m elem arg) m

theorem ListAt.answers {m : Machine} {plist : Nat} {elems : List Nat}
    (list : ListAt m.mem plist elems) : Answers m plist elems where
  first head rest split := by
    subst split
    exact list.next_cons
  find target := list.listFind_eq target
  len := list.listLen_eq
  empty := list.listEmpty_iff
  traversal _ _ _ leaves enough := ListAt.listTraversal_eq leaves list enough

/-- `list.c` over a heap is the functions on sequences. -/
theorem list_refines (m : Machine) (contents : Contents) (holds : Holds m.mem contents) :
    (∀ (call : ListChange) elems, contents call.plist = some elems → call.Legal contents elems →
      Holds (call.run m).mem (call.apply contents)) ∧
    ∀ plist elems, contents plist = some elems → Answers m plist elems :=
  ⟨fun _ _ there legal => holds.run there legal,
    fun plist elems there => (holds.wellFormed plist elems there).answers⟩

/-- A heap of two lists. -/
def twoLists (left right : List Nat) : Contents := fun plist =>
  if plist = 0x1000 then some left else if plist = 0x1100 then some right else none

theorem twoLists_eq {left right elems : List Nat} {plist : Nat}
    (there : twoLists left right plist = some elems) :
    plist = 0x1000 ∧ elems = left ∨ plist = 0x1100 ∧ elems = right := by
  unfold twoLists at there
  split at there
  · next first => exact .inl ⟨first, (Option.some.inj there).symm⟩
  · split at there
    · next second => exact .inr ⟨second, (Option.some.inj there).symm⟩
    · cases there

theorem holds_twoLists {mem : Bytes} {left right : List Nat} (first : ListAt mem 0x1000 left)
    (second : ListAt mem 0x1100 right)
    (apart : ∀ node ∈ listNodes 0x1000 left, ∀ other ∈ listNodes 0x1100 right,
      Apart 8 node other) :
    Holds mem (twoLists left right) := by
  constructor
  · intro plist elems there
    obtain ⟨rfl, rfl⟩ | ⟨rfl, rfl⟩ := twoLists_eq there
    · exact first
    · exact second
  · intro plist elems other others held heldOther different node member node' member'
    obtain ⟨rfl, rfl⟩ | ⟨rfl, rfl⟩ := twoLists_eq held
    · obtain ⟨rfl, -⟩ | ⟨rfl, rfl⟩ := twoLists_eq heldOther
      · exact absurd rfl different
      · exact apart node member node' member'
    · obtain ⟨rfl, rfl⟩ | ⟨rfl, -⟩ := twoLists_eq heldOther
      · exact (apart node' member' node member).symm
      · exact absurd rfl different

/-- Three entries in the first list and one in the second. -/
def threeAndOne : Machine :=
  let m := listInit (listInit Machine.blank 0x1000) 0x1100
  let m := listAppend (listAppend (listAppend m 0x1000 0x2000) 0x1000 0x2010) 0x1000 0x2020
  listAppend m 0x1100 0x3000

theorem holds_threeAndOne :
    Holds threeAndOne.mem (twoLists [0x2000, 0x2010, 0x2020] [0x3000]) := by
  apply holds_twoLists
  · refine ⟨?_, by decide, by decide⟩
    simp only [listNodes, List.cons_append, List.nil_append, Linked]
    decide +kernel
  · refine ⟨?_, by decide, by decide⟩
    simp only [listNodes, List.cons_append, List.nil_append, Linked]
    decide +kernel
  · decide

/-- The second of three entries is removed, and the other list stays. -/
theorem list_refines_remove :
    Holds (listRemove threeAndOne 0x2010).mem
        (Function.update (twoLists [0x2000, 0x2010, 0x2020] [0x3000]) 0x1000
          (some [0x2000, 0x2020])) ∧
      Answers threeAndOne 0x1100 [0x3000] := by
  have refines := list_refines _ _ holds_threeAndOne
  exact ⟨refines.1 (.remove 0x1000 0x2010) _ rfl (.tail _ (.head _)), refines.2 _ _ rfl⟩

end Pumelo
