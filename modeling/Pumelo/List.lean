import Pumelo.Foundation.Chain
import Pumelo.Sync

/-!
# Intrusive lists

`list.c`.  A `struct list_entry` holds its `prev` pointer at offset 0 and its
`next` pointer at offset 4; a `struct list` is its header entry followed by its
tailer entry.  The functions that write run with interrupts off.
-/

namespace Pumelo

open Foundation

/-- `elem->prev` -/
def prevOf (mem : Bytes) (elem : Nat) : Nat := mem.read32 elem

/-- `elem->next` -/
def nextOf (mem : Bytes) (elem : Nat) : Nat := mem.read32 (elem + 4)

/-- `&plist->tailer` -/
def tailer (plist : Nat) : Nat := plist + 8

/-- The stores of `list_init`. -/
def linkInit (mem : Bytes) (plist : Nat) : Bytes :=
  let mem := mem.write32 plist 0
  let mem := mem.write32 (plist + 4) (tailer plist)
  let mem := mem.write32 (tailer plist) plist
  mem.write32 (tailer plist + 4) 0

/-- The stores of `list_insert_before`. -/
def linkBefore (mem : Bytes) (before elem : Nat) : Bytes :=
  let mem := mem.write32 (prevOf mem before + 4) elem
  let mem := mem.write32 elem (prevOf mem before)
  let mem := mem.write32 (elem + 4) before
  mem.write32 before elem

/-- The stores of `list_remove`. -/
def linkRemove (mem : Bytes) (elem : Nat) : Bytes :=
  let mem := mem.write32 (prevOf mem elem + 4) (nextOf mem elem)
  mem.write32 (nextOf mem elem) (prevOf mem elem)

/-- `list_init` -/
def listInit (m : Machine) (plist : Nat) : Machine :=
  { m with mem := linkInit m.mem plist }

/-- `list_insert_before` -/
def listInsertBefore (m : Machine) (before elem : Nat) : Machine :=
  withIntrDisabled m fun m => { m with mem := linkBefore m.mem before elem }

/-- `list_push` -/
def listPush (m : Machine) (plist elem : Nat) : Machine :=
  listInsertBefore m (nextOf m.mem plist) elem

/-- `list_append` -/
def listAppend (m : Machine) (plist elem : Nat) : Machine :=
  listInsertBefore m (tailer plist) elem

/-- `list_remove` -/
def listRemove (m : Machine) (elem : Nat) : Machine :=
  withIntrDisabled m fun m => { m with mem := linkRemove m.mem elem }

/-- `list_pop` -/
def listPop (m : Machine) (plist : Nat) : Nat × Machine :=
  let elem := nextOf m.mem plist
  (elem, listRemove m elem)

/-- The loop of `list_find`. -/
def listFindFrom (mem : Bytes) (plist target elem : Nat) : (fuel : Nat) → Except Fault Bool
  | 0 => .error .diverge
  | fuel + 1 =>
      if elem = tailer plist then .ok false
      else if elem = target then .ok true
      else listFindFrom mem plist target (nextOf mem elem) fuel

/-- `list_find`. A walk of more than 2^32 entries visits one of them twice, and
then goes on forever. -/
def listFind (mem : Bytes) (plist target : Nat) : Except Fault Bool :=
  listFindFrom mem plist target (nextOf mem plist) (2 ^ 32)

/-- The loop of `list_len`. -/
def listLenFrom (mem : Bytes) (plist first counter : Nat) : (fuel : Nat) → Except Fault Nat
  | 0 => .error .diverge
  | fuel + 1 =>
      if first = tailer plist then .ok counter
      else listLenFrom mem plist (nextOf mem first) ((counter + 1) % 2 ^ 32) fuel

/-- `list_len` -/
def listLen (mem : Bytes) (plist : Nat) : Except Fault Nat :=
  listLenFrom mem plist (nextOf mem plist) 0 (2 ^ 32)

/-- `list_empty` -/
def listEmpty (mem : Bytes) (plist : Nat) : Prop := nextOf mem plist = tailer plist

instance (mem : Bytes) (plist : Nat) : Decidable (listEmpty mem plist) :=
  inferInstanceAs (Decidable (_ = _))

/-- The loop of `list_traversal`. -/
def listTraversalFrom (func : Machine → Nat → Except Fault Machine) (m : Machine)
    (plist first : Nat) : (fuel : Nat) → Except Fault Machine
  | 0 => .error .diverge
  | fuel + 1 =>
      if first = tailer plist then .ok m
      else do
        let m ← func m first
        listTraversalFrom func m plist (nextOf m.mem first) fuel

/-- `list_traversal`. What is called may change the list, so that no number of turns is enough
for all calls. -/
def listTraversal (m : Machine) (plist : Nat)
    (func : Machine → Nat → Int → Except Fault Machine) (arg : Int) (fuel : Nat) :
    Except Fault Machine :=
  if listEmpty m.mem plist then .ok m
  else listTraversalFrom (fun m elem => func m elem arg) m plist (nextOf m.mem plist) fuel

@[simp] theorem listInsertBefore_eq (m : Machine) (before elem : Nat) :
    listInsertBefore m before elem = { m with mem := linkBefore m.mem before elem } :=
  withIntrDisabled_mem m fun mem => linkBefore mem before elem

@[simp] theorem listRemove_eq (m : Machine) (elem : Nat) :
    listRemove m elem = { m with mem := linkRemove m.mem elem } :=
  withIntrDisabled_mem m fun mem => linkRemove mem elem

theorem listAppend_eq (m : Machine) (plist elem : Nat) :
    listAppend m plist elem = { m with mem := linkBefore m.mem (tailer plist) elem } := by
  rw [listAppend, listInsertBefore_eq]

/-- Entries that point at each other in order, that do not overlap and that lie
in the address space. -/
structure Chained (mem : Bytes) (nodes : List Nat) : Prop where
  links : Linked (nextOf mem) (prevOf mem) nodes
  apart : nodes.Pairwise (Apart 8)
  small : ∀ node ∈ nodes, node + 8 ≤ 2 ^ 32

/-- Where a byte is no part of any of these entries. -/
def Outside (nodes : List Nat) (query : Nat) : Prop :=
  ∀ node ∈ nodes, query < node ∨ node + 8 ≤ query

namespace Chained

variable {mem mem' : Bytes} {nodes front back : List Nat} {left right elem : Nat}

/-- A chain depends on the bytes of its entries only. -/
theorem congr (chained : Chained mem nodes)
    (agree : ∀ query, ¬Outside nodes query → mem' query = mem query) : Chained mem' nodes := by
  have inside : ∀ node ∈ nodes, ∀ query, node ≤ query → query < node + 8 →
      mem' query = mem query := by
    intro node member query lower upper
    refine agree query fun outside => ?_
    have := outside node member
    omega
  refine ⟨chained.links.congr ?_ ?_, chained.apart, chained.small⟩
  · intro node member
    exact Bytes.read32_congr fun query lower upper =>
      inside node member query (by omega) (by omega)
  · intro node member
    exact Bytes.read32_congr fun query lower upper =>
      inside node member query (by omega) (by omega)

/-- Linking an entry between two neighbours. -/
theorem linkBefore_eq (chained : Chained mem (front ++ left :: right :: back)) :
    linkBefore mem right elem =
      (((mem.write32 (left + 4) elem).write32 elem left).write32 (elem + 4) right).write32
        right elem := by
  have neighbours := chained.links.neighbours
  have apart : Apart 8 left right := by
    have pairwise := chained.apart
    simp only [List.pairwise_append, List.pairwise_cons] at pairwise
    exact pairwise.2.1.1 right (by simp)
  have prevRight : prevOf (mem.write32 (left + 4) elem) right = left := by
    rw [prevOf, Bytes.read32_write32_of_disjoint _ _ (by unfold Apart at apart; omega)]
    exact neighbours.2
  simp only [linkBefore, neighbours.2, prevRight]

/-- Linking changes bytes of the new entry and of its two neighbours only. -/
theorem linkBefore_of_outside (chained : Chained mem (front ++ left :: right :: back))
    {query : Nat} (outside : Outside [left, elem, right] query) :
    linkBefore mem right elem query = mem query := by
  simp only [Outside, List.mem_cons, List.not_mem_nil, or_false, forall_eq_or_imp,
    forall_eq] at outside
  rw [chained.linkBefore_eq, Bytes.write32_of_outside _ _ (by omega),
    Bytes.write32_of_outside _ _ (by omega), Bytes.write32_of_outside _ _ (by omega),
    Bytes.write32_of_outside _ _ (by omega)]

/-- Linking an entry that overlaps no other extends the chain by it. -/
theorem linkBefore (chained : Chained mem (front ++ left :: right :: back))
    (fresh : ∀ node ∈ front ++ left :: right :: back, Apart 8 elem node)
    (small : elem + 8 ≤ 2 ^ 32) :
    Chained (linkBefore mem right elem) (front ++ left :: elem :: right :: back) := by
  have pairwise := chained.apart
  simp only [List.pairwise_append, List.pairwise_cons, List.mem_cons] at pairwise
  obtain ⟨frontApart, ⟨leftApart, rightApart, backApart⟩, crossApart⟩ := pairwise
  have freshLeft : Apart 8 elem left := fresh left (by simp)
  have freshRight : Apart 8 elem right := fresh right (by simp)
  have leftRight : Apart 8 left right := leftApart right (.inl rfl)
  have leftSmall := chained.small left (by simp)
  have rightSmall := chained.small right (by simp)
  -- An entry apart from `left` and `elem` keeps its `next`.
  have nextKept : ∀ other, Apart 8 elem other → Apart 8 left other →
      (other = right ∨ Apart 8 right other) →
      nextOf (Pumelo.linkBefore mem right elem) other = nextOf mem other := by
    intro other elemOther leftOther rightOther
    unfold Apart at *
    rw [chained.linkBefore_eq, nextOf, nextOf, Bytes.read32_write32_of_disjoint _ _ (by omega),
      Bytes.read32_write32_of_disjoint _ _ (by omega),
      Bytes.read32_write32_of_disjoint _ _ (by omega),
      Bytes.read32_write32_of_disjoint _ _ (by omega)]
  -- An entry apart from `right` and `elem` keeps its `prev`.
  have prevKept : ∀ other, Apart 8 elem other → Apart 8 right other →
      (other = left ∨ Apart 8 left other) →
      prevOf (Pumelo.linkBefore mem right elem) other = prevOf mem other := by
    intro other elemOther rightOther leftOther
    unfold Apart at *
    rw [chained.linkBefore_eq, prevOf, prevOf, Bytes.read32_write32_of_disjoint _ _ (by omega),
      Bytes.read32_write32_of_disjoint _ _ (by omega),
      Bytes.read32_write32_of_disjoint _ _ (by omega),
      Bytes.read32_write32_of_disjoint _ _ (by omega)]
  refine ⟨chained.links.insert ?_ ?_ ?_ ?_ ?_ ?_ ?_ ?_, ?_, ?_⟩
  · unfold Apart at *
    rw [chained.linkBefore_eq, nextOf, Bytes.read32_write32_of_disjoint _ _ (by omega),
      Bytes.read32_write32_of_disjoint _ _ (by omega),
      Bytes.read32_write32_of_disjoint _ _ (by omega), Bytes.read32_write32_self _ (by omega)]
  · unfold Apart at *
    rw [chained.linkBefore_eq, prevOf, Bytes.read32_write32_of_disjoint _ _ (by omega),
      Bytes.read32_write32_of_disjoint _ _ (by omega), Bytes.read32_write32_self _ (by omega)]
  · unfold Apart at *
    rw [chained.linkBefore_eq, nextOf, Bytes.read32_write32_of_disjoint _ _ (by omega),
      Bytes.read32_write32_self _ (by omega)]
  · rw [chained.linkBefore_eq, prevOf, Bytes.read32_write32_self _ (by omega)]
  · intro other member
    exact nextKept other (fresh other (by simp [member]))
      (crossApart other member left (.inl rfl)).symm
      (.inr (crossApart other member right (.inr (.inl rfl))).symm)
  · intro other member
    have member := List.mem_of_mem_tail member
    rw [List.mem_append, List.mem_singleton] at member
    rcases member with member | rfl
    · exact prevKept other (fresh other (by simp [member]))
        (crossApart other member right (.inr (.inl rfl))).symm
        (.inr (crossApart other member left (.inl rfl)).symm)
    · exact prevKept other freshLeft leftRight.symm (.inl rfl)
  · intro other member
    rw [List.mem_cons] at member
    rcases member with rfl | member
    · exact nextKept other freshRight leftRight (.inl rfl)
    · exact nextKept other (fresh other (by simp [member])) (leftApart other (.inr member))
        (.inr (rightApart other member))
  · intro other member
    exact prevKept other (fresh other (by simp [member])) (rightApart other member)
      (.inr (leftApart other (.inr member)))
  · simp only [List.pairwise_append, List.pairwise_cons, List.mem_cons]
    refine ⟨frontApart, ⟨?_, ?_, rightApart, backApart⟩, ?_⟩
    · rintro other (rfl | member)
      · exact freshLeft.symm
      · exact leftApart other member
    · intro other member
      exact fresh other (by rcases member with rfl | member <;> simp [*])
    · rintro other member node (rfl | rfl | member')
      · exact crossApart other member node (.inl rfl)
      · exact (fresh other (by simp [member])).symm
      · exact crossApart other member node (.inr member')
  · intro node member
    simp only [List.mem_append, List.mem_cons] at member
    rcases member with member | rfl | rfl | member
    · exact chained.small node (by simp [member])
    · exact leftSmall
    · exact small
    · exact chained.small node (by simp [member])

/-- Unlinking writes the two neighbours only. -/
theorem linkRemove_eq (chained : Chained mem (front ++ left :: elem :: right :: back)) :
    linkRemove mem elem = (mem.write32 (left + 4) right).write32 right left := by
  have leftElem := chained.links.neighbours
  have elemRight : nextOf mem elem = right ∧ prevOf mem right = elem := by
    have links : Linked (nextOf mem) (prevOf mem) ((front ++ [left]) ++ elem :: right :: back) := by
      simpa using chained.links
    exact links.neighbours
  have apart : Apart 8 left elem := by
    have pairwise := chained.apart
    simp only [List.pairwise_append, List.pairwise_cons] at pairwise
    exact pairwise.2.1.1 elem (by simp)
  have prevElem : prevOf (mem.write32 (left + 4) right) elem = left := by
    rw [prevOf, Bytes.read32_write32_of_disjoint _ _ (by unfold Apart at apart; omega)]
    exact leftElem.2
  have nextElem : nextOf (mem.write32 (left + 4) right) elem = right := by
    rw [nextOf, Bytes.read32_write32_of_disjoint _ _ (by unfold Apart at apart; omega)]
    exact elemRight.1
  simp only [linkRemove, leftElem.2, elemRight.1, prevElem, nextElem]

/-- Unlinking changes bytes of the two neighbours only. -/
theorem linkRemove_of_outside (chained : Chained mem (front ++ left :: elem :: right :: back))
    {query : Nat} (outside : Outside [left, right] query) :
    linkRemove mem elem query = mem query := by
  simp only [Outside, List.mem_cons, List.not_mem_nil, or_false, forall_eq_or_imp,
    forall_eq] at outside
  rw [chained.linkRemove_eq, Bytes.write32_of_outside _ _ (by omega),
    Bytes.write32_of_outside _ _ (by omega)]

/-- Unlinking an entry leaves the chain of the others. -/
theorem linkRemove (chained : Chained mem (front ++ left :: elem :: right :: back)) :
    Chained (linkRemove mem elem) (front ++ left :: right :: back) := by
  have pairwise := chained.apart
  simp only [List.pairwise_append, List.pairwise_cons, List.mem_cons] at pairwise
  obtain ⟨frontApart, ⟨leftApart, elemApart, rightApart, backApart⟩, crossApart⟩ := pairwise
  have leftRight : Apart 8 left right := leftApart right (.inr (.inl rfl))
  have leftSmall := chained.small left (by simp)
  have rightSmall := chained.small right (by simp)
  have nextKept : ∀ other, Apart 8 left other → (other = right ∨ Apart 8 right other) →
      nextOf (Pumelo.linkRemove mem elem) other = nextOf mem other := by
    intro other leftOther rightOther
    unfold Apart at *
    rw [chained.linkRemove_eq, nextOf, nextOf, Bytes.read32_write32_of_disjoint _ _ (by omega),
      Bytes.read32_write32_of_disjoint _ _ (by omega)]
  have prevKept : ∀ other, Apart 8 right other → (other = left ∨ Apart 8 left other) →
      prevOf (Pumelo.linkRemove mem elem) other = prevOf mem other := by
    intro other rightOther leftOther
    unfold Apart at *
    rw [chained.linkRemove_eq, prevOf, prevOf, Bytes.read32_write32_of_disjoint _ _ (by omega),
      Bytes.read32_write32_of_disjoint _ _ (by omega)]
  refine ⟨chained.links.unlink ?_ ?_ ?_ ?_ ?_ ?_, ?_, ?_⟩
  · unfold Apart at *
    rw [chained.linkRemove_eq, nextOf, Bytes.read32_write32_of_disjoint _ _ (by omega),
      Bytes.read32_write32_self _ (by omega)]
  · rw [chained.linkRemove_eq, prevOf, Bytes.read32_write32_self _ (by omega)]
  · intro other member
    exact nextKept other (crossApart other member left (.inl rfl)).symm
      (.inr (crossApart other member right (.inr (.inr (.inl rfl)))).symm)
  · intro other member
    have member := List.mem_of_mem_tail member
    rw [List.mem_append, List.mem_singleton] at member
    rcases member with member | rfl
    · exact prevKept other (crossApart other member right (.inr (.inr (.inl rfl)))).symm
        (.inr (crossApart other member left (.inl rfl)).symm)
    · exact prevKept other leftRight.symm (.inl rfl)
  · intro other member
    rw [List.mem_cons] at member
    rcases member with rfl | member
    · exact nextKept other leftRight (.inl rfl)
    · exact nextKept other (leftApart other (.inr (.inr member)))
        (.inr (rightApart other member))
  · intro other member
    exact prevKept other (rightApart other member) (.inr (leftApart other (.inr (.inr member))))
  · simp only [List.pairwise_append, List.pairwise_cons, List.mem_cons]
    refine ⟨frontApart, ⟨fun other member => leftApart other (.inr member), rightApart,
      backApart⟩, ?_⟩
    rintro other member node (rfl | member')
    · exact crossApart other member node (.inl rfl)
    · exact crossApart other member node (.inr (.inr member'))
  · intro node member
    simp only [List.mem_append, List.mem_cons] at member
    exact chained.small node (by rcases member with member | rfl | rfl | member <;> simp [*])

end Chained

/-! ## Lists -/

/-- The entries of a list, header and tailer included. -/
def listNodes (plist : Nat) (elems : List Nat) : List Nat := plist :: elems ++ [tailer plist]

/-- The list at `plist` holds exactly `elems`, in this order. -/
def ListAt (mem : Bytes) (plist : Nat) (elems : List Nat) : Prop :=
  Chained mem (listNodes plist elems)

theorem mem_listNodes {plist node : Nat} {elems : List Nat} :
    node ∈ listNodes plist elems ↔ node = plist ∨ node ∈ elems ∨ node = tailer plist := by
  simp [listNodes]

/-- `list_init` makes an empty list. -/
theorem linkInit_listAt (mem : Bytes) {plist : Nat} (small : plist + 16 ≤ 2 ^ 32) :
    ListAt (linkInit mem plist) plist [] := by
  have next : nextOf (linkInit mem plist) plist = tailer plist := by
    simp only [linkInit, nextOf, tailer]
    rw [Bytes.read32_write32_of_disjoint _ _ (by omega),
      Bytes.read32_write32_of_disjoint _ _ (by omega), Bytes.read32_write32_self _ (by omega)]
  have prev : prevOf (linkInit mem plist) (tailer plist) = plist := by
    simp only [linkInit, prevOf, tailer]
    rw [Bytes.read32_write32_of_disjoint _ _ (by omega), Bytes.read32_write32_self _ (by omega)]
  refine ⟨⟨next, prev, trivial⟩, ?_, ?_⟩
  · simp [listNodes, Apart, tailer]
  · simp only [mem_listNodes, List.not_mem_nil, false_or, forall_eq_or_imp, forall_eq, tailer]
    omega

theorem linkInit_of_outside (mem : Bytes) {plist query : Nat}
    (outside : query < plist ∨ plist + 16 ≤ query) : linkInit mem plist query = mem query := by
  simp only [linkInit, tailer]
  rw [Bytes.write32_of_outside _ _ (by omega), Bytes.write32_of_outside _ _ (by omega),
    Bytes.write32_of_outside _ _ (by omega), Bytes.write32_of_outside _ _ (by omega)]

namespace ListAt

variable {mem mem' : Bytes} {plist elem : Nat} {elems : List Nat}

theorem nodup (list : ListAt mem plist elems) : elems.Nodup := by
  have apart := list.apart
  simp only [listNodes, List.cons_append, List.pairwise_cons, List.pairwise_append] at apart
  exact nodup_of_pairwise_apart (by decide) apart.2.1

theorem tailer_not_mem (list : ListAt mem plist elems) : tailer plist ∉ elems := by
  have apart := list.apart
  simp only [listNodes, List.cons_append, List.pairwise_cons, List.pairwise_append] at apart
  intro member
  exact (apart.2.2.2 _ member (tailer plist) (by simp)).ne (by decide) rfl

/-- A list depends on the bytes of its entries only. -/
theorem congr (list : ListAt mem plist elems)
    (agree : ∀ query, ¬Outside (listNodes plist elems) query → mem' query = mem query) :
    ListAt mem' plist elems :=
  Chained.congr list agree

/-- An empty list depends on its header and tailer only. -/
theorem nil_congr (list : ListAt mem plist [])
    (agree : ∀ query, plist ≤ query → query < plist + 16 → mem' query = mem query) :
    ListAt mem' plist [] := by
  refine list.congr fun query inside => ?_
  by_contra changed
  refine inside fun node isNode => ?_
  by_contra near
  simp only [mem_listNodes, List.not_mem_nil, false_or, tailer] at isNode
  exact changed (agree query (by omega) (by omega))

theorem next_cons (list : ListAt mem plist (elem :: elems)) : nextOf mem plist = elem :=
  list.links.1

/-- A list is empty when its header points at its tailer. -/
theorem listEmpty_iff (list : ListAt mem plist elems) : listEmpty mem plist ↔ elems = [] := by
  cases elems with
  | nil => exact iff_of_true list.links.1 rfl
  | cons head rest =>
      refine iff_of_false ?_ (by simp)
      rw [listEmpty, list.next_cons]
      intro equal
      exact list.tailer_not_mem (by simp [equal])

/-- The last entry before the tailer, with the entries in front of it. -/
theorem exists_last (plist : Nat) (elems : List Nat) :
    ∃ front last, listNodes plist elems = front ++ last :: tailer plist :: [] ∧
      (∀ elem, plist :: elems ++ elem :: [tailer plist] =
        front ++ last :: elem :: tailer plist :: []) ∧ last ∈ plist :: elems := by
  obtain ⟨front, last, split⟩ := List.eq_nil_or_concat' (plist :: elems) |>.resolve_left (by simp)
  refine ⟨front, last, ?_, ?_, ?_⟩
  · simp [listNodes, split]
  · intro elem
    simp [split]
  · simp [split]

/-- `list_append` adds a fresh entry at the end. -/
theorem append (list : ListAt mem plist elems)
    (fresh : ∀ node ∈ listNodes plist elems, Apart 8 elem node) (small : elem + 8 ≤ 2 ^ 32) :
    ListAt (linkBefore mem (tailer plist) elem) plist (elems ++ [elem]) := by
  obtain ⟨front, last, split, splitAppend, -⟩ := exists_last plist elems
  have chained : Chained mem (front ++ last :: tailer plist :: []) := split ▸ list
  have linked := chained.linkBefore (fun node member => fresh node (split ▸ member)) small
  rw [← splitAppend] at linked
  simpa [ListAt, listNodes] using linked

/-- `list_append` changes bytes of the list's entries and the new one only. -/
theorem append_of_outside (list : ListAt mem plist elems) {query : Nat}
    (outside : Outside (elem :: listNodes plist elems) query) :
    linkBefore mem (tailer plist) elem query = mem query := by
  obtain ⟨front, last, split, -, lastMem⟩ := exists_last plist elems
  have chained : Chained mem (front ++ last :: tailer plist :: []) := split ▸ list
  apply chained.linkBefore_of_outside
  intro node member
  apply outside
  simp only [List.mem_cons, List.not_mem_nil, or_false] at member lastMem
  rw [List.mem_cons, mem_listNodes]
  rcases member with rfl | rfl | rfl
  · exact .inr (by tauto)
  · exact .inl rfl
  · exact .inr (.inr (.inr rfl))

/-- `list_push` adds a fresh entry at the front. -/
theorem push (list : ListAt mem plist elems)
    (fresh : ∀ node ∈ listNodes plist elems, Apart 8 elem node) (small : elem + 8 ≤ 2 ^ 32) :
    ListAt (linkBefore mem (nextOf mem plist) elem) plist (elem :: elems) := by
  cases elems with
  | nil =>
      rw [show nextOf mem plist = tailer plist from list.links.1]
      exact list.append fresh small
  | cons head rest =>
      rw [list.next_cons]
      have chained : Chained mem ([] ++ plist :: head :: (rest ++ [tailer plist])) := list
      exact chained.linkBefore fresh small

/-- `list_push` changes bytes of the list's entries and the new one only. -/
theorem push_of_outside (list : ListAt mem plist elems) {query : Nat}
    (outside : Outside (elem :: listNodes plist elems) query) :
    linkBefore mem (nextOf mem plist) elem query = mem query := by
  cases elems with
  | nil =>
      rw [show nextOf mem plist = tailer plist from list.links.1]
      exact list.append_of_outside outside
  | cons head rest =>
      rw [list.next_cons]
      have chained : Chained mem ([] ++ plist :: head :: (rest ++ [tailer plist])) := list
      apply chained.linkBefore_of_outside
      intro node member
      apply outside
      simp only [mem_listNodes, List.mem_cons, List.not_mem_nil, or_false] at member ⊢
      tauto

/-- An entry of a list with its neighbours. -/
theorem exists_neighbours (plist elem : Nat) (front back : List Nat) :
    ∃ before left right after,
      listNodes plist (front ++ elem :: back) = before ++ left :: elem :: right :: after ∧
      listNodes plist (front ++ back) = before ++ left :: right :: after ∧
      left ∈ listNodes plist (front ++ back) ∧ right ∈ listNodes plist (front ++ back) := by
  obtain ⟨before, left, splitFront⟩ :=
    List.eq_nil_or_concat' (plist :: front) |>.resolve_left (by simp)
  obtain ⟨right, after, splitBack⟩ :=
    @List.exists_cons_of_ne_nil _ (back ++ [tailer plist]) (by simp)
  have nodes : listNodes plist (front ++ back) = before ++ left :: right :: after := by
    rw [listNodes, ← List.cons_append, List.append_assoc, splitBack, splitFront]
    simp
  refine ⟨before, left, right, after, ?_, nodes, by simp [nodes], by simp [nodes]⟩
  calc
    listNodes plist (front ++ elem :: back) =
      (plist :: front) ++ elem :: (back ++ [tailer plist]) := by
      simp [listNodes]
    _ = before ++ left :: elem :: right :: after := by
      rw [splitFront, splitBack]
      simp

/-- `list_remove` takes out an entry wherever it stands. -/
theorem remove {front back : List Nat} (list : ListAt mem plist (front ++ elem :: back)) :
    ListAt (linkRemove mem elem) plist (front ++ back) := by
  obtain ⟨before, left, right, after, split, nodes, -⟩ := exists_neighbours plist elem front back
  have chained : Chained mem (before ++ left :: elem :: right :: after) := split ▸ list
  rw [ListAt, nodes]
  exact chained.linkRemove

/-- `list_remove` changes bytes of the remaining entries only. -/
theorem remove_of_outside {front back : List Nat}
    (list : ListAt mem plist (front ++ elem :: back)) {query : Nat}
    (outside : Outside (listNodes plist (front ++ back)) query) :
    linkRemove mem elem query = mem query := by
  obtain ⟨before, left, right, after, split, -, leftMem, rightMem⟩ :=
    exists_neighbours plist elem front back
  have chained : Chained mem (before ++ left :: elem :: right :: after) := split ▸ list
  apply chained.linkRemove_of_outside
  intro node member
  simp only [List.mem_cons, List.not_mem_nil, or_false] at member
  rcases member with rfl | rfl
  · exact outside _ leftMem
  · exact outside _ rightMem

/-- The walk of `list_find` from any entry on. -/
private theorem listFindFrom_eq {target fuel : Nat} {rest : List Nat} {from' : Nat}
    (linked : Linked (nextOf mem) (prevOf mem) (from' :: rest ++ [tailer plist]))
    (inner : tailer plist ∉ from' :: rest) (enough : rest.length + 2 ≤ fuel) :
    listFindFrom mem plist target from' fuel = .ok (decide (target ∈ from' :: rest)) := by
  induction rest generalizing from' fuel with
  | nil =>
      obtain ⟨fuel, rfl⟩ := Nat.exists_eq_add_of_le' enough
      have notTailer : from' ≠ tailer plist := by
        rintro rfl
        exact inner (by simp)
      have next : nextOf mem from' = tailer plist := linked.1
      simp only [listFindFrom, next, if_neg notTailer, if_true]
      by_cases found : from' = target
      · simp [found]
      · simp [found, Ne.symm found]
  | cons head rest ih =>
      simp only [List.length_cons] at enough
      obtain ⟨fuel, rfl⟩ : ∃ left, fuel = left + 1 := ⟨fuel - 1, by omega⟩
      have notTailer : from' ≠ tailer plist := by
        rintro rfl
        exact inner (by simp)
      have next : nextOf mem from' = head := linked.1
      simp only [listFindFrom, if_neg notTailer, next]
      by_cases found : from' = target
      · simp [found]
      · rw [if_neg found, ih linked.tail (fun member => inner (List.mem_cons_of_mem _ member))
          (by omega)]
        simp [Ne.symm found]

/-- Entries of 8 bytes that do not overlap are at most so many. -/
theorem length_le (list : ListAt mem plist elems) : elems.length ≤ 2 ^ 29 := by
  have apart := list.apart
  simp only [listNodes, List.cons_append, List.pairwise_cons, List.pairwise_append] at apart
  apply length_le_of_apart (show 0 < 8 by decide) apart.2.1
  intro node member
  have small := list.small node (mem_listNodes.mpr (.inr (.inl member)))
  omega

/-- `list_find` decides membership. -/
theorem listFind_eq (list : ListAt mem plist elems) (target : Nat) :
    listFind mem plist target = .ok (decide (target ∈ elems)) := by
  have length := list.length_le
  cases elems with
  | nil =>
      have next : nextOf mem plist = tailer plist := list.links.1
      rw [listFind, next]
      simp [listFindFrom]
  | cons head rest =>
      rw [List.length_cons] at length
      rw [listFind, list.next_cons]
      exact listFindFrom_eq list.links.tail list.tailer_not_mem (by omega)

/-- The entry behind the first ones: the next element, or the tailer. -/
def entryAt (plist : Nat) (rest : List Nat) : Nat := rest.headD (tailer plist)

/-- Every entry points at what comes behind it. -/
theorem next_at {done rest : List Nat} (list : ListAt mem plist (done ++ elem :: rest)) :
    nextOf mem elem = entryAt plist rest := by
  cases rest with
  | nil =>
      have links : Linked (nextOf mem) (prevOf mem)
          ((plist :: done) ++ elem :: tailer plist :: []) := by
        simpa [listNodes] using list.links
      exact links.neighbours.1
  | cons head rest =>
      have links : Linked (nextOf mem) (prevOf mem)
          ((plist :: done) ++ elem :: head :: (rest ++ [tailer plist])) := by
        simpa [listNodes] using list.links
      exact links.neighbours.1

theorem next_plist (list : ListAt mem plist elems) : nextOf mem plist = entryAt plist elems := by
  cases elems with
  | nil => exact list.links.1
  | cons head rest => exact list.next_cons

/-- The last of the first entries points at what comes behind them. -/
theorem next_last {done rest : List Nat} (list : ListAt mem plist (done ++ rest)) :
    nextOf mem (done.getLastD plist) = entryAt plist rest := by
  induction done using List.reverseRecOn with
  | nil => exact list.next_plist
  | append_singleton front last _ =>
      rw [List.append_assoc, List.singleton_append] at list
      rw [List.getLastD_concat]
      exact list.next_at

theorem rest_unique {done rest rest' : List Nat} (list : ListAt mem plist (done ++ rest))
    (list' : ListAt mem plist (done ++ rest')) : rest = rest' := by
  have entry : entryAt plist rest = entryAt plist rest' := list.next_last.symm.trans list'.next_last
  induction rest generalizing done rest' with
  | nil =>
      cases rest' with
      | nil => rfl
      | cons head rest' =>
          have last : tailer plist = head := entry
          exact absurd (by simp [last]) list'.tailer_not_mem
  | cons head rest ih =>
      cases rest' with
      | nil =>
          have last : head = tailer plist := entry
          exact absurd (by simp [last]) list.tailer_not_mem
      | cons head' rest' =>
          have same : head = head' := entry
          subst same
          have whole := List.append_cons done head rest ▸ list
          have whole' := List.append_cons done head rest' ▸ list'
          rw [ih whole whole' (whole.next_last.symm.trans whole'.next_last)]

/-- A list is at one address once. -/
theorem unique {elems' : List Nat} (list : ListAt mem plist elems)
    (list' : ListAt mem plist elems') :
    elems = elems' :=
  @rest_unique _ _ [] _ _ list list'

/-- The walk of `list_len` from any entry on. -/
theorem listLenFrom_eq {fuel counter : Nat} {done rest : List Nat}
    (list : ListAt mem plist (done ++ rest)) (enough : rest.length < fuel)
    (small : counter + rest.length < 2 ^ 32) :
    listLenFrom mem plist (entryAt plist rest) counter fuel = .ok (counter + rest.length) := by
  induction rest generalizing done fuel counter with
  | nil =>
      obtain ⟨fuel, rfl⟩ := Nat.exists_eq_add_of_lt enough
      exact if_pos rfl
  | cons head rest ih =>
      rw [List.length_cons] at enough small ⊢
      obtain ⟨fuel, rfl⟩ : ∃ left, fuel = left + 1 := ⟨fuel - 1, by omega⟩
      have inner : head ≠ tailer plist := by
        rintro rfl
        exact list.tailer_not_mem (by simp)
      rw [listLenFrom, entryAt, List.headD_cons, if_neg inner, list.next_at,
        Nat.mod_eq_of_lt (by omega)]
      rw [ih (List.append_cons done head rest ▸ list) (by omega) (by omega)]
      refine congrArg Except.ok ?_
      omega

/-- `list_len` counts the elements. -/
theorem listLen_eq (list : ListAt mem plist elems) :
    listLen mem plist = .ok elems.length := by
  have length := list.length_le
  have walk : ListAt mem plist ([] ++ elems) := list
  rw [listLen, list.next_plist, walk.listLenFrom_eq (by omega) (by omega), Nat.zero_add]

/-- The walk of `list_traversal` from any entry on, when no call changes the list. -/
theorem listTraversalFrom_eq {func : Machine → Nat → Except Fault Machine}
    (keeps : ∀ m elem m', func m elem = .ok m' → ListAt m.mem plist elems →
      ListAt m'.mem plist elems) {m : Machine} {fuel : Nat} {done rest : List Nat}
    (split : elems = done ++ rest) (list : ListAt m.mem plist elems)
    (enough : rest.length < fuel) :
    listTraversalFrom func m plist (entryAt plist rest) fuel = rest.foldlM func m := by
  induction rest generalizing done fuel m with
  | nil =>
      obtain ⟨fuel, rfl⟩ := Nat.exists_eq_add_of_lt enough
      exact if_pos rfl
  | cons head rest ih =>
      rw [List.length_cons] at enough
      obtain ⟨fuel, rfl⟩ : ∃ left, fuel = left + 1 := ⟨fuel - 1, by omega⟩
      have inner : head ≠ tailer plist := by
        rintro rfl
        exact list.tailer_not_mem (by simp [split])
      rw [listTraversalFrom, entryAt, List.headD_cons, if_neg inner, List.foldlM_cons]
      cases run : func m head with
      | error failure => rfl
      | ok m' =>
          have list := keeps m head m' run list
          have next : nextOf m'.mem head = entryAt plist rest := (split ▸ list).next_at
          rw [bind_ok rfl, bind_ok rfl, next]
          exact ih (split.trans (List.append_cons done head rest)) list (by omega)

/-- `list_traversal` calls for each element, in order. -/
theorem listTraversal_eq {m : Machine} {func : Machine → Nat → Int → Except Fault Machine}
    {arg : Int} {fuel : Nat}
    (keeps : ∀ m elem m', func m elem arg = .ok m' → ListAt m.mem plist elems →
      ListAt m'.mem plist elems)
    (list : ListAt m.mem plist elems) (enough : elems.length < fuel) :
    listTraversal m plist func arg fuel = elems.foldlM (fun m elem => func m elem arg) m := by
  unfold listTraversal
  split
  · next empty =>
      obtain rfl := list.listEmpty_iff.mp empty
      rfl
  · rw [list.next_plist]
    exact listTraversalFrom_eq keeps (List.nil_append _).symm list enough

end ListAt

end Pumelo
