import Pumelo.PartitionScan

/-!
# Slots of discovered partitions

When `partition_scan` records every partition in a slot of its own.  The counter of
the primary slots stands still once an extended entry has been entered, so that two
entries of type 0x83 behind it share a slot; and the scan leaves a sector at the
eighth entry of type 0x66, so that it misses what the sector describes behind it.
-/

namespace Pumelo

open Foundation

/-- The slots given out lie below the counters, but for one that the counter stands at
because it no longer advances; `used` is 1 if there is one. -/
structure Marks.Placed (marks : Marks) (used : Nat) : Prop where
  prims : ∀ index, .prim index ∈ marks.slots → index < marks.pNo + used
  logics : ∀ index, .logic index ∈ marks.slots → index < marks.lNo
  last : used ≠ 0 → .prim marks.pNo ∈ marks.slots ∧ marks.entered = true
  once : used ≤ 1

namespace Marks

variable {marks marks' : Marks} {used : Nat} {lba : UInt32} {p : PartitionTableEntry}

theorem slots_prim : (marks.prim lba p).slots = marks.slots ++ [.prim marks.pNo] := by
  simp [slots, prim]

theorem slots_logic : (marks.logic lba p).slots = marks.slots ++ [.logic marks.lNo] := by
  simp [slots, logic]

theorem nodup_prim (marks : Marks) (lba : UInt32) (p : PartitionTableEntry)
    (nodup : marks.slots.Nodup) (fresh : .prim marks.pNo ∉ marks.slots) :
    (marks.prim lba p).slots.Nodup := by
  rw [slots_prim, ← List.concat_eq_append]
  exact nodup.concat fresh

theorem nodup_logic (marks : Marks) (lba : UInt32) (p : PartitionTableEntry)
    (nodup : marks.slots.Nodup) (fresh : .logic marks.lNo ∉ marks.slots) :
    (marks.logic lba p).slots.Nodup := by
  rw [slots_logic, ← List.concat_eq_append]
  exact nodup.concat fresh

namespace Placed

theorem not_mem_prim (placed : marks.Placed 0) : .prim marks.pNo ∉ marks.slots :=
  fun member => Nat.lt_irrefl _ (placed.prims _ member)

theorem not_mem_logic (placed : marks.Placed used) : .logic marks.lNo ∉ marks.slots :=
  fun member => Nat.lt_irrefl _ (placed.logics _ member)

theorem used_eq_zero (placed : marks.Placed used) (outside : ¬marks.entered = true) : used = 0 :=
  by_contra fun nonzero => outside (placed.last nonzero).2

theorem prim (placed : marks.Placed used) (fresh : marks.entered = true → used = 0) :
    (marks.prim lba p).Placed (used + if marks.entered then 1 else 0) := by
  have zero : used = 0 := by
    by_cases entered : marks.entered = true
    · exact fresh entered
    · exact placed.used_eq_zero entered
  subst zero
  have next : marks.pNext + (if marks.entered then 1 else 0) = marks.pNo + 1 := by
    rw [pNext]
    split <;> rfl
  constructor
  · intro index member
    rw [slots_prim, List.mem_append, List.mem_singleton] at member
    have below : index ≤ marks.pNo := by
      rcases member with member | equal
      · exact Nat.le_of_lt (placed.prims index member)
      · cases equal
        exact Nat.le_refl _
    rw [Nat.zero_add]
    exact Nat.lt_of_lt_of_eq (Nat.lt_succ_of_le below) next.symm
  · intro index member
    rw [slots_prim, List.mem_append, List.mem_singleton] at member
    rcases member with member | equal
    · exact placed.logics index member
    · cases equal
  · intro nonzero
    have entered : marks.entered = true := by
      by_contra outside
      simp [outside] at nonzero
    rw [slots_prim]
    refine ⟨?_, entered⟩
    have same : (marks.prim lba p).pNo = marks.pNo := if_pos entered
    rw [same]
    exact List.mem_append_right _ (List.mem_singleton.mpr rfl)
  · split <;> decide

theorem logic (placed : marks.Placed used) : (marks.logic lba p).Placed used := by
  constructor
  · intro index member
    rw [slots_logic, List.mem_append, List.mem_singleton] at member
    exact placed.prims index (member.resolve_right nofun)
  · intro index member
    rw [slots_logic, List.mem_append, List.mem_singleton] at member
    rcases member with member | equal
    · exact Nat.lt_succ_of_lt (placed.logics index member)
    · cases equal
      exact Nat.lt_succ_self _
  · intro nonzero
    rw [slots_logic]
    exact ⟨List.mem_append_left _ (placed.last nonzero).1, (placed.last nonzero).2⟩
  · exact placed.once

theorem skip (placed : marks.Placed used) : marks.skip.Placed used := by
  have grows := marks.pNo_le_pNext
  refine ⟨fun index member => ?_, placed.logics, fun nonzero => ?_, placed.once⟩
  · exact Nat.lt_of_lt_of_le (placed.prims index member) (Nat.add_le_add_right grows used)
  · obtain ⟨member, entered⟩ := placed.last nonzero
    have same : marks.skip.pNo = marks.pNo := if_pos entered
    rw [same]
    exact ⟨member, entered⟩

theorem enter (placed : marks.Placed used) : marks.enter.Placed used :=
  ⟨placed.prims, placed.logics, fun nonzero => ⟨(placed.last nonzero).1, rfl⟩, placed.once⟩

end Placed

end Marks

namespace PartTree

variable {marks marks' : Marks} {used : Nat} {tree : PartTree}

/-- A tree without partitions has none of either kind. -/
theorem counts_of_empty (empty : tree.entries = []) (entered : Bool) :
    tree.logical = 0 ∧ tree.late entered = 0 := by
  induction tree generalizing entered with
  | done => exact ⟨rfl, rfl⟩
  | entry lba p rest ih =>
      simp only [entries] at empty
      split at empty
      · cases empty
      · next other =>
          rw [not_or] at other
          have counts := ih empty entered
          simp [logical, late, other, counts]
  | extended inner rest ihInner ihRest =>
      rw [entries, List.append_eq_nil_iff] at empty
      simp [logical, late, ihInner empty.1 true, ihRest empty.2 true]

/-- A walk adds entries behind those recorded, at most as many as the tree has. -/
theorem walk_recorded (run : tree.walk marks = some marks') :
    ∃ added, marks'.recorded = marks.recorded ++ added ∧
      added.length ≤ tree.entries.length := by
  induction tree generalizing marks marks' with
  | done =>
      cases run
      exact ⟨[], by simp, by simp⟩
  | entry lba p rest ih =>
      have more : ∀ {between : Marks} {entry}, rest.walk between = some marks' →
          between.recorded = marks.recorded ++ [entry] → (p.fsType = 0x83 ∨ p.fsType = 0x66) →
          ∃ added, marks'.recorded = marks.recorded ++ added ∧
            added.length ≤ (PartTree.entry lba p rest).entries.length := by
        intro between entry run grown kind
        obtain ⟨added, equal, short⟩ := ih run
        refine ⟨entry :: added, by rw [equal, grown, List.append_assoc]; rfl, ?_⟩
        simp only [entries]
        rw [if_pos kind]
        exact Nat.succ_le_succ short
      have same : ∀ {between : Marks}, rest.walk between = some marks' →
          between.recorded = marks.recorded →
          ∃ added, marks'.recorded = marks.recorded ++ added ∧
            added.length ≤ (PartTree.entry lba p rest).entries.length := by
        intro between run kept
        obtain ⟨added, equal, short⟩ := ih run
        refine ⟨added, by rw [equal, kept], short.trans ?_⟩
        simp only [entries]
        split
        · exact Nat.le_succ _
        · exact Nat.le_refl _
      rw [walk] at run
      split at run
      · next linux =>
          split at run
          · exact more run rfl (.inl linux)
          · cases run
      · split at run
        · split at run
          · exact same run rfl
          · cases run
        · split at run
          · next logical =>
              split at run
              · split at run
                · cases run
                  refine ⟨[(.logic marks.lNo, lba, p)], rfl, ?_⟩
                  simp only [entries]
                  rw [if_pos (.inr logical)]
                  exact Nat.succ_le_succ (Nat.zero_le _)
                · exact more run rfl (.inr logical)
              · cases run
          · exact same run rfl
  | extended inner rest ihInner ihRest =>
      rw [walk, Option.bind_eq_some_iff] at run
      obtain ⟨between, runInner, runRest⟩ := run
      obtain ⟨added, equal, short⟩ := ihInner runInner
      obtain ⟨added', equal', short'⟩ := ihRest runRest
      refine ⟨added ++ added', by rw [equal', equal, List.append_assoc]; rfl, ?_⟩
      rw [entries, List.length_append, List.length_append]
      omega

/-- What the counters are after a walk that misses no entry. -/
structure Walked (tree : PartTree) (marks marks' : Marks) (used : Nat) : Prop where
  placed : marks'.Placed (used + tree.late marks.entered)
  lNo : marks'.lNo = marks.lNo + tree.logical
  base : marks.entered = true → marks'.entered = true ∧ marks'.pNo = marks.pNo

namespace Walked

variable {inner rest : PartTree} {between : Marks} {lba : UInt32} {p : PartitionTableEntry}

theorem linux (walked : rest.Walked (marks.prim lba p) marks'
      (used + if marks.entered then 1 else 0)) (kind : p.fsType = 0x83) :
    (PartTree.entry lba p rest).Walked marks marks' used := by
  obtain ⟨placed, lNo, base⟩ := walked
  have entered : (marks.prim lba p).entered = marks.entered := rfl
  have counter : (marks.prim lba p).lNo = marks.lNo := rfl
  have different : (0x83 : UInt8) ≠ 0x66 := by decide
  refine ⟨?_, ?_, fun set => ?_⟩
  · simpa [late, kind, entered, Nat.add_assoc] using placed
  · simpa [logical, kind, different, counter] using lNo
  · exact ⟨(base set).1, (base set).2.trans (if_pos set)⟩

theorem logic (walked : rest.Walked (marks.logic lba p) marks' used) (kind : p.fsType = 0x66) :
    (PartTree.entry lba p rest).Walked marks marks' used := by
  obtain ⟨placed, lNo, base⟩ := walked
  have entered : (marks.logic lba p).entered = marks.entered := rfl
  have counter : (marks.logic lba p).lNo = marks.lNo + 1 := rfl
  refine ⟨?_, ?_, base⟩
  · simpa [late, kind, entered] using placed
  · simpa [logical, kind, counter, Nat.add_assoc] using lNo

/-- After the last partition nothing changes. -/
theorem last {tree : PartTree} (placed : marks.Placed used) (empty : tree.entries = []) :
    tree.Walked marks marks used := by
  have counts := counts_of_empty empty marks.entered
  refine ⟨?_, ?_, fun set => ⟨set, rfl⟩⟩
  · rwa [counts.2]
  · rw [counts.1]
    rfl

/-- Entries that are not recorded change no more than the counter of the primary ones. -/
theorem pass (walked : rest.Walked between marks' used) (notLinux : p.fsType ≠ 0x83)
    (notLogical : p.fsType ≠ 0x66) (entered : between.entered = marks.entered)
    (lNo : between.lNo = marks.lNo) (pNo : marks.entered = true → between.pNo = marks.pNo) :
    (PartTree.entry lba p rest).Walked marks marks' used := by
  refine ⟨?_, ?_, fun set => ?_⟩
  · simpa [late, notLinux, entered] using walked.placed
  · simpa [logical, notLogical, lNo] using walked.lNo
  · have base := walked.base (entered.trans set)
    exact ⟨base.1, base.2.trans (pNo set)⟩

theorem extended (first : inner.Walked marks.enter between used)
    (second : rest.Walked between marks' (used + inner.late true)) :
    (PartTree.extended inner rest).Walked marks marks' used := by
  have entered := (first.base rfl).1
  refine ⟨?_, ?_, fun set => ?_⟩
  · have placed := second.placed
    rw [entered, Nat.add_assoc] at placed
    exact placed
  · rw [second.lNo, first.lNo, logical, ← Nat.add_assoc]
    rfl
  · exact ⟨(second.base entered).1, (second.base entered).2.trans (first.base rfl).2⟩

end Walked

/-- If the slots of a walk are different and no entry is missed, then at most one entry of
type 0x83 comes late, and nothing is behind the eighth of type 0x66. -/
theorem walked_of_nodup (run : tree.walk marks = some marks') (placed : marks.Placed used)
    (nodup : marks'.slots.Nodup)
    (all : marks'.recorded.length = marks.recorded.length + tree.entries.length) :
    tree.Walked marks marks' used ∧ tree.EndsAtEighth marks.lNo ∧
      (marks.lNo ≤ 8 → marks'.lNo ≤ 8) := by
  induction tree generalizing marks marks' used with
  | done =>
      cases run
      exact ⟨⟨placed, rfl, fun set => ⟨set, rfl⟩⟩, trivial, id⟩
  | entry lba p rest ih =>
      have linuxLogical : (0x83 : UInt8) ≠ 0x66 := by decide
      rw [walk] at run
      rw [entries] at all
      rw [EndsAtEighth]
      split at run
      · next linux =>
          rw [if_pos (.inl linux)] at all
          rw [if_neg (linux ▸ linuxLogical)]
          split at run
          · have fresh : marks.entered = true → used = 0 := by
              intro entered
              obtain ⟨added, equal, -⟩ := walk_recorded run
              rw [Marks.slots, equal, List.map_append] at nodup
              have nodup := (List.nodup_append.mp nodup).1
              rw [← Marks.slots, Marks.slots_prim] at nodup
              by_contra nonzero
              have twice := (List.nodup_append.mp nodup).2.2 _ (placed.last nonzero).1
              exact twice _ (List.mem_singleton.mpr rfl) rfl
            have length : (marks.prim lba p).recorded.length = marks.recorded.length + 1 := by
              simp [Marks.prim]
            obtain ⟨walked, ends, room⟩ := ih run (placed.prim fresh) nodup
              (by rw [length, all, List.length_cons]; omega)
            exact ⟨walked.linux linux, ends, room⟩
          · cases run
      · next notLinux =>
          split at run
          · next empty =>
              have notLogical : p.fsType ≠ 0x66 := empty ▸ by decide
              rw [if_neg (not_or.mpr ⟨notLinux, notLogical⟩)] at all
              rw [if_neg notLogical]
              split at run
              · obtain ⟨walked, ends, room⟩ := ih run placed.skip nodup all
                exact ⟨walked.pass notLinux notLogical rfl rfl fun set => if_pos set, ends, room⟩
              · cases run
          · split at run
            · next logical =>
                rw [if_pos (.inr logical)] at all
                rw [if_pos logical]
                have length : (marks.logic lba p).recorded.length = marks.recorded.length + 1 := by
                  simp [Marks.logic]
                split at run
                · next small =>
                    split at run
                    · next full =>
                        cases run
                        rw [length, List.length_cons] at all
                        have nothing : rest.entries = [] := List.length_eq_zero_iff.mp (by omega)
                        have stays : rest.Walked (marks.logic lba p) (marks.logic lba p) used :=
                          .last placed.logic nothing
                        refine ⟨stays.logic logical, ?_, fun _ => small⟩
                        rw [if_pos (by omega)]
                        exact nothing
                    · next more =>
                        obtain ⟨walked, ends, room⟩ := ih run placed.logic nodup
                          (by rw [length, all, List.length_cons]; omega)
                        refine ⟨walked.logic logical, ?_, fun _ => room small⟩
                        rw [if_neg (by omega)]
                        exact ends
                · cases run
            · next notLogical =>
                rw [if_neg (not_or.mpr ⟨notLinux, notLogical⟩)] at all
                rw [if_neg notLogical]
                obtain ⟨walked, ends, room⟩ := ih run placed nodup all
                exact ⟨walked.pass notLinux notLogical rfl rfl fun _ => rfl, ends, room⟩
  | extended inner rest ihInner ihRest =>
      rw [walk, Option.bind_eq_some_iff] at run
      obtain ⟨between, runInner, runRest⟩ := run
      obtain ⟨added, equal, short⟩ := walk_recorded runInner
      obtain ⟨added', equal', short'⟩ := walk_recorded runRest
      have lengths : added.length = inner.entries.length ∧
          added'.length = rest.entries.length := by
        have kept : marks.enter.recorded = marks.recorded := rfl
        rw [equal', equal, kept, entries] at all
        simp only [List.length_append] at all
        omega
      have nodupInner : between.slots.Nodup := by
        rw [Marks.slots, equal', List.map_append] at nodup
        exact (List.nodup_append.mp nodup).1
      obtain ⟨walkedInner, endsInner, roomInner⟩ := ihInner runInner placed.enter nodupInner
        (by rw [equal, List.length_append, lengths.1])
      obtain ⟨walkedRest, endsRest, roomRest⟩ := ihRest runRest walkedInner.placed nodup
        (by rw [equal', List.length_append, lengths.2])
      refine ⟨walkedInner.extended walkedRest, ⟨endsInner, ?_⟩,
        fun room => roomRest (roomInner room)⟩
      rw [walkedInner.lNo] at endsRest
      exact endsRest

/-- The primary counter leaves room for the rest of a boot sector. -/
def Bounded (tree : PartTree) (marks : Marks) : Prop :=
  (marks.entered = true → marks.pNo ≤ 3) ∧ (¬marks.entered = true → marks.pNo + tree.width ≤ 4)

theorem Bounded.pNo_lt {rest : PartTree} {lba : UInt32} {p : PartitionTableEntry}
    (bounded : (PartTree.entry lba p rest).Bounded marks) : marks.pNo < 4 := by
  by_cases entered : marks.entered = true
  · exact Nat.lt_succ_of_le (bounded.1 entered)
  · have := bounded.2 entered
    rw [width] at this
    omega

/-- Entries that advance the counter keep the room. -/
theorem Bounded.rest {rest : PartTree} {between : Marks} {lba : UInt32} {p : PartitionTableEntry}
    (bounded : (PartTree.entry lba p rest).Bounded marks)
    (entered : between.entered = marks.entered) (pNo : between.pNo ≤ marks.pNext) :
    rest.Bounded between := by
  rw [Marks.pNext] at pNo
  constructor
  · intro set
    rw [if_pos (entered ▸ set)] at pNo
    exact pNo.trans (bounded.1 (entered ▸ set))
  · intro outside
    have below := bounded.2 (entered ▸ outside)
    rw [if_neg (entered ▸ outside)] at pNo
    rw [width] at below
    omega

/-- A walk that meets the condition records every entry, each in a slot of its own. -/
theorem walk_of_late (placed : marks.Placed used) (nodup : marks.slots.Nodup)
    (bounded : tree.Bounded marks) (late : used + tree.late marks.entered ≤ 1)
    (room : marks.lNo + tree.logical ≤ 8) (ends : tree.EndsAtEighth marks.lNo) :
    ∃ marks' added, tree.walk marks = some marks' ∧
      marks'.recorded = marks.recorded ++ added ∧ added.map (·.2) = tree.entries ∧
      marks'.slots.Nodup ∧ tree.Walked marks marks' used := by
  induction tree generalizing marks used with
  | done =>
      exact ⟨marks, [], rfl, by simp, rfl, nodup, placed, rfl, fun set => ⟨set, rfl⟩⟩
  | entry lba p rest ih =>
      have pNoLt := bounded.pNo_lt
      rw [EndsAtEighth] at ends
      rw [PartTree.late] at late
      rw [logical] at room
      rw [walk, entries]
      by_cases linux : p.fsType = 0x83
      · have notLogical : p.fsType ≠ 0x66 := linux ▸ by decide
        rw [if_neg notLogical, Nat.zero_add] at room
        rw [if_neg notLogical] at ends
        have zero : marks.entered = true → used = 0 := by
          intro entered
          rw [if_pos ⟨entered, linux⟩] at late
          omega
        have fresh : .prim marks.pNo ∉ marks.slots := by
          have unused : used = 0 := by
            by_cases entered : marks.entered = true
            · exact zero entered
            · exact placed.used_eq_zero entered
          exact (unused ▸ placed).not_mem_prim
        have late' : used + (if marks.entered then 1 else 0) +
            rest.late (marks.prim lba p).entered ≤ 1 := by
          rw [show (marks.prim lba p).entered = marks.entered from rfl]
          simpa only [linux, and_true, ← Nat.add_assoc] using late
        obtain ⟨marks', added, run, recorded, same, distinct, walked⟩ :=
          ih (placed.prim zero) (marks.nodup_prim lba p nodup fresh)
            (bounded.rest rfl (Nat.le_refl _))
            late' room ends
        rw [if_pos linux, if_pos pNoLt, if_pos (.inl linux)]
        refine ⟨marks', (.prim marks.pNo, lba, p) :: added, run, ?_, ?_, distinct,
          walked.linux linux⟩
        · rw [recorded]
          simp [Marks.prim]
        · simp [same]
      · rw [if_neg (fun both => linux both.2), Nat.zero_add] at late
        rw [if_neg linux]
        by_cases isLogical : p.fsType = 0x66
        · have notEmpty : p.fsType ≠ 0x0 := isLogical ▸ by decide
          have kind : p.fsType = 0x83 ∨ p.fsType = 0x66 := .inr isLogical
          rw [if_pos isLogical] at ends room
          have small : marks.lNo < 8 := by omega
          have nodup' := marks.nodup_logic lba p nodup placed.not_mem_logic
          rw [if_neg notEmpty, if_pos isLogical, if_pos small, if_pos kind]
          by_cases full : marks.lNo + 1 ≥ 8
          · rw [if_pos (by omega)] at ends
            have stays : rest.Walked (marks.logic lba p) (marks.logic lba p) used :=
              .last placed.logic ends
            rw [if_pos full]
            exact ⟨_, [(.logic marks.lNo, lba, p)], rfl, rfl, by simp [ends], nodup',
              stays.logic isLogical⟩
          · rw [if_neg (by omega)] at ends
            obtain ⟨marks', added, run, recorded, same, distinct, walked⟩ :=
              ih placed.logic nodup' (bounded.rest rfl marks.pNo_le_pNext) late
                ((Nat.add_assoc ..).trans_le room) ends
            rw [if_neg full]
            refine ⟨marks', (.logic marks.lNo, lba, p) :: added, run, ?_, ?_, distinct,
              walked.logic isLogical⟩
            · rw [recorded]
              simp [Marks.logic]
            · simp [same]
        · rw [if_neg isLogical] at ends room
          rw [Nat.zero_add] at room
          rw [if_neg isLogical, if_neg (not_or.mpr ⟨linux, isLogical⟩)]
          by_cases empty : p.fsType = 0x0
          · obtain ⟨marks', added, run, recorded, same, distinct, walked⟩ :=
              ih placed.skip nodup (bounded.rest rfl (Nat.le_refl _)) late room ends
            rw [if_pos empty, if_pos (marks.pNext_le pNoLt)]
            exact ⟨marks', added, run, recorded, same, distinct,
              walked.pass linux isLogical rfl rfl fun set => if_pos set⟩
          · obtain ⟨marks', added, run, recorded, same, distinct, walked⟩ :=
              ih placed nodup (bounded.rest rfl marks.pNo_le_pNext) late room ends
            rw [if_neg empty]
            exact ⟨marks', added, run, recorded, same, distinct,
              walked.pass linux isLogical rfl rfl fun _ => rfl⟩
  | extended inner rest ihInner ihRest =>
      rw [PartTree.late] at late
      rw [logical] at room
      have pNoLe : marks.pNo ≤ 3 := by
        by_cases entered : marks.entered = true
        · exact bounded.1 entered
        · have := bounded.2 entered
          rw [width] at this
          omega
      have roomInner : marks.enter.lNo + inner.logical ≤ 8 := by
        have kept : marks.enter.lNo = marks.lNo := rfl
        omega
      obtain ⟨between, added, run, recorded, same, distinct, walked⟩ :=
        ihInner placed.enter nodup ⟨fun _ => pNoLe, fun outside => absurd rfl outside⟩
          (show used + inner.late true ≤ 1 by omega) roomInner ends.1
      obtain ⟨entered, pNo⟩ := walked.base rfl
      have lNo : between.lNo = marks.lNo + inner.logical := walked.lNo
      obtain ⟨marks', added', run', recorded', same', distinct', walked'⟩ :=
        ihRest walked.placed distinct
          ⟨fun _ => pNo.trans_le pNoLe, fun outside => absurd entered outside⟩
          (by rw [entered]; exact (Nat.add_assoc ..).trans_le late) (by omega) (lNo ▸ ends.2)
      refine ⟨marks', added ++ added', ?_, ?_, ?_, distinct', walked.extended walked'⟩
      · rw [walk, run]
        exact run'
      · rw [recorded', recorded, List.append_assoc]
        rfl
      · rw [List.map_append, same, same', entries]

end PartTree

/-! ## Results -/

/-- Each of some entries, given with their sectors, is recorded in a slot of its own, and
`partition_list` holds the slots in the same order. -/
structure OneToOne (mem : Bytes) (plist hd : Nat) (entries : List (UInt32 × PartitionTableEntry))
    (parts : List Nat) : Prop where
  slots : ∀ part ∈ parts, (∃ index, index < 4 ∧ part = primParts hd index) ∨
    ∃ index, index < 8 ∧ part = logicParts hd index
  nodup : parts.Nodup
  fields : List.Forall₂ (fun entry part =>
    mem.read32 part = (entry.1 + entry.2.startLba).toNat ∧
      mem.read32 (part + 4) = entry.2.secCnt.toNat) entries parts
  list : ListAt mem plist (parts.map partTag)

/-- `partition_scan(hd, 0)` from the counters at 0 returns and records the partitions of
a tree. -/
def ScansOneToOne (disk mem : Bytes) (plist hd fuel : Nat) (tree : PartTree) : Prop :=
  ∃ s parts, partitionScan disk plist hd fuel 0 ⟨mem, 0, 0, 0⟩ = .ok s ∧
    OneToOne s.mem plist hd tree.entries parts

section

variable {disk mem : Bytes} {plist hd fuel : Nat} {tree : PartTree}

/-- The counters before a scan. -/
def Marks.start : Marks := ⟨0, 0, false, []⟩

theorem Marks.start_placed : Marks.start.Placed 0 :=
  ⟨nofun, nofun, fun nonzero => absurd rfl nonzero, Nat.zero_le _⟩

/-- A tree has the entries of its table. -/
theorem TablesOf.width_eq {base lba base' : UInt32} {table : List PartitionTableEntry}
    (tables : TablesOf disk base lba table tree base') : tree.width = table.length := by
  induction tables with
  | done => rfl
  | entry _ _ ih => exact congrArg (· + 1) ih
  | first _ _ _ _ _ ih => exact congrArg (· + 1) ih
  | next _ _ _ _ _ _ ih => exact congrArg (· + 1) ih

/-- The scan of a disk does what the walk through its tree says. -/
theorem partitionScan_walk (layout : ScanLayout plist hd) (empty : ListAt mem plist [])
    (tables : DiskTables disk tree) (deep : tree.depth < fuel) :
    Outcome plist hd 0 (partitionScan disk plist hd fuel 0 ⟨mem, 0, 0, 0⟩)
      (tree.walk Marks.start) := by
  obtain ⟨base, tables⟩ := tables
  obtain ⟨fuel, rfl⟩ := Nat.exists_eq_succ_of_ne_zero (Nat.ne_zero_of_lt deep)
  have start : Represents plist hd ⟨mem, 0, 0, 0⟩ Marks.start :=
    ⟨rfl, rfl, iff_of_false nofun (fun set => set rfl), nofun, .of_empty empty, fun _ => empty,
      fun _ => nofun⟩
  rw [partitionScan_succ fuel (Nat.zero_le _)]
  exact scanEntries_walk layout tables (Nat.le_of_lt_succ deep) start rfl
    fun _ p found => tables.first_ne_zero found

/-- A scan that records its partitions one to one meets the condition. -/
theorem condition_of_scansOneToOne (layout : ScanLayout plist hd) (empty : ListAt mem plist [])
    (tables : DiskTables disk tree) (deep : tree.depth < fuel)
    (scans : ScansOneToOne disk mem plist hd fuel tree) :
    tree.late false ≤ 1 ∧ tree.logical ≤ 8 ∧ tree.EndsAtEighth 0 := by
  obtain ⟨s, parts, run, oneToOne⟩ := scans
  have outcome := partitionScan_walk layout empty tables deep
  cases walkEq : tree.walk Marks.start with
  | none =>
      rw [walkEq] at outcome
      obtain ⟨fault, fails⟩ := outcome
      rw [run] at fails
      cases fails
  | some marks =>
      rw [walkEq] at outcome
      obtain ⟨s', run', rep, -⟩ := outcome
      rw [run] at run'
      cases run'
      obtain ⟨added, recorded, short⟩ := PartTree.walk_recorded walkEq
      -- the list has one slot for each entry, and only slots of the walk
      have subset := rep.recorded.closed.subset oneToOne.list
      have subperm := List.subperm_of_subset oneToOne.list.nodup subset
      have count : parts.length = tree.entries.length := oneToOne.fields.length_eq.symm
      have atMost := subperm.length_le
      simp only [List.length_map] at atMost
      have all : marks.recorded.length = tree.entries.length := by
        rw [recorded, List.length_append] at atMost ⊢
        have none : Marks.start.recorded.length = 0 := rfl
        omega
      have perm := subperm.perm_of_length_le (by simp only [List.length_map]; omega)
      have distinct : marks.slots.Nodup := (perm.nodup_iff.mp oneToOne.list.nodup).of_map
      obtain ⟨walked, ends, room⟩ := PartTree.walked_of_nodup walkEq Marks.start_placed distinct
        (all.trans (Nat.zero_add _).symm)
      refine ⟨(Nat.zero_add _).symm.trans_le walked.placed.once, ?_, ends⟩
      exact (walked.lNo.trans (Nat.zero_add _)).symm.trans_le (room (Nat.zero_le _))

/-- A scan that meets the condition records its partitions one to one. -/
theorem scansOneToOne_of_condition (layout : ScanLayout plist hd) (empty : ListAt mem plist [])
    (tables : DiskTables disk tree) (deep : tree.depth < fuel) (late : tree.late false ≤ 1)
    (room : tree.logical ≤ 8) (ends : tree.EndsAtEighth 0) :
    ScansOneToOne disk mem plist hd fuel tree := by
  have outcome := partitionScan_walk layout empty tables deep
  obtain ⟨base, tables⟩ := tables
  have width : tree.width = 4 := tables.width_eq
  obtain ⟨marks, added, run, recorded, same, distinct, -⟩ :=
    PartTree.walk_of_late Marks.start_placed List.nodup_nil
      ⟨nofun, fun _ => (congrArg (0 + ·) width).le⟩ ((Nat.zero_add _).trans_le late)
      ((Nat.zero_add _).trans_le room) ends
  rw [run] at outcome
  obtain ⟨s, scan, rep, -⟩ := outcome
  have recorded : marks.recorded = added := recorded
  have slotsEq : marks.slots = added.map (·.1) := by rw [Marks.slots, recorded]
  have stored := rep.recorded
  rw [recorded] at stored
  rw [slotsEq] at distinct
  refine ⟨s, (added.map (·.1)).map (·.addr hd), scan, fun part member => ?_, ?_, ?_, ?_⟩
  · obtain ⟨slot, slotMem, rfl⟩ := List.mem_map.mp member
    have valid := stored.valid slot slotMem
    cases slot with
    | prim index => exact .inl ⟨index, valid, rfl⟩
    | logic index => exact .inr ⟨index, valid, rfl⟩
  · refine List.Nodup.map_on (fun slot member other member' equal => ?_) distinct
    by_contra different
    have separate := (stored.valid slot member).number_ne (stored.valid other member') different
    rw [slot.addr_eq, other.addr_eq] at equal
    omega
  · rw [← same, List.map_map, List.forall₂_map_left_iff, List.forall₂_map_right_iff,
      List.forall₂_same]
    exact stored.fields distinct
  · rw [List.map_map]
    exact stored.list distinct

/-- **Partitions are discovered one to one** exactly if at most one entry of type 0x83
follows the first extended entry, at most eight entries have type 0x66, and behind the
eighth of them its sector, with the sectors reached through it, describes no partition. -/
theorem partitionScan_oneToOne (layout : ScanLayout plist hd) (empty : ListAt mem plist [])
    (tables : DiskTables disk tree) (deep : tree.depth < fuel) :
    ScansOneToOne disk mem plist hd fuel tree ↔
      tree.late false ≤ 1 ∧ tree.logical ≤ 8 ∧ tree.EndsAtEighth 0 :=
  ⟨condition_of_scansOneToOne layout empty tables deep, fun ⟨late, room, ends⟩ =>
    scansOneToOne_of_condition layout empty tables deep late room ends⟩

end

/-- A list at 4096 in front of a disk structure at 8192. -/
def scanMem : Bytes := linkInit (fun _ => 0) 4096

theorem scanLayout : ScanLayout 4096 8192 := ⟨by decide, by decide, by decide⟩

theorem scanMem_empty : ListAt scanMem 4096 [] := linkInit_listAt _ (by decide)

/-- A primary partition at 63 and an extended one at sector 8, with a partition of type 0x66 in
its first table and one of type 0x83 in the next. -/
def mixedPartitions : Bytes := fun query =>
  if query = 450 then 0x83 else if query = 454 then 63 else if query = 458 then 10
  else if query = 466 then 0x5 else if query = 470 then 8
  else if query = 4546 then 0x66 else if query = 4550 then 1 else if query = 4554 then 2
  else if query = 4562 then 0x5 else if query = 4566 then 4
  else if query = 6594 then 0x83 else if query = 6598 then 1 else if query = 6602 then 2
  else 0

/-- Its entries. -/
def mixedPartitionsTree : PartTree :=
  .entry 0 ⟨0x83, 63, 10⟩
    (.extended
      (.entry 8 ⟨0x66, 1, 2⟩
        (.extended
          (.entry 12 ⟨0x83, 1, 2⟩
            (.entry 12 ⟨0, 0, 0⟩ (.entry 12 ⟨0, 0, 0⟩ (.entry 12 ⟨0, 0, 0⟩ .done))))
          (.entry 8 ⟨0, 0, 0⟩ (.entry 8 ⟨0, 0, 0⟩ .done))))
      (.entry 0 ⟨0, 0, 0⟩ (.entry 0 ⟨0, 0, 0⟩ .done)))

theorem mixedPartitions_tables : DiskTables mixedPartitions mixedPartitionsTree := by
  have table0 : partitionTable (sectorOf mixedPartitions 0) =
      [⟨0x83, 63, 10⟩, ⟨0x5, 8, 0⟩, ⟨0, 0, 0⟩, ⟨0, 0, 0⟩] := by decide
  have table8 : partitionTable (sectorOf mixedPartitions 8) =
      [⟨0x66, 1, 2⟩, ⟨0x5, 4, 0⟩, ⟨0, 0, 0⟩, ⟨0, 0, 0⟩] := by decide
  have table12 : partitionTable (sectorOf mixedPartitions (8 + 4)) =
      [⟨0x83, 1, 2⟩, ⟨0, 0, 0⟩, ⟨0, 0, 0⟩, ⟨0, 0, 0⟩] := by decide
  have empty : (0 : UInt8) ≠ 0x5 := by decide
  have linux : (0x83 : UInt8) ≠ 0x5 := by decide
  have last : TablesOf mixedPartitions 8 (8 + 4)
      (partitionTable (sectorOf mixedPartitions (8 + 4)))
      (.entry 12 ⟨0x83, 1, 2⟩
        (.entry 12 ⟨0, 0, 0⟩ (.entry 12 ⟨0, 0, 0⟩ (.entry 12 ⟨0, 0, 0⟩ .done)))) 8 := by
    rw [table12]
    exact .entry linux (.entry empty (.entry empty (.entry empty .done)))
  have first : TablesOf mixedPartitions 8 8 (partitionTable (sectorOf mixedPartitions 8))
      (.entry 8 ⟨0x66, 1, 2⟩
        (.extended
          (.entry 12 ⟨0x83, 1, 2⟩
            (.entry 12 ⟨0, 0, 0⟩ (.entry 12 ⟨0, 0, 0⟩ (.entry 12 ⟨0, 0, 0⟩ .done))))
          (.entry 8 ⟨0, 0, 0⟩ (.entry 8 ⟨0, 0, 0⟩ .done)))) 8 := by
    rw [table8]
    exact .entry (by decide) (.next rfl (by decide) (by decide) last
      (.entry empty (.entry empty .done)))
  refine ⟨8, ?_⟩
  rw [table0]
  exact .entry linux (.first rfl (by decide) first (.entry empty (.entry empty .done)))

/-- The three partitions are recorded. -/
theorem partitionScan_oneToOne_mixed :
    ScansOneToOne mixedPartitions scanMem 4096 8192 3 mixedPartitionsTree :=
  (partitionScan_oneToOne scanLayout scanMem_empty mixedPartitions_tables (by decide)).mpr
    ⟨by decide, by decide, by decide⟩

/-- An extended partition at sector 8 with two logical partitions of type 0x83. -/
def twoLogical : Bytes := fun query =>
  if query = 450 then 0x5 else if query = 454 then 8
  else if query = 4546 then 0x83 else if query = 4550 then 1 else if query = 4554 then 2
  else if query = 4562 then 0x5 else if query = 4566 then 4
  else if query = 6594 then 0x83 else if query = 6598 then 1 else if query = 6602 then 2
  else 0

/-- Its entries. -/
def twoLogicalTree : PartTree :=
  .extended
    (.entry 8 ⟨0x83, 1, 2⟩
      (.extended
        (.entry 12 ⟨0x83, 1, 2⟩
          (.entry 12 ⟨0, 0, 0⟩ (.entry 12 ⟨0, 0, 0⟩ (.entry 12 ⟨0, 0, 0⟩ .done))))
        (.entry 8 ⟨0, 0, 0⟩ (.entry 8 ⟨0, 0, 0⟩ .done))))
    (.entry 0 ⟨0, 0, 0⟩ (.entry 0 ⟨0, 0, 0⟩ (.entry 0 ⟨0, 0, 0⟩ .done)))

theorem twoLogical_tables : DiskTables twoLogical twoLogicalTree := by
  have table0 : partitionTable (sectorOf twoLogical 0) =
      [⟨0x5, 8, 0⟩, ⟨0, 0, 0⟩, ⟨0, 0, 0⟩, ⟨0, 0, 0⟩] := by decide
  have table8 : partitionTable (sectorOf twoLogical 8) =
      [⟨0x83, 1, 2⟩, ⟨0x5, 4, 0⟩, ⟨0, 0, 0⟩, ⟨0, 0, 0⟩] := by decide
  have table12 : partitionTable (sectorOf twoLogical (8 + 4)) =
      [⟨0x83, 1, 2⟩, ⟨0, 0, 0⟩, ⟨0, 0, 0⟩, ⟨0, 0, 0⟩] := by decide
  have empty : (0 : UInt8) ≠ 0x5 := by decide
  have linux : (0x83 : UInt8) ≠ 0x5 := by decide
  have last : TablesOf twoLogical 8 (8 + 4) (partitionTable (sectorOf twoLogical (8 + 4)))
      (.entry 12 ⟨0x83, 1, 2⟩
        (.entry 12 ⟨0, 0, 0⟩ (.entry 12 ⟨0, 0, 0⟩ (.entry 12 ⟨0, 0, 0⟩ .done)))) 8 := by
    rw [table12]
    exact .entry linux (.entry empty (.entry empty (.entry empty .done)))
  have first : TablesOf twoLogical 8 8 (partitionTable (sectorOf twoLogical 8))
      (.entry 8 ⟨0x83, 1, 2⟩
        (.extended
          (.entry 12 ⟨0x83, 1, 2⟩
            (.entry 12 ⟨0, 0, 0⟩ (.entry 12 ⟨0, 0, 0⟩ (.entry 12 ⟨0, 0, 0⟩ .done))))
          (.entry 8 ⟨0, 0, 0⟩ (.entry 8 ⟨0, 0, 0⟩ .done)))) 8 := by
    rw [table8]
    exact .entry linux (.next rfl (by decide) (by decide) last
      (.entry empty (.entry empty .done)))
  refine ⟨8, ?_⟩
  rw [table0]
  exact .first rfl (by decide) first (.entry empty (.entry empty (.entry empty .done)))

/-- The second logical partition is recorded in the slot of the first. -/
theorem not_scansOneToOne_twoLogical :
    DiskTables twoLogical twoLogicalTree ∧ twoLogicalTree.entries.length = 2 ∧
      ∀ fuel, 2 < fuel → ¬ScansOneToOne twoLogical scanMem 4096 8192 fuel twoLogicalTree := by
  refine ⟨twoLogical_tables, by decide, fun fuel deep scans => ?_⟩
  have late := (condition_of_scansOneToOne scanLayout scanMem_empty twoLogical_tables deep scans).1
  exact absurd late (by decide)

end Pumelo
