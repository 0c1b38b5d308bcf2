import Mathlib.Data.Finite.Prod
import Mathlib.Data.Set.Finite.Range
import Pumelo.Foundation.Calls
import Pumelo.PartitionScan

/-!
# The recursion of the partition scan

`partition_scan` on its globals alone.  Which sectors it reads, and how it ends, depends
on the tables of the disk, on `ext_lba_base` and on the two counters, and not on what it
stores.  It comes to its end if the tables that it looks at form a finite tree.  There are
finitely many values of the globals, so that this fails where a table leads back to itself
with the same ones only: nothing in the code keeps a sector from being entered twice.
-/

namespace Pumelo

open Foundation Relation

/-- `ext_lba_base`, `p_no` and `l_no`. -/
structure ScanGlobals where
  extLbaBase : UInt32
  pNo : Nat
  lNo : Nat
  deriving DecidableEq

/-- The globals of a state. -/
def ScanState.globals (s : ScanState) : ScanGlobals := ⟨s.extLbaBase, s.pNo, s.lNo⟩

/-- A call of `partition_scan`: its sector, and the globals as it finds them. -/
structure ScanCall where
  extLba : UInt32
  globals : ScanGlobals
  deriving DecidableEq

namespace ScanGlobals

/-- What an entry of type 0x83 or 0x0 does to the globals. -/
def advance (g : ScanGlobals) : Except Fault ScanGlobals := do
  let g := if g.extLbaBase = 0 then { g with pNo := g.pNo + 1 } else g
  assert (g.pNo ≤ 4) "p_no <= 4"
  return g

/-- What an entry that is not extended does to the globals, and whether the call returns
behind it. -/
def pass (g : ScanGlobals) (p : PartitionTableEntry) : Except Fault (Bool × ScanGlobals) :=
  if p.fsType = 0x83 then
    if g.pNo < 4 then g.advance.map fun g => (false, g)
    else .error (.outOfBounds "prim_parts" g.pNo)
  else if p.fsType = 0x0 then g.advance.map fun g => (false, g)
  else if p.fsType = 0x66 then
    if g.lNo < 8 then .ok (decide (g.lNo + 1 ≥ 8), { g with lNo := g.lNo + 1 })
    else .error (.outOfBounds "logic_parts" g.lNo)
  else .ok (false, g)

/-- The call that an extended entry makes. -/
def call (g : ScanGlobals) (p : PartitionTableEntry) : ScanCall :=
  if g.extLbaBase = 0 then ⟨p.startLba, { g with extLbaBase := p.startLba }⟩
  else ⟨g.extLbaBase + p.startLba, g⟩

end ScanGlobals

/-- The loop over the entries of a table, where `scan` is the call for an inner table. -/
def passEntries (scan : ScanCall → Except Fault ScanGlobals) :
    List PartitionTableEntry → ScanGlobals → Except Fault ScanGlobals
  | [], g => .ok g
  | p :: rest, g =>
      if p.fsType = 0x5 then do
        let g ← scan (g.call p)
        passEntries scan rest g
      else do
        let (returns, g) ← g.pass p
        if returns then .ok g else passEntries scan rest g

/-- A call; `fuel` bounds the depth of the recursion. -/
def scanCall (disk : Bytes) : (fuel : Nat) → ScanCall → Except Fault ScanGlobals
  | 0, _ => .error .diverge
  | fuel + 1, call => do
      let bs ← ideRead disk call.extLba.toNat (fun _ => 0) 1
      passEntries (scanCall disk fuel) (partitionTable bs) call.globals

/-- A view of two computations one after the other, from views of each. -/
theorem map_bind_congr {α β γ δ : Type} {first : Except Fault α} {rest : α → Except Fault β}
    {view : β → γ} {viewFirst : α → δ} {first' : Except Fault δ} {rest' : δ → Except Fault γ}
    (same : first.map viewFirst = first')
    (next : ∀ value, (rest value).map view = rest' (viewFirst value)) :
    (first >>= rest).map view = first' >>= rest' := by
  subst same
  cases first with
  | error fault => rfl
  | ok value => exact next value

section

variable (plist hd : Nat) (lba : UInt32)

/-- The loop at an entry that is not extended. -/
def passPart (p : PartitionTableEntry) (s : ScanState) : Except Fault (Bool × ScanState) :=
  if p.fsType = 0x83 then do
    let s ← recordPrim plist hd lba p s
    let s ← advancePNo s
    return (false, s)
  else if p.fsType = 0x0 then do
    let s ← advancePNo s
    return (false, s)
  else if p.fsType = 0x66 then do
    let s ← recordLogic plist hd lba p s
    let s := { s with lNo := s.lNo + 1 }
    return (decide (s.lNo ≥ 8), s)
  else return (false, s)

variable {plist hd lba} {p : PartitionTableEntry} {rest : List PartitionTableEntry}
  {scan : UInt32 → ScanState → Except Fault ScanState}

theorem scanEntries_plain (plain : p.fsType ≠ 0x5) (s : ScanState) :
    scanEntries plist hd lba scan (p :: rest) s =
      passPart plist hd lba p s >>= fun (returns, s) =>
        if returns then .ok s else scanEntries plist hd lba scan rest s := by
  rw [scanEntries, if_neg plain, passPart]
  split
  · cases recordPrim plist hd lba p s with
    | error fault => rfl
    | ok s =>
        rw [bind_ok rfl, bind_ok rfl]
        cases advancePNo s with
        | error fault => rfl
        | ok s => rfl
  · split
    · cases advancePNo s with
      | error fault => rfl
      | ok s => rfl
    · split
      · cases recordLogic plist hd lba p s with
        | error fault => rfl
        | ok s => simp [bind_ok rfl]
      · rfl

theorem scanEntries_extended (extended : p.fsType = 0x5) (s : ScanState) :
    scanEntries plist hd lba scan (p :: rest) s =
      scan (s.globals.call p).extLba
          { s with extLbaBase := (s.globals.call p).globals.extLbaBase } >>=
        scanEntries plist hd lba scan rest := by
  rw [scanEntries, if_pos extended, ScanGlobals.call]
  by_cases unset : s.extLbaBase = 0
  · rw [if_pos unset, if_pos (show s.globals.extLbaBase = 0 from unset)]
  · rw [if_neg unset, if_neg (show ¬s.globals.extLbaBase = 0 from unset)]
    rfl

theorem advancePNo_globals (s : ScanState) :
    (advancePNo s).map ScanState.globals = s.globals.advance := by
  rw [advancePNo, ScanGlobals.advance]
  have viewed : ∀ s : ScanState,
      (assert (s.pNo ≤ 4) "p_no <= 4" >>= fun _ => pure s : Except Fault ScanState).map
          ScanState.globals =
        assert (s.globals.pNo ≤ 4) "p_no <= 4" >>= fun _ => pure s.globals := by
    intro s
    show _ = assert (s.pNo ≤ 4) "p_no <= 4" >>= fun _ => _
    cases assert (s.pNo ≤ 4) "p_no <= 4" with
    | error fault => rfl
    | ok result => rfl
  by_cases unset : s.extLbaBase = 0
  · rw [if_pos unset, if_pos (show s.globals.extLbaBase = 0 from unset)]
    exact viewed { s with pNo := s.pNo + 1 }
  · rw [if_neg unset, if_neg (show ¬s.globals.extLbaBase = 0 from unset)]
    exact viewed s

/-- An entry that is not extended does to the globals what `ScanGlobals.pass` does. -/
theorem passPart_globals (p : PartitionTableEntry) (s : ScanState) :
    (passPart plist hd lba p s).map (fun passed => (passed.1, passed.2.globals)) =
      s.globals.pass p := by
  have advanced : ∀ s : ScanState, (advancePNo s >>= fun s => pure (false, s) :
      Except Fault (Bool × ScanState)).map (fun passed => (passed.1, passed.2.globals)) =
      s.globals.advance.map fun g => (false, g) := by
    intro s
    rw [← advancePNo_globals]
    cases advancePNo s with
    | error fault => rfl
    | ok s => rfl
  rw [passPart, ScanGlobals.pass]
  split
  · by_cases small : s.pNo < 4
    · rw [if_pos (show s.globals.pNo < 4 from small), recordPrim, recordIn, if_pos small]
      exact advanced _
    · rw [if_neg (show ¬s.globals.pNo < 4 from small), recordPrim, recordIn, if_neg small]
      rfl
  · split
    · exact advanced s
    · split
      · by_cases small : s.lNo < 8
        · rw [if_pos (show s.globals.lNo < 8 from small), recordLogic, recordIn, if_pos small]
          rfl
        · rw [if_neg (show ¬s.globals.lNo < 8 from small), recordLogic, recordIn, if_neg small]
          rfl
      · rfl

/-- The loop over a table does to the globals what the loop on the globals does. -/
theorem scanEntries_globals {control : ScanCall → Except Fault ScanGlobals}
    (agree : ∀ lba s, (scan lba s).map ScanState.globals = control ⟨lba, s.globals⟩)
    (table : List PartitionTableEntry) (s : ScanState) :
    (scanEntries plist hd lba scan table s).map ScanState.globals =
      passEntries control table s.globals := by
  induction table generalizing s with
  | nil => rfl
  | cons p rest ih =>
      rw [passEntries]
      by_cases extended : p.fsType = 0x5
      · rw [if_pos extended, scanEntries_extended extended]
        refine map_bind_congr ?_ ih
        rw [agree, ScanGlobals.call]
        split <;> rfl
      · rw [if_neg extended, scanEntries_plain extended]
        refine map_bind_congr (passPart_globals p s) fun passed => ?_
        obtain ⟨returns, s'⟩ := passed
        cases returns with
        | true => rfl
        | false => exact ih s'

/-- The scan ends as its calls on the globals do. -/
theorem partitionScan_globals (plist hd : Nat) (disk : Bytes) (fuel : Nat) (lba : UInt32)
    (s : ScanState) :
    (partitionScan disk plist hd fuel lba s).map ScanState.globals =
      scanCall disk fuel ⟨lba, s.globals⟩ := by
  induction fuel generalizing lba s with
  | zero => rfl
  | succ fuel ih =>
      rw [partitionScan, scanCall]
      cases ideRead disk lba.toNat (fun _ => 0) 1 with
      | error fault => rfl
      | ok bs => exact scanEntries_globals ih (partitionTable bs) s

end

/-- The entries that a call loops over. -/
def ScanCall.table (disk : Bytes) (call : ScanCall) : List PartitionTableEntry :=
  partitionTable (sectorOf disk call.extLba)

/-- A tree holds the tables that are looked at from some entries of the sector `lba` on, where
the globals are `g` in front of them, and behind them what is last, if it comes to that: a table
is left behind the eighth entry of type 0x66, and all ends where a counter has passed its bound
and at an extended entry that leads beyond the disk. -/
inductive TablesSeen (disk : Bytes) :
    (lba : UInt32) → List PartitionTableEntry → (g : ScanGlobals) → PartTree →
      (last : Option ScanGlobals) → Prop where
  | done {lba : UInt32} {g : ScanGlobals} : TablesSeen disk lba [] g .done (some g)
  | entry {lba : UInt32} {p : PartitionTableEntry} {rest : List PartitionTableEntry}
      {g g' : ScanGlobals} {tree : PartTree} {last : Option ScanGlobals} : p.fsType ≠ 0x5 →
      g.pass p = .ok (false, g') → TablesSeen disk lba rest g' tree last →
      TablesSeen disk lba (p :: rest) g (.entry lba p tree) last
  | leaves {lba : UInt32} {p : PartitionTableEntry} {rest : List PartitionTableEntry}
      {g g' : ScanGlobals} : p.fsType ≠ 0x5 → g.pass p = .ok (true, g') →
      TablesSeen disk lba (p :: rest) g (.entry lba p .done) (some g')
  | stops {lba : UInt32} {p : PartitionTableEntry} {rest : List PartitionTableEntry}
      {g : ScanGlobals} {fault : Fault} : p.fsType ≠ 0x5 → g.pass p = .error fault →
      TablesSeen disk lba (p :: rest) g (.entry lba p .done) none
  | beyond {lba : UInt32} {p : PartitionTableEntry} {rest : List PartitionTableEntry}
      {g : ScanGlobals} : p.fsType = 0x5 → maxLba < (g.call p).extLba.toNat →
      TablesSeen disk lba (p :: rest) g (.entry lba p .done) none
  | extended {lba : UInt32} {p : PartitionTableEntry} {rest : List PartitionTableEntry}
      {g g' : ScanGlobals} {inner tree : PartTree} {last : Option ScanGlobals} :
      p.fsType = 0x5 → (g.call p).extLba.toNat ≤ maxLba →
      TablesSeen disk (g.call p).extLba ((g.call p).table disk) (g.call p).globals inner
        (some g') →
      TablesSeen disk lba rest g' tree last →
      TablesSeen disk lba (p :: rest) g (.extended inner tree) last
  | within {lba : UInt32} {p : PartitionTableEntry} {rest : List PartitionTableEntry}
      {g : ScanGlobals} {inner : PartTree} : p.fsType = 0x5 →
      (g.call p).extLba.toNat ≤ maxLba →
      TablesSeen disk (g.call p).extLba ((g.call p).table disk) (g.call p).globals inner none →
      TablesSeen disk lba (p :: rest) g (.extended inner .done) none

/-- The loop of a call comes from some entries with their globals to later ones, behind the
tables of the extended entries between them. -/
inductive Passes (disk : Bytes) : List PartitionTableEntry → ScanGlobals →
    List PartitionTableEntry → ScanGlobals → Prop where
  | here {entries : List PartitionTableEntry} {g : ScanGlobals} : Passes disk entries g entries g
  | plain {p : PartitionTableEntry} {rest last : List PartitionTableEntry}
      {g g' h : ScanGlobals} : p.fsType ≠ 0x5 → g.pass p = .ok (false, g') →
      Passes disk rest g' last h → Passes disk (p :: rest) g last h
  | extended {p : PartitionTableEntry} {rest last : List PartitionTableEntry}
      {g g' h : ScanGlobals} {inner : PartTree} : p.fsType = 0x5 →
      (g.call p).extLba.toNat ≤ maxLba →
      TablesSeen disk (g.call p).extLba ((g.call p).table disk) (g.call p).globals inner
        (some g') →
      Passes disk rest g' last h → Passes disk (p :: rest) g last h

/-- A call makes another: its loop comes to an extended entry. -/
def Enters (disk : Bytes) (call inner : ScanCall) : Prop :=
  call.extLba.toNat ≤ maxLba ∧ ∃ p rest g, p.fsType = 0x5 ∧
    Passes disk (call.table disk) call.globals (p :: rest) g ∧ inner = g.call p

/-- A call makes finitely many recursive calls. -/
def ScanCall.Ends (disk : Bytes) (call : ScanCall) : Prop :=
  ∃ fuel, scanCall disk fuel call ≠ .error .diverge

section

variable {disk : Bytes} {call inner : ScanCall} {p : PartitionTableEntry}
  {entries last : List PartitionTableEntry} {g g' h : ScanGlobals}
  {scan more : ScanCall → Except Fault ScanGlobals} {fuel fuel' : Nat}

theorem passEntries_cons_plain (plain : p.fsType ≠ 0x5) {rest : List PartitionTableEntry} :
    passEntries scan (p :: rest) g =
      g.pass p >>= fun (returns, g) => if returns then .ok g else passEntries scan rest g := by
  rw [passEntries, if_neg plain]

theorem passEntries_cons_extended (extended : p.fsType = 0x5) {rest : List PartitionTableEntry} :
    passEntries scan (p :: rest) g = scan (g.call p) >>= passEntries scan rest := by
  rw [passEntries, if_pos extended]

/-- The call of a sector on the disk. -/
theorem scanCall_succ (inside : call.extLba.toNat ≤ maxLba) (fuel : Nat) :
    scanCall disk (fuel + 1) call =
      passEntries (scanCall disk fuel) (call.table disk) call.globals := by
  rw [scanCall, bind_ok (ideRead_of_le (by decide) (Nat.succ_le_succ inside))]
  rfl

/-- The call of a sector that is not on the disk stops at the assertion of `ide_read`. -/
theorem scanCall_of_gt (outside : maxLba < call.extLba.toNat) (fuel : Nat) :
    scanCall disk (fuel + 1) call = .error (.panic "assertion failed: lba <= max_lba") := by
  rw [scanCall, ideRead, bind_error (bind_error (assert_of_not (Nat.not_le.mpr outside) _))]
  rfl

/-- Inner calls that have ended end the same way in a loop with more fuel. -/
theorem passEntries_mono (agree : ∀ call, scan call ≠ .error .diverge → more call = scan call)
    (ends : passEntries scan entries g ≠ .error .diverge) :
    passEntries more entries g = passEntries scan entries g := by
  induction entries generalizing g with
  | nil => rfl
  | cons p rest ih =>
      by_cases extended : p.fsType = 0x5
      · rw [passEntries_cons_extended extended] at ends
        rw [passEntries_cons_extended extended, passEntries_cons_extended extended]
        cases result : scan (g.call p) with
        | error fault =>
            rw [result] at ends
            rw [agree _ (by rw [result]; exact ends), result]
            rfl
        | ok g' =>
            rw [result] at ends
            rw [agree _ (by rw [result]; exact fun absurd => nomatch absurd), result]
            exact ih ends
      · rw [passEntries_cons_plain extended] at ends
        rw [passEntries_cons_plain extended, passEntries_cons_plain extended]
        cases passed : g.pass p with
        | error fault => rfl
        | ok result =>
            obtain ⟨returns, g'⟩ := result
            rw [passed] at ends
            cases returns with
            | true => rfl
            | false => exact ih ends

theorem scanCall_mono (ends : scanCall disk fuel call ≠ .error .diverge) (le : fuel ≤ fuel') :
    scanCall disk fuel' call = scanCall disk fuel call := by
  induction fuel generalizing call fuel' with
  | zero => exact absurd rfl ends
  | succ fuel ih =>
      obtain ⟨fuel', rfl⟩ : ∃ left, fuel' = left + 1 :=
        Nat.exists_eq_succ_of_ne_zero (by omega)
      by_cases inside : call.extLba.toNat ≤ maxLba
      · rw [scanCall_succ inside] at ends
        rw [scanCall_succ inside, scanCall_succ inside]
        exact passEntries_mono (fun call ends => ih ends (by omega)) ends
      · rw [scanCall_of_gt (Nat.not_le.mp inside), scanCall_of_gt (Nat.not_le.mp inside)]

/-- Two calls that end end the same way. -/
theorem scanCall_unique (ends : scanCall disk fuel call ≠ .error .diverge)
    (ends' : scanCall disk fuel' call ≠ .error .diverge) :
    scanCall disk fuel call = scanCall disk fuel' call := by
  rcases Nat.le_total fuel fuel' with le | le
  · exact (scanCall_mono ends le).symm
  · exact scanCall_mono ends' le

theorem advance_ne_diverge : g.advance ≠ .error .diverge := by
  rw [ScanGlobals.advance]
  generalize (if g.extLbaBase = 0 then { g with pNo := g.pNo + 1 } else g) = g
  by_cases small : g.pNo ≤ 4
  · rw [bind_ok (assert_of small _)]
    exact nofun
  · rw [bind_error (assert_of_not small _)]
    exact nofun

/-- A loop diverges in an inner call only. -/
theorem pass_ne_diverge : g.pass p ≠ .error .diverge := by
  have advanced : g.advance.map (fun g => (false, g)) ≠ .error .diverge :=
    fun equal => advance_ne_diverge (map_eq_error.mp equal)
  rw [ScanGlobals.pass]
  split
  · split
    · exact advanced
    · exact nofun
  · split
    · exact advanced
    · split
      · split <;> exact nofun
      · exact nofun

/-- The end of a loop. -/
def EndsWith (result : Except Fault ScanGlobals) : Option ScanGlobals → Prop
  | some g => result = .ok g
  | none => ∃ fault, fault ≠ .diverge ∧ result = .error fault

theorem EndsWith.ne_diverge {result : Except Fault ScanGlobals} {last : Option ScanGlobals}
    (ends : EndsWith result last) : result ≠ .error .diverge := by
  cases last with
  | some g =>
      rw [show result = .ok g from ends]
      exact nofun
  | none =>
      obtain ⟨fault, different, equal⟩ := ends
      rw [equal]
      exact fun same => different (Except.error.inj same)

/-- With more fuel than the tree is deep the loop comes to its end. -/
theorem TablesSeen.run {lba : UInt32} {tree : PartTree} {last : Option ScanGlobals}
    (seen : TablesSeen disk lba entries g tree last) (deep : tree.depth < fuel) :
    EndsWith (passEntries (scanCall disk fuel) entries g) last := by
  induction seen generalizing fuel with
  | done => rfl
  | entry plain passed _ ih =>
      rw [passEntries_cons_plain plain, bind_ok passed]
      exact ih deep
  | leaves plain passed =>
      rw [passEntries_cons_plain plain, bind_ok passed]
      rfl
  | stops plain passed =>
      rw [passEntries_cons_plain plain, bind_error passed]
      exact ⟨_, fun same => pass_ne_diverge (same ▸ passed), rfl⟩
  | beyond extended outside =>
      obtain ⟨fuel, rfl⟩ := Nat.exists_eq_succ_of_ne_zero (Nat.ne_zero_of_lt deep)
      rw [passEntries_cons_extended extended, bind_error (scanCall_of_gt outside fuel)]
      exact ⟨_, by decide, rfl⟩
  | extended extended inside _ _ ihInner ihRest =>
      obtain ⟨fuel, rfl⟩ : ∃ left, fuel = left + 1 :=
        Nat.exists_eq_succ_of_ne_zero (by simp only [PartTree.depth] at deep; omega)
      simp only [PartTree.depth, Nat.max_lt, Nat.succ_lt_succ_iff] at deep
      have returned := ihInner deep.1
      rw [← scanCall_succ inside] at returned
      rw [passEntries_cons_extended extended, bind_ok returned]
      exact ihRest deep.2
  | within extended inside _ ih =>
      obtain ⟨fuel, rfl⟩ : ∃ left, fuel = left + 1 :=
        Nat.exists_eq_succ_of_ne_zero (by simp only [PartTree.depth] at deep; omega)
      simp only [PartTree.depth, Nat.max_lt, Nat.succ_lt_succ_iff] at deep
      obtain ⟨fault, different, returned⟩ := ih deep.1
      rw [← scanCall_succ inside] at returned
      rw [passEntries_cons_extended extended, bind_error returned]
      exact ⟨fault, different, rfl⟩

/-- A loop that comes to its end has seen a tree of tables, if its calls have. -/
theorem exists_tablesSeen (lba : UInt32)
    (inside : ∀ call, call.extLba.toNat ≤ maxLba → scan call ≠ .error .diverge →
      ∃ tree last, TablesSeen disk call.extLba (call.table disk) call.globals tree last ∧
        EndsWith (scan call) last)
    (outside : ∀ call, maxLba < call.extLba.toNat → scan call ≠ .error .diverge →
      EndsWith (scan call) none)
    (ends : passEntries scan entries g ≠ .error .diverge) :
    ∃ tree last, TablesSeen disk lba entries g tree last ∧
      EndsWith (passEntries scan entries g) last := by
  induction entries generalizing g with
  | nil => exact ⟨_, _, .done, rfl⟩
  | cons p rest ih =>
      by_cases extended : p.fsType = 0x5
      · rw [passEntries_cons_extended extended] at ends ⊢
        have innerEnds : scan (g.call p) ≠ .error .diverge := by
          intro diverges
          rw [diverges] at ends
          exact ends rfl
        by_cases small : (g.call p).extLba.toNat ≤ maxLba
        · obtain ⟨inner, last, seen, returned⟩ := inside _ small innerEnds
          cases last with
          | some g' =>
              rw [bind_ok returned] at ends ⊢
              obtain ⟨tree, last, seen', run⟩ := ih ends
              exact ⟨_, last, .extended extended small seen seen', run⟩
          | none =>
              obtain ⟨fault, different, returned⟩ := returned
              rw [bind_error returned]
              exact ⟨_, none, .within extended small seen, fault, different, rfl⟩
        · obtain ⟨fault, different, returned⟩ := outside _ (Nat.not_le.mp small) innerEnds
          rw [bind_error returned]
          exact ⟨_, none, .beyond extended (Nat.not_le.mp small), fault, different, rfl⟩
      · rw [passEntries_cons_plain extended] at ends ⊢
        cases passed : g.pass p with
        | error fault =>
            exact ⟨_, none, .stops extended passed, fault,
              fun same => pass_ne_diverge (same ▸ passed), rfl⟩
        | ok result =>
            obtain ⟨returns, g'⟩ := result
            rw [passed] at ends
            cases returns with
            | true => exact ⟨_, _, .leaves extended passed, rfl⟩
            | false =>
                obtain ⟨tree, last, seen, run⟩ := ih ends
                exact ⟨_, last, .entry extended passed seen, run⟩

/-- So has a call of a sector on the disk. -/
theorem scanCall_tablesSeen (inside : call.extLba.toNat ≤ maxLba)
    (ends : scanCall disk fuel call ≠ .error .diverge) :
    ∃ tree last, TablesSeen disk call.extLba (call.table disk) call.globals tree last ∧
      EndsWith (scanCall disk fuel call) last := by
  induction fuel generalizing call with
  | zero => exact absurd rfl ends
  | succ fuel ih =>
      rw [scanCall_succ inside] at ends ⊢
      refine exists_tablesSeen _ (fun _ => ih) (fun call outside ends => ?_) ends
      cases fuel with
      | zero => exact absurd rfl ends
      | succ fuel =>
          rw [scanCall_of_gt outside]
          exact ⟨_, by decide, rfl⟩

theorem scanCall_ok_tablesSeen (run : scanCall disk fuel call = .ok g) :
    call.extLba.toNat ≤ maxLba ∧
      ∃ tree, TablesSeen disk call.extLba (call.table disk) call.globals tree (some g) := by
  obtain outside | inside := Nat.lt_or_ge maxLba call.extLba.toNat
  · cases fuel with
    | zero => cases run
    | succ fuel =>
        rw [scanCall_of_gt outside] at run
        cases run
  · obtain ⟨tree, last, seen, returned⟩ :=
      scanCall_tablesSeen inside (by rw [run]; exact nofun)
    rw [run] at returned
    cases last with
    | some g' =>
        cases Except.ok.inj returned
        exact ⟨inside, tree, seen⟩
    | none =>
        obtain ⟨fault, -, fails⟩ := returned
        cases fails

/-- A call that returns leaves the globals that its tables say. -/
theorem TablesSeen.returns {tree : PartTree} (inside : call.extLba.toNat ≤ maxLba)
    (seen : TablesSeen disk call.extLba (call.table disk) call.globals tree (some g)) :
    ∃ fuel, scanCall disk fuel call = .ok g := by
  refine ⟨tree.depth + 1 + 1, ?_⟩
  rw [scanCall_succ inside]
  exact seen.run (Nat.lt_succ_self _)

theorem ScanCall.ends_iff_tablesSeen : call.Ends disk ↔ maxLba < call.extLba.toNat ∨
    ∃ tree last, TablesSeen disk call.extLba (call.table disk) call.globals tree last := by
  constructor
  · rintro ⟨fuel, ends⟩
    obtain outside | inside := Nat.lt_or_ge maxLba call.extLba.toNat
    · exact .inl outside
    · obtain ⟨tree, last, seen, -⟩ := scanCall_tablesSeen inside ends
      exact .inr ⟨tree, last, seen⟩
  · rintro (outside | ⟨tree, last, seen⟩)
    · exact ⟨1, by rw [scanCall_of_gt outside]; exact nofun⟩
    · obtain outside | inside := Nat.lt_or_ge maxLba call.extLba.toNat
      · exact ⟨1, by rw [scanCall_of_gt outside]; exact nofun⟩
      · refine ⟨tree.depth + 1 + 1, ?_⟩
        rw [scanCall_succ inside]
        exact (seen.run (Nat.lt_succ_self _)).ne_diverge

/-- A loop that ends does so from where it comes to. -/
theorem Passes.run (passes : Passes disk entries g last h)
    (ends : passEntries (scanCall disk fuel) entries g ≠ .error .diverge) :
    passEntries (scanCall disk fuel) entries g = passEntries (scanCall disk fuel) last h := by
  induction passes with
  | here => rfl
  | plain plain passed _ ih =>
      rw [passEntries_cons_plain plain, bind_ok passed] at ends ⊢
      exact ih ends
  | @extended p rest last g g' h inner extended inside seen _ ih =>
      rw [passEntries_cons_extended extended] at ends ⊢
      obtain ⟨fuel', returned⟩ := seen.returns inside
      have same : scanCall disk fuel (g.call p) = .ok g' := by
        rw [← returned]
        refine scanCall_unique (fun diverges => ends ?_) (by rw [returned]; exact nofun)
        rw [diverges]
        rfl
      rw [bind_ok same] at ends ⊢
      exact ih ends

/-- The calls within a call that ends end, with less fuel. -/
theorem Enters.ends (enters : Enters disk call inner)
    (ends : scanCall disk (fuel + 1) call ≠ .error .diverge) :
    scanCall disk fuel inner ≠ .error .diverge := by
  obtain ⟨inside, p, rest, g, extended, passes, rfl⟩ := enters
  rw [scanCall_succ inside] at ends
  rw [passes.run ends, passEntries_cons_extended extended] at ends
  intro diverges
  rw [diverges] at ends
  exact ends rfl

/-- A loop ends if the inner calls that it makes end. -/
theorem exists_passEntries (inner : ∀ p rest g', p.fsType = 0x5 →
      Passes disk entries g (p :: rest) g' → (g'.call p).Ends disk) :
    ∃ fuel, passEntries (scanCall disk fuel) entries g ≠ .error .diverge := by
  induction entries generalizing g with
  | nil => exact ⟨0, nofun⟩
  | cons p rest ih =>
      by_cases extended : p.fsType = 0x5
      · obtain ⟨fuel, ends⟩ := inner p rest g extended .here
        cases result : scanCall disk fuel (g.call p) with
        | error fault =>
            refine ⟨fuel, ?_⟩
            rw [passEntries_cons_extended extended, bind_error result]
            rw [result] at ends
            exact fun equal => ends (by cases equal; rfl)
        | ok g' =>
            obtain ⟨inside, tree, seen⟩ := scanCall_ok_tablesSeen result
            obtain ⟨fuel', restEnds⟩ := ih (g := g') fun p' rest' g'' extended' passes =>
              inner p' rest' g'' extended' (.extended extended inside seen passes)
            have agree : ∀ call, scanCall disk fuel' call ≠ .error .diverge →
                scanCall disk (max fuel fuel') call = scanCall disk fuel' call :=
              fun call ends => scanCall_mono ends (Nat.le_max_right _ _)
            refine ⟨max fuel fuel', ?_⟩
            rw [passEntries_cons_extended extended, scanCall_mono ends (Nat.le_max_left _ _),
              bind_ok result, passEntries_mono agree restEnds]
            exact restEnds
      · cases passed : g.pass p with
        | error fault =>
            refine ⟨0, ?_⟩
            rw [passEntries_cons_plain extended, passed]
            exact fun equal => pass_ne_diverge (passed.trans (by cases equal; rfl))
        | ok result =>
            obtain ⟨returns, g'⟩ := result
            cases returns with
            | true =>
                refine ⟨0, ?_⟩
                rw [passEntries_cons_plain extended, bind_ok passed]
                exact nofun
            | false =>
                obtain ⟨fuel, ends⟩ := ih (g := g') fun p' rest' g'' extended' passes =>
                  inner p' rest' g'' extended' (.plain extended passed passes)
                refine ⟨fuel, ?_⟩
                rw [passEntries_cons_plain extended, bind_ok passed]
                exact ends

/-- A call ends when every chain of calls within it does. -/
theorem ends_iff_acc : call.Ends disk ↔ Acc (fun inner outer => Enters disk outer inner) call := by
  constructor
  · rintro ⟨fuel, ends⟩
    induction fuel generalizing call with
    | zero => exact absurd rfl ends
    | succ fuel ih => exact Acc.intro _ fun inner enters => ih (enters.ends ends)
  · intro acc
    induction acc with
    | intro call _ ih =>
        by_cases inside : call.extLba.toNat ≤ maxLba
        · have loop : ∃ fuel,
              passEntries (scanCall disk fuel) (call.table disk) call.globals ≠ .error .diverge :=
            exists_passEntries fun p rest g extended passes =>
              ih _ ⟨inside, p, rest, g, extended, passes, rfl⟩
          obtain ⟨fuel, ends⟩ := loop
          exact ⟨fuel + 1, by rwa [scanCall_succ inside]⟩
        · exact ⟨1, by rw [scanCall_of_gt (Nat.not_le.mp inside)]; exact nofun⟩

/-! ## Finitely many calls -/

/-- Bounds on the counters. -/
def ScanGlobals.Within (bounds g : ScanGlobals) : Prop :=
  g.pNo ≤ max bounds.pNo 4 ∧ g.lNo ≤ max bounds.lNo 8

theorem advance_within {bounds : ScanGlobals} (within : bounds.Within g)
    (run : g.advance = .ok g') : bounds.Within g' := by
  rw [ScanGlobals.advance] at run
  obtain ⟨_, small, run⟩ := bind_eq_ok.mp run
  cases run
  have le := assert_eq_ok.mp small
  refine ⟨Nat.le_trans le (Nat.le_max_right _ _), ?_⟩
  split
  · exact within.2
  · exact within.2

theorem pass_within {bounds : ScanGlobals} {returns : Bool} (within : bounds.Within g)
    (run : g.pass p = .ok (returns, g')) : bounds.Within g' := by
  have advanced : g.advance.map (fun g => (false, g)) = .ok (returns, g') → bounds.Within g' := by
    intro run
    obtain ⟨g'', result, same⟩ := map_eq_ok.mp run
    cases same
    exact advance_within within result
  rw [ScanGlobals.pass] at run
  split at run
  · split at run
    · exact advanced run
    · cases run
  · split at run
    · exact advanced run
    · split at run
      · split at run
        · cases run
          exact ⟨within.1, by dsimp only; omega⟩
        · cases run
      · cases run
        exact within

theorem call_within {bounds : ScanGlobals} (within : bounds.Within g) :
    bounds.Within (g.call p).globals := by
  rw [ScanGlobals.call]
  split
  · exact within
  · exact within

theorem passEntries_within {bounds : ScanGlobals}
    (inner : ∀ call g', bounds.Within call.globals → scan call = .ok g' → bounds.Within g')
    (within : bounds.Within g) (run : passEntries scan entries g = .ok g') :
    bounds.Within g' := by
  induction entries generalizing g with
  | nil =>
      cases run
      exact within
  | cons p rest ih =>
      by_cases extended : p.fsType = 0x5
      · rw [passEntries_cons_extended extended] at run
        obtain ⟨g'', returned, run⟩ := bind_eq_ok.mp run
        exact ih (inner _ _ (call_within within) returned) run
      · rw [passEntries_cons_plain extended] at run
        obtain ⟨⟨returns, g''⟩, passed, run⟩ := bind_eq_ok.mp run
        cases returns with
        | true =>
            cases run
            exact pass_within within passed
        | false => exact ih (pass_within within passed) run

theorem scanCall_within {bounds : ScanGlobals} (within : bounds.Within call.globals)
    (run : scanCall disk fuel call = .ok g') : bounds.Within g' := by
  induction fuel generalizing call g' with
  | zero => cases run
  | succ fuel ih =>
      rw [scanCall] at run
      obtain ⟨bs, -, run⟩ := bind_eq_ok.mp run
      exact passEntries_within (fun call g' => ih) within run

theorem Passes.within {bounds : ScanGlobals} (passes : Passes disk entries g last h)
    (within : bounds.Within g) : bounds.Within h := by
  induction passes with
  | here => exact within
  | plain _ passed _ ih => exact ih (pass_within within passed)
  | extended _ inside seen _ ih =>
      obtain ⟨fuel, returned⟩ := seen.returns inside
      exact ih (scanCall_within (call_within within) returned)

theorem Enters.within {bounds : ScanGlobals} (enters : Enters disk call inner)
    (within : bounds.Within call.globals) : bounds.Within inner.globals := by
  obtain ⟨-, p, rest, g, -, passes, rfl⟩ := enters
  exact call_within (passes.within within)

/-- A call leads to finitely many others. -/
theorem finite_reachable (disk : Bytes) (call : ScanCall) :
    {inner | ReflTransGen (Enters disk) call inner}.Finite := by
  have reached : ∀ inner, ReflTransGen (Enters disk) call inner →
      call.globals.Within inner.globals := by
    intro inner reach
    induction reach with
    | refl => exact ⟨Nat.le_max_left _ _, Nat.le_max_left _ _⟩
    | tail _ enters ih => exact enters.within ih
  have : Finite UInt32 := Finite.of_injective UInt32.toFin fun _ _ => UInt32.toFin_inj.mp
  let build (index : UInt32 × UInt32 × Fin (max call.globals.pNo 4 + 1) ×
      Fin (max call.globals.lNo 8 + 1)) : ScanCall :=
    ⟨index.1, index.2.1, index.2.2.1, index.2.2.2⟩
  refine (Set.finite_range build).subset fun inner reach => ?_
  obtain ⟨pNo, lNo⟩ := reached inner reach
  exact ⟨⟨inner.extLba, inner.globals.extLbaBase, ⟨_, Nat.lt_succ_of_le pNo⟩,
    ⟨_, Nat.lt_succ_of_le lNo⟩⟩, rfl⟩

end

/-- The tables that are looked at form a tree unless a call leads to one for the same sector with
the same globals. -/
theorem tablesSeen_iff_acyclic {disk : Bytes} {call : ScanCall} :
    (maxLba < call.extLba.toNat ∨
      ∃ tree last, TablesSeen disk call.extLba (call.table disk) call.globals tree last) ↔
      ∀ inner, ReflTransGen (Enters disk) call inner → ¬TransGen (Enters disk) inner inner := by
  rw [← acc_iff_acyclic (finite_reachable disk _), ← ends_iff_acc, ScanCall.ends_iff_tablesSeen]

end Pumelo
