import Pumelo.PartitionBuffers

/-!
# Finding the disks

`ide_init`.  The number of the device is set to 0 once, in front of the loop over the
channels, so that only the first channel has its devices identified, and it has both of
them identified however many disks there are.  `partition_list` is initialised for each
channel.

So all disks are found, with their partitions, if and only if there are two of them.
-/

namespace Pumelo

open Foundation

/-- `&channels[channel_no]` -/
def channelAt (channels channelNo : Nat) : Nat := channels + 1616 * channelNo

/-- `&channel->devices[dev_no]` -/
def deviceAt (channel devNo : Nat) : Nat := channel + 48 + 784 * devNo

/-- `channel->port_base` -/
def portBaseAt (mem : Bytes) (channel : Nat) : Nat :=
  (mem (channel + 8)).toNat + 2 ^ 8 * (mem (channel + 9)).toNat

/-- The disks behind the port bases, by the drive bit of the device register. -/
abbrev Drives := (portBase : Nat) → (drive : Bool) → Option Bytes

/-- A disk that `identify_disk` has sent its command to. -/
structure Identified where
  hd : Nat
  portBase : Nat
  drive : Bool
  deriving DecidableEq, Repr

/-- A call `partition_scan(hd, 0)`, with the globals that it finds and the memory that it
leaves. -/
structure Scanned where
  hd : Nat
  globals : ScanGlobals
  after : Bytes

/-- Memory and the globals of `ide.c`, and what `ide_init` has done so far. -/
structure InitState extends ScanState where
  channelCnt : Nat
  identified : List Identified
  scans : List Scanned

/-- The name, the ports and the interrupt of a channel. -/
def nameChannel (mem : Bytes) (channel channelNo : Nat) : Bytes :=
  let digits := (Nat.toDigits 10 channelNo).map fun digit => UInt8.ofNat digit.toNat
  -- snprintf(channel->name, sizeof(channel->name), "ide%d", channel_no)
  let mem := storeString mem channel (([105, 100, 101] ++ digits).take 7 ++ [0])
  match channelNo with
  | 0 => ((mem.write8 (channel + 8) 0xf0).write8 (channel + 9) 0x1).write8 (channel + 10) 0x2e
  | 1 => ((mem.write8 (channel + 8) 0x70).write8 (channel + 9) 0x1).write8 (channel + 10) 0x2f
  | _ => mem

/-- `expecting_intr`, the lock and the semaphore of a channel. -/
def resetChannel (mem : Bytes) (channel : Nat) : Bytes :=
  let mem := mem.write32 (channel + 24) 0
  -- lock_init
  let mem := ((mem.write32 (channel + 16) 0).write32 (channel + 20) 0).write32 (channel + 12) 0
  -- sema_init
  linkInit (mem.write8 (channel + 28) 0) (channel + 32)

/-- The stores for a channel. -/
def setChannel (mem : Bytes) (plist channel channelNo : Nat) : Bytes :=
  resetChannel (linkInit (nameChannel mem channel channelNo) plist) channel

/-- The stores for a device, whose name is `sd` and a letter. -/
def setDevice (mem : Bytes) (channel hd devNo letter : Nat) : Bytes :=
  let mem := mem.write32 (hd + 8) channel
  let mem := mem.write8 (hd + 12) (.ofNat devNo)
  storeString mem hd [115, 100, .ofNat letter, 0]

section

variable (disks : Drives) (fuel plist channels : Nat)

/-- `identify_disk`; a disk that does not answer stops the kernel. -/
def identifyDisk (hd : Nat) (s : InitState) : Except Fault InitState :=
  let portBase := portBaseAt s.mem (s.mem.read32 (hd + 8))
  let drive := decide (s.mem (hd + 12) = 1)
  match disks portBase drive with
  | none => .error (.panic "identify failed")
  | some _ => .ok { s with identified := s.identified ++ [⟨hd, portBase, drive⟩] }

/-- `partition_scan(hd, 0)` -/
def scanDisk (hd : Nat) (s : InitState) : Except Fault InitState :=
  let portBase := portBaseAt s.mem (s.mem.read32 (hd + 8))
  let drive := decide (s.mem (hd + 12) = 1)
  match disks portBase drive with
  | none => .error (.panic "read sector failed")
  | some disk => do
      let scanned ← partitionScan disk plist hd fuel 0 s.toScanState
      return { s with
        toScanState := scanned
        scans := s.scans ++ [⟨hd, s.globals, scanned.mem⟩] }

/-- The body of the loop over the devices. -/
def initDevice (channelNo devNo : Nat) (s : InitState) : Except Fault InitState := do
  let channel := channelAt channels channelNo
  let hd := deviceAt channel devNo
  let mem := setDevice s.mem channel hd devNo (97 + channelNo * 2 + devNo)
  let s ← identifyDisk disks hd { s with mem := mem }
  let s ← if devNo ≠ 0 then scanDisk disks fuel plist hd s else pure s
  return { s with pNo := 0, lNo := 0 }

/-- `while (dev_no < 2)`, with the value of `dev_no` behind it. -/
def initDevices (channelNo devNo : Nat) (s : InitState) : Except Fault (Nat × InitState) :=
  if devNo < 2 then do
    let s ← initDevice disks fuel plist channels channelNo devNo s
    initDevices channelNo (devNo + 1) s
  else .ok (devNo, s)
termination_by 2 - devNo

/-- `while (channel_no < channel_cnt)`, with `left` channels to come. -/
def initChannels : (left channelNo devNo : Nat) → InitState → Except Fault InitState
  | 0, _, _, s => .ok s
  | left + 1, channelNo, devNo, s =>
      if channelNo < 2 then do
        let mem := setChannel s.mem plist (channelAt channels channelNo) channelNo
        let (devNo, s) ← initDevices disks fuel plist channels channelNo devNo { s with mem := mem }
        initChannels left (channelNo + 1) devNo s
      else .error (.outOfBounds "channels" channelNo)

/-- `ide_init`, where `hdCnt` is the byte at 0x475; `fuel` bounds the depth of a scan. -/
def ideInit (hdCnt : UInt8) (mem : Bytes) : Except Fault InitState := do
  assert (hdCnt > 0) "hd_cnt > 0"
  let channelCnt := divRoundUp hdCnt.toNat 2
  initChannels disks fuel plist channels channelCnt 0 0
    { mem := mem, extLbaBase := 0, pNo := 0, lNo := 0, channelCnt := channelCnt, identified := [],
      scans := [] }

end

/-- Where `partition_list` and the channels are. -/
structure InitLayout (plist channels : Nat) : Prop where
  channelsFit : channels + 3232 ≤ 2 ^ 32
  plistFits : plist + 16 ≤ 2 ^ 32
  apart : plist + 16 ≤ channels ∨ channels + 3232 ≤ plist

/-- The fields of a device: its channel, its number, and its name. -/
structure DeviceFields (mem : Bytes) (channel hd devNo letter : Nat) : Prop where
  myChannel : mem.read32 (hd + 8) = channel
  devNo : mem (hd + 12) = .ofNat devNo
  name : cString mem hd 8 = [115, 100, .ofNat letter]

section

variable {mem mem' : Bytes} {plist channels channel hd devNo letter query : Nat}

/-- A string without zeros is read back. -/
theorem cString_storeString {text : List UInt8} {addr count : Nat}
    (printed : ∀ byte ∈ text, byte ≠ 0) (short : text.length < count) :
    cString (storeString mem addr (text ++ [0])) addr count = text := by
  induction text generalizing mem addr count with
  | nil =>
      obtain ⟨count, rfl⟩ := Nat.exists_eq_succ_of_ne_zero (Nat.ne_zero_of_lt short)
      rw [cString]
      exact if_pos (if_pos rfl)
  | cons byte rest ih =>
      obtain ⟨count, rfl⟩ := Nat.exists_eq_succ_of_ne_zero (Nat.ne_zero_of_lt short)
      have kept : storeString mem addr (byte :: rest ++ [0]) addr = byte := by
        rw [List.cons_append, storeString, storeString_of_outside _ (by omega)]
        exact if_pos rfl
      rw [cString, kept, if_neg (printed byte List.mem_cons_self), List.cons_append, storeString,
        ih (fun other member => printed other (List.mem_cons_of_mem _ member))
          (Nat.lt_of_succ_lt_succ short)]

theorem setDevice_of_outside (outside : query < hd ∨ hd + 13 ≤ query) :
    setDevice mem channel hd devNo letter query = mem query := by
  simp only [setDevice]
  rw [storeString_of_outside _ (by simp only [List.length_cons, List.length_nil]; omega),
    Bytes.write8_of_ne _ _ (by omega), Bytes.write32_of_outside _ _ (by omega)]

/-- The fields depend on the bytes in front of the partitions. -/
theorem DeviceFields.congr (fields : DeviceFields mem channel hd devNo letter)
    (agree : ∀ query, hd ≤ query → query < hd + 13 → mem' query = mem query) :
    DeviceFields mem' channel hd devNo letter := by
  obtain ⟨myChannel, number, name⟩ := fields
  refine ⟨?_, ?_, ?_⟩
  · rw [← myChannel]
    exact Bytes.read32_congr fun query lower upper => agree query (by omega) (by omega)
  · rw [← number]
    exact agree _ (by omega) (by omega)
  · have same : ∀ count addr, hd ≤ addr → addr + count ≤ hd + 13 →
        cString mem' addr count = cString mem addr count := by
      intro count
      induction count with
      | zero => exact fun _ _ _ => rfl
      | succ count ih =>
          intro addr lower upper
          rw [cString, cString, agree addr lower (by omega), ih _ (by omega) (by omega)]
    rw [← name]
    exact same 8 hd (Nat.le_refl _) (by omega)

theorem setDevice_fields (small : channel < 2 ^ 32) (printed : UInt8.ofNat letter ≠ 0) :
    DeviceFields (setDevice mem channel hd devNo letter) channel hd devNo letter := by
  refine ⟨?_, ?_, ?_⟩
  · simp only [setDevice]
    have kept : ∀ base : Bytes, (storeString base hd [115, 100, .ofNat letter, 0]).read32 (hd + 8) =
        base.read32 (hd + 8) := fun base => Bytes.read32_congr fun query lower upper =>
      storeString_of_outside base (by simp only [List.length_cons, List.length_nil]; omega)
    rw [kept, Bytes.read32_write8_of_outside _ _ (by omega), Bytes.read32_write32_self _ small]
  · simp only [setDevice]
    rw [storeString_of_outside _ (by simp only [List.length_cons, List.length_nil]; omega)]
    exact if_pos rfl
  · show cString (storeString _ hd ([115, 100, .ofNat letter] ++ [0])) hd 8 = _
    refine cString_storeString (fun byte member => ?_) (show 3 < 8 by decide)
    simp only [List.mem_cons, List.not_mem_nil, or_false] at member
    rcases member with rfl | rfl | rfl
    · decide
    · decide
    · exact printed

/-- The port base depends on two bytes of the channel. -/
theorem portBaseAt_congr
    (agree : ∀ query, channel + 8 ≤ query → query < channel + 10 → mem' query = mem query) :
    portBaseAt mem' channel = portBaseAt mem channel := by
  rw [portBaseAt, portBaseAt, agree _ (by omega) (by omega), agree _ (by omega) (by omega)]

theorem resetChannel_of_outside (outside : query < channel + 12 ∨ channel + 48 ≤ query) :
    resetChannel mem channel query = mem query := by
  simp only [resetChannel]
  rw [linkInit_of_outside _ (by omega), Bytes.write8_of_ne _ _ (by omega),
    Bytes.write32_of_outside _ _ (by omega), Bytes.write32_of_outside _ _ (by omega),
    Bytes.write32_of_outside _ _ (by omega), Bytes.write32_of_outside _ _ (by omega)]

/-- The first channel gets the primary ports, and the list is empty. -/
theorem setChannel_first (layout : InitLayout plist channels) :
    portBaseAt (setChannel mem plist channels 0) channels = 0x1f0 ∧
      ListAt (setChannel mem plist channels 0) plist [] := by
  have apart := layout.apart
  constructor
  · have ports : portBaseAt (nameChannel mem channels 0) channels = 0x1f0 := by
      simp [nameChannel, portBaseAt, Bytes.write8]
    rw [← ports]
    refine portBaseAt_congr fun query lower upper => ?_
    rw [setChannel, resetChannel_of_outside (by omega), linkInit_of_outside _ (by omega)]
  · have empty : ListAt (linkInit (nameChannel mem channels 0) plist) plist [] :=
      linkInit_listAt _ layout.plistFits
    exact empty.nil_congr fun query lower upper => resetChannel_of_outside (by omega)

/-! ## The run -/

variable {disks : Drives} {fuel : Nat} {s s' : InitState} {master slave : Bytes}

/-- What `identify_disk` does to a device whose fields are set. -/
theorem identifyDisk_eq (fields : DeviceFields s.mem channel hd devNo letter)
    (ports : portBaseAt s.mem channel = 0x1f0) :
    identifyDisk disks hd s = match disks 0x1f0 (decide (UInt8.ofNat devNo = 1)) with
      | none => .error (.panic "identify failed")
      | some _ => .ok { s with
          identified := s.identified ++ [⟨hd, 0x1f0, decide (UInt8.ofNat devNo = 1)⟩] } := by
  simp only [identifyDisk, fields.myChannel, fields.devNo, ports]

/-- What `partition_scan` does to a device whose fields are set. -/
theorem scanDisk_eq (fields : DeviceFields s.mem channel hd devNo letter)
    (ports : portBaseAt s.mem channel = 0x1f0)
    (answers : disks 0x1f0 (decide (UInt8.ofNat devNo = 1)) = some slave) :
    scanDisk disks fuel plist hd s =
      (partitionScan slave plist hd fuel 0 s.toScanState).map fun scanned => { s with
        toScanState := scanned
        scans := s.scans ++ [⟨hd, s.globals, scanned.mem⟩] } := by
  simp only [scanDisk, fields.myChannel, fields.devNo, ports, answers]
  cases partitionScan slave plist hd fuel 0 s.toScanState with
  | error fault => rfl
  | ok scanned => rfl

/-- The memory in front of the scan of the first channel. -/
def firstMem (mem : Bytes) (channels : Nat) : Bytes :=
  setDevice (setDevice mem channels (deviceAt channels 0) 0 97) channels (deviceAt channels 1) 1 98

theorem firstMem_of_outside (outside : query < channels + 48 ∨ channels + 845 ≤ query) :
    firstMem mem channels query = mem query := by
  rw [firstMem, setDevice_of_outside (by rw [deviceAt]; omega),
    setDevice_of_outside (by rw [deviceAt]; omega)]

theorem firstMem_fields (layout : InitLayout plist channels) :
    DeviceFields (firstMem mem channels) channels (deviceAt channels 0) 0 97 ∧
      DeviceFields (firstMem mem channels) channels (deviceAt channels 1) 1 98 := by
  have fit := layout.channelsFit
  have small : channels < 2 ^ 32 := by omega
  refine ⟨?_, setDevice_fields small (by decide)⟩
  refine (setDevice_fields small (by decide) : DeviceFields
    (setDevice mem channels (deviceAt channels 0) 0 97) channels _ 0 97).congr ?_
  intro query lower upper
  exact setDevice_of_outside (by rw [deviceAt] at upper ⊢; omega)

/-- The list is empty in front of the scan. -/
theorem firstMem_empty (layout : InitLayout plist channels) (empty : ListAt mem plist []) :
    ListAt (firstMem mem channels) plist [] := by
  have apart := layout.apart
  exact empty.nil_congr fun query lower upper => firstMem_of_outside (by omega)

theorem InitLayout.scan (layout : InitLayout plist channels) :
    ScanLayout plist (deviceAt channels 1) := by
  obtain ⟨channelsFit, plistFits, apart⟩ := layout
  refine ⟨?_, plistFits, ?_⟩
  · rw [deviceAt]
    omega
  · rw [deviceAt]
    omega

/-- The master disk of the first channel is identified. -/
theorem initDevice_master (layout : InitLayout plist channels)
    (ports : portBaseAt s.mem channels = 0x1f0) (answers : disks 0x1f0 false = some master) :
    initDevice disks fuel plist channels 0 0 s = .ok { s with
      mem := setDevice s.mem channels (deviceAt channels 0) 0 97
      pNo := 0
      lNo := 0
      identified := s.identified ++ [⟨deviceAt channels 0, 0x1f0, false⟩] } := by
  have fit := layout.channelsFit
  have fields : DeviceFields (setDevice s.mem channels (deviceAt channels 0) 0 97) channels
      (deviceAt channels 0) 0 97 := setDevice_fields (by omega) (by decide)
  have ports' : portBaseAt (setDevice s.mem channels (deviceAt channels 0) 0 97) channels =
      0x1f0 := by
    rw [← ports]
    exact portBaseAt_congr fun query lower upper => setDevice_of_outside (by rw [deviceAt]; omega)
  have identify : identifyDisk disks (deviceAt channels 0) { s with
      mem := setDevice s.mem channels (deviceAt channels 0) 0 97 } = _ :=
    identifyDisk_eq fields ports'
  rw [show decide (UInt8.ofNat 0 = 1) = false by decide, answers] at identify
  exact bind_ok identify

/-- The slave disk of the first channel is identified and scanned. -/
theorem initDevice_slave (layout : InitLayout plist channels)
    (ports : portBaseAt s.mem channels = 0x1f0) :
    initDevice disks fuel plist channels 0 1 s =
      match disks 0x1f0 true with
      | none => .error (.panic "identify failed")
      | some slave =>
          (partitionScan slave plist (deviceAt channels 1) fuel 0
            { s.toScanState with
              mem := setDevice s.mem channels (deviceAt channels 1) 1 98 }).map fun scanned =>
            { mem := scanned.mem
              extLbaBase := scanned.extLbaBase
              pNo := 0
              lNo := 0
              channelCnt := s.channelCnt
              identified := s.identified ++ [⟨deviceAt channels 1, 0x1f0, true⟩]
              scans := s.scans ++ [⟨deviceAt channels 1, s.globals, scanned.mem⟩] } := by
  have fit := layout.channelsFit
  have fields : DeviceFields (setDevice s.mem channels (deviceAt channels 1) 1 98) channels
      (deviceAt channels 1) 1 98 := setDevice_fields (by omega) (by decide)
  have ports' : portBaseAt (setDevice s.mem channels (deviceAt channels 1) 1 98) channels =
      0x1f0 := by
    rw [← ports]
    exact portBaseAt_congr fun query lower upper => setDevice_of_outside (by rw [deviceAt]; omega)
  have identify : identifyDisk disks (deviceAt channels 1) { s with
      mem := setDevice s.mem channels (deviceAt channels 1) 1 98 } = _ :=
    identifyDisk_eq fields ports'
  rw [show decide (UInt8.ofNat 1 = 1) = true by decide] at identify
  cases answers : disks 0x1f0 true with
  | none =>
      rw [answers] at identify
      exact bind_error identify
  | some slave =>
      rw [answers] at identify
      have scan : scanDisk disks fuel plist (deviceAt channels 1) { s with
          mem := setDevice s.mem channels (deviceAt channels 1) 1 98
          identified := s.identified ++ [⟨deviceAt channels 1, 0x1f0, true⟩] } = _ :=
        scanDisk_eq fields ports' answers
      refine (bind_ok identify).trans ?_
      have first : channelAt channels 0 = channels := rfl
      dsimp only
      rw [if_pos (by decide), first, scan]
      cases partitionScan slave plist (deviceAt channels 1) fuel 0 { s.toScanState with
          mem := setDevice s.mem channels (deviceAt channels 1) 1 98 } with
      | error fault => rfl
      | ok scanned => rfl

theorem initDevices_two (channelNo : Nat) (s : InitState) :
    initDevices disks fuel plist channels channelNo 2 s = .ok (2, s) := by
  rw [initDevices, if_neg (by decide)]

/-- The devices of the first channel: both are identified, and the second is scanned. -/
theorem initDevices_first (layout : InitLayout plist channels)
    (ports : portBaseAt s.mem channels = 0x1f0) (answers : disks 0x1f0 false = some master) :
    initDevices disks fuel plist channels 0 0 s =
      match disks 0x1f0 true with
      | none => .error (.panic "identify failed")
      | some slave =>
          (partitionScan slave plist (deviceAt channels 1) fuel 0
            ⟨firstMem s.mem channels, s.extLbaBase, 0, 0⟩).map fun scanned => (2,
              { mem := scanned.mem
                extLbaBase := scanned.extLbaBase
                pNo := 0
                lNo := 0
                channelCnt := s.channelCnt
                identified := s.identified ++ [⟨deviceAt channels 0, 0x1f0, false⟩] ++
                  [⟨deviceAt channels 1, 0x1f0, true⟩]
                scans := s.scans ++
                  [⟨deviceAt channels 1, ⟨s.extLbaBase, 0, 0⟩, scanned.mem⟩] }) := by
  have kept : portBaseAt (setDevice s.mem channels (deviceAt channels 0) 0 97) channels =
      0x1f0 := by
    rw [← ports]
    exact portBaseAt_congr fun query lower upper => setDevice_of_outside (by rw [deviceAt]; omega)
  rw [initDevices, if_pos (by decide), bind_ok (initDevice_master layout ports answers),
    initDevices,
    if_pos (by decide)]
  have second : initDevice disks fuel plist channels 0 1 { s with
      mem := setDevice s.mem channels (deviceAt channels 0) 0 97
      pNo := 0
      lNo := 0
      identified := s.identified ++ [⟨deviceAt channels 0, 0x1f0, false⟩] } = _ :=
    initDevice_slave layout kept
  rw [second]
  cases disks 0x1f0 true with
  | none => rfl
  | some slave =>
      show ((partitionScan slave plist (deviceAt channels 1) fuel 0
        ⟨firstMem s.mem channels, s.extLbaBase, 0, 0⟩).map _ >>= _) =
          (partitionScan slave plist (deviceAt channels 1) fuel 0
            ⟨firstMem s.mem channels, s.extLbaBase, 0, 0⟩).map _
      cases partitionScan slave plist (deviceAt channels 1) fuel 0
          ⟨firstMem s.mem channels, s.extLbaBase, 0, 0⟩ with
      | error fault => rfl
      | ok scanned =>
          exact initDevices_two 0 _

/-- The other channels find the number of the device where it was left. -/
theorem initChannels_identified {left channelNo : Nat}
    (run : initChannels disks fuel plist channels left channelNo 2 s = .ok s') :
    s'.identified = s.identified := by
  induction left generalizing channelNo s with
  | zero =>
      cases run
      rfl
  | succ left ih =>
      rw [initChannels] at run
      split at run
      · dsimp only at run
        rw [bind_ok (initDevices_two _ _)] at run
        exact (ih run :)
      · cases run

/-- A partition is in the list at `plist`: the links lead to it in front of the tailer. -/
def OnList (mem : Bytes) (plist tag : Nat) : Prop :=
  ∃ steps, (nextOf mem)^[steps + 1] plist = tag ∧
    ∀ earlier, earlier ≤ steps → (nextOf mem)^[earlier + 1] plist ≠ tailer plist

/-- The address of a disk: device `disk % 2` of channel `disk / 2`. -/
def diskAt (channels disk : Nat) : Nat := deviceAt (channelAt channels (disk / 2)) (disk % 2)

/-- The ports of a channel. -/
def portsOf (channelNo : Nat) : Nat := if channelNo = 0 then 0x1f0 else 0x170

/-- The disks that there are have been identified, each as the device that it is, the
slaves among them have been scanned from the start, and `partition_list` holds what each
scan has found. -/
structure Enumerated (plist channels hdCnt : Nat) (s : InitState) : Prop where
  identified : s.identified = (List.range hdCnt).map fun disk =>
    ⟨diskAt channels disk, portsOf (disk / 2), disk % 2 = 1⟩
  fields : ∀ disk, disk < hdCnt →
    DeviceFields s.mem (channelAt channels (disk / 2)) (diskAt channels disk) (disk % 2) (97 + disk)
  scans : s.scans.map (fun scanned => (scanned.hd, scanned.globals)) =
    ((List.range hdCnt).filter (· % 2 = 1)).map fun disk => (diskAt channels disk, ⟨0, 0, 0⟩)
  list : ∀ tag, OnList s.mem plist tag ↔ ∃ scanned ∈ s.scans, OnList scanned.after plist tag

/-- The number of channels, which is 1 for two disks. -/
theorem channelCnt_eq {hdCnt : UInt8} (positive : hdCnt > 0) :
    ∃ left, divRoundUp hdCnt.toNat 2 = left + 1 ∧ (hdCnt = 2 → left = 0) := by
  have positive : 0 < hdCnt.toNat := UInt8.lt_iff_toNat_lt.mp positive
  have small := hdCnt.toNat_lt
  refine ⟨(hdCnt.toNat - 1) / 2, ?_, ?_⟩
  · rw [divRoundUp]
    omega
  · rintro rfl
    rfl

/-- `ide_init` up to the end of the first channel. -/
theorem ideInit_eq {hdCnt : UInt8} (layout : InitLayout plist channels) (positive : hdCnt > 0)
    {left : Nat} (count : divRoundUp hdCnt.toNat 2 = left + 1)
    (answers : disks 0x1f0 false = some master) :
    ideInit disks fuel plist channels hdCnt mem =
      match disks 0x1f0 true with
      | none => .error (.panic "identify failed")
      | some slave =>
          partitionScan slave plist (deviceAt channels 1) fuel 0
              ⟨firstMem (setChannel mem plist channels 0) channels, 0, 0, 0⟩ >>= fun scanned =>
            initChannels disks fuel plist channels left 1 2
              { mem := scanned.mem
                extLbaBase := scanned.extLbaBase
                pNo := 0
                lNo := 0
                channelCnt := left + 1
                identified := [⟨deviceAt channels 0, 0x1f0, false⟩,
                  ⟨deviceAt channels 1, 0x1f0, true⟩]
                scans := [⟨deviceAt channels 1, ⟨0, 0, 0⟩, scanned.mem⟩] } := by
  have ports : portBaseAt (setChannel mem plist channels 0) channels = 0x1f0 :=
    (setChannel_first layout).1
  rw [ideInit, bind_ok (assert_of positive _), count]
  dsimp only
  rw [initChannels, if_pos (by decide)]
  have devices : initDevices disks fuel plist channels 0 0
      { mem := setChannel mem plist channels 0, extLbaBase := 0, pNo := 0, lNo := 0,
        channelCnt := left + 1, identified := [], scans := [] } = _ :=
    initDevices_first layout ports answers
  have first : channelAt channels 0 = channels := rfl
  dsimp only
  rw [first, devices]
  cases disks 0x1f0 true with
  | none => rfl
  | some slave =>
      dsimp only
      cases partitionScan slave plist (deviceAt channels 1) fuel 0
          ⟨firstMem (setChannel mem plist channels 0) channels, 0, 0, 0⟩ with
      | error fault => rfl
      | ok scanned => rfl

/-- Disks that are all found are two, and the scan of the second has returned. -/
theorem two_of_enumerated {hdCnt : UInt8} (layout : InitLayout plist channels)
    (answers : ∀ disk, disk < hdCnt.toNat →
      ∃ contents, disks (portsOf (disk / 2)) (disk % 2 = 1) = some contents)
    (run : ideInit disks fuel plist channels hdCnt mem = .ok s)
    (enumerated : Enumerated plist channels hdCnt.toNat s) :
    hdCnt = 2 ∧ ∃ slave, disks 0x1f0 true = some slave ∧
      ∃ fuel g, scanCall slave fuel ⟨0, ⟨0, 0, 0⟩⟩ = .ok g := by
  have positive : hdCnt > 0 := by
    by_contra zero
    rw [ideInit, bind_error (assert_of_not zero _)] at run
    cases run
  obtain ⟨left, count, -⟩ := channelCnt_eq positive
  obtain ⟨master, first⟩ := answers 0 (UInt8.lt_iff_toNat_lt.mp positive)
  have first : disks 0x1f0 false = some master := first
  rw [ideInit_eq layout positive count first] at run
  cases second : disks 0x1f0 true with
  | none =>
      rw [second] at run
      cases run
  | some slave =>
      rw [second] at run
      obtain ⟨scanned, scan, run⟩ := bind_eq_ok.mp run
      refine ⟨?_, slave, rfl, fuel, scanned.globals, scanCall_of_partitionScan scan⟩
      -- both disks of the first channel have been identified, and no others
      have two := congrArg List.length (initChannels_identified run)
      rw [enumerated.identified, List.length_map, List.length_range] at two
      exact UInt8.toNat_inj.mp two

/-- The disks and their partitions are all found exactly if there are two disks and the
scan of the second returns. -/
theorem ideInit_enumerates_iff {hdCnt : UInt8} (layout : InitLayout plist channels)
    (answers : ∀ disk, disk < hdCnt.toNat →
      ∃ contents, disks (portsOf (disk / 2)) (disk % 2 = 1) = some contents) :
    (∃ fuel s, ideInit disks fuel plist channels hdCnt mem = .ok s ∧
        Enumerated plist channels hdCnt.toNat s) ↔
      hdCnt = 2 ∧ ∃ slave, disks 0x1f0 true = some slave ∧
        ∃ fuel g, scanCall slave fuel ⟨0, ⟨0, 0, 0⟩⟩ = .ok g := by
  constructor
  · rintro ⟨fuel, s, run, enumerated⟩
    exact two_of_enumerated layout answers run enumerated
  · rintro ⟨rfl, slave, second, fuel, g, returns⟩
    obtain ⟨master, first⟩ := answers 0 (by decide)
    have first : disks 0x1f0 false = some master := first
    have two : (2 : UInt8) > 0 := by decide
    have run : ideInit disks fuel plist channels 2 mem = _ :=
      ideInit_eq layout two (show divRoundUp (UInt8.toNat 2) 2 = 0 + 1 by decide) first
    rw [second] at run
    cases scan : partitionScan slave plist (deviceAt channels 1) fuel 0
        ⟨firstMem (setChannel mem plist channels 0) channels, 0, 0, 0⟩ with
    | error fault =>
        have control := partitionScan_globals plist (deviceAt channels 1) slave fuel 0
          ⟨firstMem (setChannel mem plist channels 0) channels, 0, 0, 0⟩
        rw [scan] at control
        exact nomatch control.trans returns
    | ok scanned =>
        have slaveLayout := layout.scan
        have empty : ListAt (firstMem (setChannel mem plist channels 0) channels) plist [] :=
          firstMem_empty layout (setChannel_first layout).2
        obtain ⟨fields0, fields1⟩ :
          DeviceFields (firstMem (setChannel mem plist channels 0) channels)
            channels (deviceAt channels 0) 0 97 ∧
          DeviceFields (firstMem (setChannel mem plist channels 0) channels) channels
            (deviceAt channels 1) 1 98 := firstMem_fields layout
        have kept : ∀ query, ¬ScanBytes plist (deviceAt channels 1) query →
            scanned.mem query = firstMem (setChannel mem plist channels 0) channels query :=
          fun query outside => partitionScan_of_outside slaveLayout empty scan outside
        have apart := layout.apart
        refine ⟨fuel, _, run.trans (bind_ok scan), ⟨rfl, fun disk small => ?_, rfl, fun tag => ?_⟩⟩
        · have either : disk = 0 ∨ disk = 1 := by
            have : disk < 2 := small
            omega
          rcases either with rfl | rfl
          · refine fields0.congr fun query lower upper => kept query ?_
            rw [ScanBytes]
            rw [deviceAt] at lower upper ⊢
            omega
          · refine fields1.congr fun query lower upper => kept query ?_
            rw [ScanBytes]
            rw [deviceAt] at lower upper ⊢
            omega
        · simp

end

theorem initLayout : InitLayout 4096 8192 := ⟨by decide, by decide, by decide⟩

theorem ideInit_enumerates_two :
    ∃ fuel s, ideInit (fun _ _ => some mixedPartitions) fuel 4096 8192 2 (fun _ => 0) = .ok s ∧
      Enumerated 4096 8192 2 s := by
  have few : FewLogical mixedPartitions 0 := by
    obtain ⟨base, tables⟩ := mixedPartitions_tables
    exact ⟨mixedPartitionsTree, base, tables, by decide⟩
  obtain ⟨fuel, s, run, -⟩ := few.returns scanLayout scanMem_empty
  exact (ideInit_enumerates_iff initLayout fun _ _ => ⟨_, rfl⟩).mpr
    ⟨rfl, mixedPartitions, rfl, fuel, s.globals, scanCall_of_partitionScan run⟩

/-- Of four disks, two are not found. -/
theorem not_enumerated_four :
    ¬∃ fuel s, ideInit (fun _ _ => some mixedPartitions) fuel 4096 8192 4 (fun _ => 0) = .ok s ∧
      Enumerated 4096 8192 4 s := by
  rintro ⟨fuel, s, run, enumerated⟩
  have two := (two_of_enumerated initLayout (fun _ _ => ⟨_, rfl⟩) run enumerated).1
  exact absurd two (by decide)

end Pumelo
