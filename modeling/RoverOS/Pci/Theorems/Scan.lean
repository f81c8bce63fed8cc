import RoverOS.Pci.Theorems.Address
import RoverOS.Library.Run

-- Which devices a scan records, and how far the array of the records grows.

open Run (Steps)

namespace RoverOS.Pci

variable {top : Topology} {bus : BitVec 8} {mem : Krealloc} {pci pci' start : PciInfo} {info : PciDeviceInfo}
  {infos : List PciDeviceInfo} {i left : Nat}

-- A device is there when its function 0 has a vendor.
def Present (top : Topology) (bus : BitVec 8) (dev : BitVec 5) : Prop :=
  PCI_HEADER_GET_VENDOR (top bus dev 0 0) ≠ 0xFFFF

instance (top : Topology) (bus : BitVec 8) (dev : BitVec 5) : Decidable (Present top bus dev) :=
  inferInstanceAs (Decidable (_ ≠ _))

-- The numbers of the devices on a bus.
def devices (top : Topology) (bus : BitVec 8) : List Nat :=
  (List.range 32).filter fun d => Present top bus (BitVec.ofNat 5 d)

-- The record of a device.
def infoOf (top : Topology) (bus : BitVec 8) (d : Nat) : PciDeviceInfo where
  classCode    := (PCI_HEADER_GET_CLASSCODE (top bus (BitVec.ofNat 5 d) 0 8)).setWidth 64
  bus          := bus
  dev          := BitVec.ofNat 8 d
  behindBridge := false
  bridge       := 0

-- The bus that answers for device number `i` of the loop.
def aliasBus (bus : BitVec 8) (i : Nat) : BitVec 8 := bus ||| BitVec.ofNat 8 (i / 32)

section Loop

-- What the loop reads for device number `i`.
def dataAt (top : Topology) (bus : BitVec 8) (i : Nat) (reg : BitVec 32) : BitVec 32 :=
  getPCIData top (bus.setWidth 32) (BitVec.ofNat 32 i) 0 reg

def Answers (top : Topology) (bus : BitVec 8) (i : Nat) : Prop :=
  PCI_HEADER_GET_VENDOR (dataAt top bus i PCI_HEADER_VENDOR) ≠ 0xFFFF

instance (top : Topology) (bus : BitVec 8) (i : Nat) : Decidable (Answers top bus i) :=
  inferInstanceAs (Decidable (_ ≠ _))

def found (top : Topology) (bus : BitVec 8) (i : Nat) : PciDeviceInfo :=
  ⟨(PCI_HEADER_GET_CLASSCODE (dataAt top bus i PCI_HEADER_CLASSCODE)).setWidth 64, bus, BitVec.ofNat 8 i, false, 0⟩

theorem scanFrom_eq : pci.scanFrom mem top bus left i =
    (((List.range' i left).filter (Answers top bus)).map (found top bus)).foldlM (PciInfo.record mem) pci := by
  induction left generalizing i pci
  case zero => rfl
  case succ left hi =>
    rw [PciInfo.scanFrom, List.range'_succ]
    by_cases ha : Answers top bus i
    case neg =>
      rw [List.filter_cons_of_neg (by simpa using ha), ← hi]
      exact if_pos (not_not.mp ha)
    case pos =>
      rw [List.filter_cons_of_pos (by simpa using ha), List.map_cons, List.foldlM_cons]
      refine (if_neg ha).trans ?_
      exact congrArg _ (funext fun pci => hi)

theorem dataAt_eq (hi : i < 256) {reg : BitVec 32} :
    dataAt top bus i reg = top (aliasBus bus i) (BitVec.ofNat 5 i) 0 ((reg &&& 0xFC).setWidth 8) := by
  have hd : BitVec.ofNat 32 i = (BitVec.ofNat 8 i).setWidth 32 := by
    apply BitVec.eq_of_toNat_eq
    simp only [BitVec.toNat_ofNat, BitVec.toNat_setWidth]
    omega
  have hs : BitVec.ofNat 8 i >>> 5 = BitVec.ofNat 8 (i / 32) := by
    apply BitVec.eq_of_toNat_eq
    simp only [BitVec.toNat_ofNat, BitVec.toNat_ushiftRight, Nat.shiftRight_eq_div_pow]
    omega
  have ha : configAddress (bus.setWidth 32) (BitVec.ofNat 32 i) 0 reg = address bus (BitVec.ofNat 8 i) 0 reg := by
    rw [hd]
    rfl
  have hw : (BitVec.ofNat 8 i).setWidth 5 = BitVec.ofNat 5 i := BitVec.setWidth_ofNat_of_le (by decide) i
  rw [dataAt, getPCIData, Topology.data, ha, busOf_address, devOf_address, fnOf_address, regOf_address, hs, hw, aliasBus]

theorem answers_iff (hi : i < 256) : Answers top bus i ↔ Present top (aliasBus bus i) (BitVec.ofNat 5 i) := by
  rw [Answers, dataAt_eq hi]
  rfl

theorem aliasBus_eq (hi : i < 32) : aliasBus bus i = bus := by
  rw [aliasBus, Nat.div_eq_of_lt hi]
  exact BitVec.or_zero

theorem found_eq (hi : i < 32) : found top bus i = infoOf top bus i := by
  rw [found, dataAt_eq (by omega), aliasBus_eq hi]
  rfl

end Loop

section Records

namespace PciInfo

-- There is room for another record, and the array has grown by tens.
structure Room (pci : PciInfo) : Prop where
  count  : pci.deviceCount.toNat < pci.alloc.toNat
  length : pci.device.length = pci.alloc.toNat
  tens   : pci.alloc.toNat % 10 = 0

-- The number of records that the array could grow to is not a `uint16_t`.
structure Lost (pci : PciInfo) : Prop where
  count  : pci.deviceCount.toNat = 65530
  length : pci.device.length = 4

theorem Start.room (h : pci.Start) : pci.Room := by
  refine ⟨?_, ?_, ?_⟩
  case refine_1 => rw [h.count, h.alloc]; decide
  case refine_2 => rw [h.device, h.alloc]; rfl
  case refine_3 => rw [h.alloc]; rfl

theorem Room.count_succ (h : pci.Room) : (pci.deviceCount + 1).toNat = pci.deviceCount.toNat + 1 := by
  have hc := h.count
  have ha := pci.alloc.isLt
  rw [BitVec.toNat_add]
  exact Nat.mod_eq_of_lt (by simp; omega)

theorem Room.recorded_length (h : pci.Room) : pci.recorded.length = pci.deviceCount.toNat := by
  rw [recorded, List.length_take, h.length]
  exact Nat.min_eq_left (Nat.le_of_lt h.count)

theorem recorded_set (h : pci.Room) :
    (pci.device.set pci.deviceCount.toNat info).take (pci.deviceCount.toNat + 1) = pci.recorded ++ [info] := by
  have hl : pci.deviceCount.toNat < pci.device.length := h.length ▸ h.count
  rw [List.take_add_one, List.getElem?_set_self hl, List.take_set_of_le (Nat.le_refl _)]
  rfl

-- A block that has become larger starts with the old one.
theorem take_resize {device : List PciDeviceInfo} {n k : Nat} (hn : device.length ≤ n) (hk : k ≤ device.length) :
    (mem.resize device n).take k = device.take k := by
  have ht := mem.keeps device n
  rw [List.take_of_length_le hn] at ht
  calc (mem.resize device n).take k
    _ = ((mem.resize device n).take device.length).take k := by rw [List.take_take, Nat.min_eq_left hk]
    _ = device.take k := by rw [ht]

theorem Room.record_eq (h : pci.Room) : pci.record mem info =
    if pci.deviceCount + 1 ≥ pci.alloc then
      .ok ⟨mem.resize (pci.device.set pci.deviceCount.toNat info) (pci.alloc + 10).toNat, pci.deviceCount + 1,
        pci.alloc + 10⟩
    else .ok ⟨pci.device.set pci.deviceCount.toNat info, pci.deviceCount + 1, pci.alloc⟩ :=
  if_pos (h.length ▸ h.count)

theorem Room.record (h : pci.Room) (mem : Krealloc) (info : PciDeviceInfo)
    (hc : pci.deviceCount.toNat + 1 < 65530) : ∃ pci', pci.record mem info = .ok pci' ∧
    pci'.Room ∧ pci'.recorded = pci.recorded ++ [info] ∧ pci'.deviceCount.toNat = pci.deviceCount.toNat + 1 := by
  have hcount := h.count
  have hlen := h.length
  have htens := h.tens
  have hs := h.count_succ
  rw [h.record_eq]
  split
  case isTrue hg =>
    rw [ge_iff_le, BitVec.le_def, hs] at hg
    have ha : (pci.alloc + 10).toNat = pci.alloc.toNat + 10 := by
      rw [BitVec.toNat_add]
      exact Nat.mod_eq_of_lt (by simp; omega)
    refine ⟨_, rfl, ⟨?_, ?_, ?_⟩, ?_, hs⟩
    case refine_1 => simp only [hs, ha]; omega
    case refine_2 => exact mem.length _ _
    case refine_3 => simp only [ha]; omega
    case refine_4 =>
      simp only [recorded, hs, ha]
      rw [take_resize (by rw [List.length_set]; omega) (by rw [List.length_set]; omega)]
      exact recorded_set h
  case isFalse hg =>
    rw [ge_iff_le, BitVec.le_def, hs] at hg
    refine ⟨_, rfl, ⟨?_, ?_, htens⟩, ?_, hs⟩
    case refine_1 => simp only [hs]; omega
    case refine_2 => simpa using hlen
    case refine_3 => simp only [recorded, hs]; exact recorded_set h

theorem Room.record_lost (h : pci.Room) (hc : pci.deviceCount.toNat + 1 = 65530) (hr : pci.record mem info = .ok pci') :
    pci'.Lost := by
  have hcount := h.count
  have htens := h.tens
  have ha := pci.alloc.isLt
  have hs := h.count_succ
  have ha : pci.alloc = 65530 := by
    apply BitVec.eq_of_toNat_eq
    simp
    omega
  rw [h.record_eq, if_pos (by rw [ge_iff_le, BitVec.le_def, hs, ha, hc]; decide)] at hr
  cases hr
  refine ⟨by simp only [hs, hc], ?_⟩
  simp only [mem.length, ha]
  decide

theorem Lost.record (h : pci.Lost) : pci.record mem info = .error .fault := by
  apply if_neg
  rw [h.count, h.length]
  decide

theorem Room.record_all (h : pci.Room) (mem : Krealloc) (hc : pci.deviceCount.toNat + infos.length < 65530) :
    ∃ pci', infos.foldlM (PciInfo.record mem) pci = .ok pci' ∧ pci'.Room ∧ pci'.recorded = pci.recorded ++ infos := by
  induction infos generalizing pci
  case nil => exact ⟨pci, rfl, h, (List.append_nil _).symm⟩
  case cons info infos hi =>
    rw [List.length_cons] at hc
    obtain ⟨pci₁, hr, hroom, hrec, hcount⟩ := h.record mem info (by omega)
    obtain ⟨pci₂, hf, hroom', hrec'⟩ := hi hroom (by omega)
    refine ⟨pci₂, ?_, hroom', by rw [hrec', hrec, List.append_assoc, List.singleton_append]⟩
    rw [List.foldlM_cons, hr]
    exact hf

theorem Lost.record_all (h : pci.Lost) (hf : infos.foldlM (PciInfo.record mem) pci = .ok pci') : pci'.Lost := by
  cases infos
  case nil =>
    cases hf
    exact h
  case cons info infos =>
    rw [List.foldlM_cons, h.record] at hf
    cases hf

theorem Room.record_too_many (h : pci.Room) (hc : 65530 ≤ pci.deviceCount.toNat + infos.length)
    (hf : infos.foldlM (PciInfo.record mem) pci = .ok pci') : pci'.Lost := by
  have hcount := h.count
  have htens := h.tens
  have ha := pci.alloc.isLt
  induction infos generalizing pci
  case nil =>
    rw [List.length_nil] at hc
    omega
  case cons info infos hi =>
    rw [List.length_cons] at hc
    rw [List.foldlM_cons, Except.bind_ok_iff] at hf
    obtain ⟨pci₁, hr, hf⟩ := hf
    by_cases hl : pci.deviceCount.toNat + 1 = 65530
    case pos => exact (h.record_lost hl hr).record_all hf
    case neg =>
      obtain ⟨pci₂, hr', hroom, -, hcount'⟩ := h.record mem info (by omega)
      obtain rfl := Except.ok.inj (hr.symm.trans hr')
      exact hi hroom (by omega) hf hroom.count hroom.tens pci₁.alloc.isLt

end PciInfo

end Records

section Scan

namespace PciInfo

-- What a scan should do: it stays inside of the array, keeps what is recorded, and adds the record of
-- each device of the bus once.
def Scans (mem : Krealloc) (top : Topology) (pci : PciInfo) (bus : BitVec 8) : Prop :=
  ∃ pci' new, pci.scanBus mem top bus = .ok pci' ∧ pci'.recorded = pci.recorded ++ new ∧
    new.Perm ((devices top bus).map (infoOf top bus))

-- No device answers for a number that is too large for a device, and the array need not grow to a
-- size that is not a `uint16_t`.
def Fits (top : Topology) (pci : PciInfo) (bus : BitVec 8) : Prop :=
  (∀ i, 32 ≤ i → i < 255 → ¬Present top (aliasBus bus i) (BitVec.ofNat 5 i)) ∧
  pci.deviceCount.toNat + (devices top bus).length < 65530

end PciInfo

-- What the loop records from a device number that is too large.
def aliased (top : Topology) (bus : BitVec 8) : List PciDeviceInfo :=
  ((List.range' 32 223).filter (Answers top bus)).map (found top bus)

theorem scanBus_eq : pci.scanBus mem top bus =
    ((devices top bus).map (infoOf top bus) ++ aliased top bus).foldlM (PciInfo.record mem) pci := by
  have hl : (List.range' 0 32).filter (Answers top bus) = devices top bus := by
    rw [← List.range_eq_range', devices]
    refine List.filter_congr fun i hi => ?_
    have hi := List.mem_range.mp hi
    rw [decide_eq_decide, answers_iff (by omega), aliasBus_eq hi]
  have hm : (devices top bus).map (found top bus) = (devices top bus).map (infoOf top bus) := by
    refine List.map_congr_left fun i hi => ?_
    exact found_eq (List.mem_range.mp (List.mem_of_mem_filter hi))
  have hr : List.range' 0 255 = List.range' 0 32 ++ List.range' 32 223 := (List.range'_append_1 (s := 0) (m := 32) (n := 223)).symm
  rw [PciInfo.scanBus, scanFrom_eq, hr, List.filter_append, List.map_append, hl, hm, aliased]

theorem aliased_eq_nil_iff : aliased top bus = [] ↔
    ∀ i, 32 ≤ i → i < 255 → ¬Present top (aliasBus bus i) (BitVec.ofNat 5 i) := by
  rw [aliased, List.map_eq_nil_iff, List.filter_eq_nil_iff]
  constructor
  case mp =>
    intro h i hl hu hp
    have hm : i ∈ List.range' 32 223 := by
      rw [List.mem_range'_1]
      omega
    exact h i hm (by simpa using (answers_iff (by omega)).mpr hp)
  case mpr =>
    intro h i hm ha
    rw [List.mem_range'_1] at hm
    exact h i (by omega) (by omega) ((answers_iff (by omega)).mp (by simpa using ha))

theorem PciInfo.Room.scanBus (h : pci.Room) (mem : Krealloc) (hf : pci.Fits top bus) :
    ∃ pci', pci.scanBus mem top bus = .ok pci' ∧ pci'.Room ∧
      pci'.recorded = pci.recorded ++ (devices top bus).map (infoOf top bus) := by
  rw [scanBus_eq, aliased_eq_nil_iff.mpr hf.left, List.append_nil]
  exact h.record_all mem (by simpa using hf.right)

theorem PciInfo.Room.scans_iff (h : pci.Room) : pci.Scans mem top bus ↔ pci.Fits top bus := by
  constructor
  case mp =>
    rintro ⟨pci', new, hs, hrec, hp⟩
    rw [scanBus_eq] at hs
    by_cases hc : pci.deviceCount.toNat + ((devices top bus).map (infoOf top bus) ++ aliased top bus).length < 65530
    case pos =>
      obtain ⟨pci₁, hs', -, hrec'⟩ := h.record_all mem hc
      obtain rfl := Except.ok.inj (hs.symm.trans hs')
      obtain rfl := List.append_cancel_left (hrec.symm.trans hrec')
      have hl := hp.length_eq
      simp only [List.length_append, List.length_map] at hl hc
      refine ⟨aliased_eq_nil_iff.mp ?_, by omega⟩
      exact List.length_eq_zero_iff.mp (by omega)
    case neg =>
      -- There are more records before the scan than the array has room for after it.
      have hlost := h.record_too_many (Nat.not_lt.mp hc) hs
      have hlen := congrArg List.length hrec
      have hd : (devices top bus).length ≤ 32 := by
        simpa [devices] using List.length_filter_le (fun d => decide (Present top bus (BitVec.ofNat 5 d))) (List.range 32)
      have ha : (aliased top bus).length ≤ 223 := by
        simpa [aliased] using List.length_filter_le (fun i => decide (Answers top bus i)) (List.range' 32 223)
      rw [List.length_append, h.recorded_length, recorded, List.length_take, hlost.length] at hlen
      rw [List.length_append, List.length_map] at hc
      omega
  case mpr =>
    intro hf
    obtain ⟨pci', hs, -, hrec⟩ := h.scanBus mem hf
    exact ⟨pci', _, hs, hrec, List.Perm.refl _⟩

-- A scan of a bus, in a topology that stays as it is.
def ScanStep (mem : Krealloc) (top : Topology) (pci : PciInfo) (bus : BitVec 8) (pci' : PciInfo) : Prop :=
  pci.scanBus mem top bus = .ok pci'

theorem PciInfo.Room.run (hs : start.Start) (h : Steps (ScanStep mem top) (PciInfo.Fits top) start pci) : pci.Room := by
  refine h.invariant hs.room fun {pci bus pci'} hi hf hstep => ?_
  obtain ⟨pci₁, hr, hroom, -⟩ := hi.scanBus mem hf
  obtain rfl := Except.ok.inj (hr.symm.trans hstep)
  exact hroom

-- After scans that fit, the next one is right exactly when it fits too.
theorem scanBus_scans_iff (hs : start.Start) (h : Steps (ScanStep mem top) (PciInfo.Fits top) start pci) :
    pci.Scans mem top bus ↔ pci.Fits top bus :=
  (PciInfo.Room.run hs h).scans_iff

end Scan

section Bridge

def noDevice : PciDeviceInfo := ⟨0, 0, 0, false, 0⟩

-- A block that is copied, with empty records behind it.
def copied (device : List PciDeviceInfo) (n : Nat) : List PciDeviceInfo :=
  (device ++ List.replicate n noDevice).take n

theorem copied_length (device : List PciDeviceInfo) (n : Nat) : (copied device n).length = n := by
  simp [copied]

theorem copied_keeps (device : List PciDeviceInfo) (n : Nat) :
    (copied device n).take device.length = device.take n := by
  rw [copied, List.take_take, List.take_append_of_le_length (Nat.min_le_left _ _), ← List.take_take]
  exact List.take_of_length_le (List.length_take_le' n device)

def copying : Krealloc := ⟨copied, copied_length, copied_keeps⟩

-- One device on bus 1, behind a bridge, and none on bus 0.
def behindBridge : Topology := fun bus dev _ _ => if bus = 1 ∧ dev = 0 then 0x29228086 else 0xFFFFFFFF

def tenRecords : PciInfo := ⟨List.replicate 10 noDevice, 0, 10⟩

theorem tenRecords_start : tenRecords.Start := ⟨rfl, rfl, rfl⟩

-- The device answers when bus 0 is asked for its device 32, and is recorded there.
theorem scanBus_other_bus : ¬∀ (mem : Krealloc) (top : Topology) (pci : PciInfo) (bus : BitVec 8), pci.Start →
    pci.Scans mem top bus := by
  intro h
  have hf := tenRecords_start.room.scans_iff.mp (h copying behindBridge tenRecords 0 tenRecords_start)
  exact hf.left 32 (Nat.le_refl _) (by decide) (by decide)

-- Twelve devices on bus 0 and one on bus 8.
def twoBuses : Topology := fun bus dev _ _ =>
  if bus = 0 ∧ dev < 12 ∨ bus = 8 ∧ dev = 0 then 0x29228086 else 0xFFFFFFFF

-- The array grows in the scan of bus 0.
theorem scanBus_scans_twoBuses : ∃ pci, Steps (ScanStep copying twoBuses) (PciInfo.Fits twoBuses) tenRecords pci ∧
    pci.recorded.length = 12 ∧ pci.Scans copying twoBuses 8 := by
  have hf : tenRecords.Fits twoBuses 0 := ⟨by decide +kernel, by decide⟩
  obtain ⟨pci, hs, hroom, hrec⟩ := tenRecords_start.room.scanBus copying hf
  have hlen : pci.recorded.length = 12 := by
    rw [hrec]
    decide
  have run : Steps (ScanStep copying twoBuses) (PciInfo.Fits twoBuses) tenRecords pci := .step (.refl _) hf hs
  refine ⟨pci, run, hlen, (scanBus_scans_iff tenRecords_start run).mpr ⟨by decide +kernel, ?_⟩⟩
  rw [← hroom.recorded_length, hlen]
  decide

end Bridge

end RoverOS.Pci
