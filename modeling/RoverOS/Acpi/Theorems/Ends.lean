import RoverOS.Acpi.Theorems.Enumerate

-- Which of the searches and loops come to an end, whatever stands in memory.

open Bytes (Memory load)
open RoverOS.Ramdisk (Read readAny)

namespace RoverOS.Acpi

-- The calls, made while `base` is the table.
inductive Call
  | findNextICS (type : BitVec 8) (current : Word) (checkInitial : Bool)
  | initIOAPIC (ptr : Word) (count : Nat)
  | initAPIC (count : Nat)

-- The call comes to an end, whatever becomes of the IOAPICs.
def Call.Terminates (m : Memory) (base : BitVec 32) : Call → Prop
  | findNextICS type current checkInitial => ∃ fuel,
    Acpi.findNextICS (readAny m) (madtOf m base) fuel type.toNat current.toNat checkInitial ≠ .error .running
  | initIOAPIC ptr count => ∀ devices, ∃ fuel,
    Acpi.initIOAPIC (readAny m) (madtOf m base) devices fuel ptr.toNat (madtOf m base).header count ≠
      .error .running
  | initAPIC count => ∀ devices, ∃ fuel, Acpi.initAPIC (readAny m) devices fuel base count ≠ .error .running

-- The search for the override of the timer's interrupt.
def OverrideLeaves (m : Memory) (madt : Madt) : Prop :=
  Escapes m madt ICS_ISO (IsPit m) (madt.start madt.header)

-- No structure of length 0 is in the way of a search that the call makes.
def Call.Leaves (m : Memory) (base : BitVec 32) : Call → Prop
  | findNextICS type current checkInitial =>
    (checkInitial ∧ typeAt m current.toNat = type.toNat) ∨
    Escapes m (madtOf m base) type.toNat (fun _ => True) ((madtOf m base).start current.toNat)
  | initIOAPIC ptr _ => ioAddrAt m ptr.toNat % 0x1000 = 0 → OverrideLeaves m (madtOf m base)
  | initAPIC _ =>
    Escapes m (madtOf m base) ICS_IOAPIC (fun _ => False) ((madtOf m base).start (madtOf m base).header) ∧
    ∀ ioapics, AllFrom m (madtOf m base) ICS_IOAPIC ioapics →
      ((∃ e ∈ ioapics, ioAddrAt m e % 0x1000 = 0) → OverrideLeaves m (madtOf m base)) ∧
      Escapes m (madtOf m base) ICS_LAPIC (fun _ => False) ((madtOf m base).start (ioapics.headD 0))

section Single

variable {m : Memory} {madt : Madt} {type current count e r : Nat} {done : Nat → Prop} {l : List Nat}

theorem met_iff_escapes (hc : current < 2 ^ 64) : (∃ l, Met m madt type done (madt.start current) l) ↔
    Escapes m madt type done (madt.start current) :=
  met_iff_stops.trans (Sane.start hc).stops_iff

theorem Ends.terminates {α : Type} {f : Nat → Except Stop α} {r : Except Stop α} (h : Ends f r)
    (hr : r ≠ .error .running) : ∃ fuel, f fuel ≠ .error .running := by
  obtain ⟨N, hN⟩ := h
  refine ⟨N, ?_⟩
  rw [hN N (Nat.le_refl N)]
  exact hr

theorem searchFrom_terminates_iff (hc : current < 2 ^ 64) :
    (∃ fuel, findNextICS (readAny m) madt fuel type current false ≠ .error .running) ↔
      Escapes m madt type (fun _ => True) (madt.start current) := by
  rw [← met_iff_escapes hc]
  constructor
  case mp =>
    rintro ⟨fuel, hr⟩
    rcases findNextICS_cases m madt type fuel current with
      he | ⟨l, hl, _⟩
    case inl => exact absurd he hr
    case inr => exact ⟨l, hl⟩
  case mpr =>
    rintro ⟨l, hl⟩
    exact (findNextICS_of_found hl).terminates ok_ne_running

theorem findNextICS_terminates_iff (hc : current < 2 ^ 64) (checkInitial : Bool) :
    (∃ fuel, findNextICS (readAny m) madt fuel type current checkInitial ≠ .error .running) ↔
      (checkInitial ∧ typeAt m current = type) ∨ Escapes m madt type (fun _ => True) (madt.start current) := by
  cases checkInitial
  case false =>
    simp only [Bool.false_eq_true, false_and, false_or]
    exact searchFrom_terminates_iff hc
  case true =>
    simp only [findNextICS_first, true_and]
    by_cases ht : typeAt m current = type
    case pos =>
      simp only [if_pos ht]
      exact iff_of_true ⟨0, ok_ne_running⟩ (.inl ht)
    case neg =>
      simp only [if_neg ht, or_iff_right ht]
      exact searchFrom_terminates_iff hc

end Single

section Loops

variable {m : Memory} {madt : Madt} {devices : Devices} {count e r : Nat} {l : List Nat}

theorem SetUp.overrides (h : SetUp m madt devices l count r) (ha : ∃ e ∈ l, ioAddrAt m e % 0x1000 = 0) :
    ∃ isos, Met m madt ICS_ISO (IsPit m) (madt.start madt.header) isos := by
  induction h
  case nil => simp at ha
  case unaligned e _ _ _ hn _ hind =>
    obtain ⟨x, hx, ha⟩ := ha
    rcases List.mem_cons.mp hx with rfl | hx
    case inl => exact absurd ha hn
    case inr => exact hind ⟨x, hx, ha⟩
  case aligned isos _ _ hi _ _ _ => exact ⟨isos, hi⟩

theorem initIOAPIC_terminates_iff :
    (∀ devices, ∃ fuel, initIOAPIC (readAny m) madt devices fuel e madt.header count ≠ .error .running) ↔
      (ioAddrAt m e % 0x1000 = 0 → OverrideLeaves m madt) := by
  rw [OverrideLeaves, ← met_iff_escapes madt.header_lt]
  constructor
  case mp =>
    intro h ha
    obtain ⟨fuel, hr⟩ := h .fine
    rcases initIOAPIC_cases m madt .fine fuel count e with
      he | ⟨hf, _⟩ | ⟨count', _, hset⟩
    case inl     => exact absurd he hr
    case inr.inl => exact absurd Devices.fine_fine hf
    case inr.inr => exact (hset [] count' .nil).overrides ⟨e, List.mem_singleton_self e, ha⟩
  case mpr =>
    intro h devices
    rcases initIOAPIC_returns devices count h with ⟨count', he⟩ | ⟨x, he⟩
    case inl => exact he.terminates ok_ne_running
    case inr => exact he.terminates exit_ne_running

-- From the first IOAPIC on, if there is one.
theorem AllFrom.loop_returns (devices : Devices) (count : Nat) (h : AllFrom m madt ICS_IOAPIC l)
    (hiso : (∃ e ∈ l, ioAddrAt m e % 0x1000 = 0) →
      ∃ isos, Met m madt ICS_ISO (IsPit m) (madt.start madt.header) isos) :
    ∃ r, r ≠ .error .running ∧
      Ends (fun fuel => ioapicLoop (readAny m) madt devices fuel madt.header fuel (l.headD 0) count) r := by
  cases l
  case nil => exact ⟨_, ok_ne_running, ioapicLoop_null.ends⟩
  case cons e l =>
    obtain ⟨hl, hne, hlt⟩ := h.tail
    obtain ⟨r, hr, hloop⟩ := ioapicLoop_returns devices count hl hne hlt hiso
    exact ⟨r, hr, hloop.ends⟩

theorem AllFrom.exists_iff {type : Nat} : (∃ l, AllFrom m madt type l) ↔
    Escapes m madt type (fun _ => False) (madt.start madt.header) := by
  rw [← met_iff_escapes madt.header_lt]
  constructor
  case mp =>
    rintro ⟨l, l', h, _⟩
    exact ⟨l', h⟩
  case mpr =>
    rintro ⟨l', h⟩
    exact ⟨_, l', h, rfl⟩

end Loops

section Whole

variable {m : Memory} {base : BitVec 32} {devices : Devices} {count : Nat} {ioapics lapics : List Nat}

theorem initAPIC_returns (h : AllFrom m (madtOf m base) ICS_IOAPIC ioapics)
    (hiso : (∃ e ∈ ioapics, ioAddrAt m e % 0x1000 = 0) → ∃ isos, Met m (madtOf m base) ICS_ISO (IsPit m)
      ((madtOf m base).start (madtOf m base).header) isos)
    (hl : All m (madtOf m base) ICS_LAPIC ((madtOf m base).start (ioapics.headD 0)) lapics) :
    ∃ fuel, initAPIC (readAny m) devices fuel base count ≠ .error .running := by
  obtain ⟨r, hr, hloop⟩ := h.loop_returns devices count hiso
  cases r
  case ok n => exact (initAPIC_ends h hloop hl).terminates ok_ne_running
  case error s =>
    simp only [initAPIC_readAny]
    refine Ends.terminates (.bind (findFirst_ends h) (.bind_error hloop)) ?_
    intro he
    cases he
    exact hr rfl

theorem initAPIC_terminates_iff : (∀ devices, ∃ fuel, initAPIC (readAny m) devices fuel base count ≠ .error .running) ↔
    Call.Leaves m base (.initAPIC count) := by
  constructor
  case mp =>
    intro h
    obtain ⟨fuel, hr⟩ := h .fine
    rcases initAPIC_cases m base .fine fuel count with
      he | ⟨hf, _⟩ | ⟨ioapics, lapics, count', hen, _⟩
    case inl     => exact absurd he hr
    case inr.inl => exact absurd Devices.fine_fine hf
    case inr.inr =>
      refine ⟨AllFrom.exists_iff.mp ⟨ioapics, hen.all⟩, fun l hl => ?_⟩
      rw [hl.unique hen.all]
      refine ⟨fun ha => ?_, (met_iff_escapes hen.all.head_lt).mp ⟨lapics, hen.counted⟩⟩
      exact (met_iff_escapes (madtOf m base).header_lt).mp (hen.setUp.overrides ha)
  case mpr =>
    rintro ⟨hall, hrest⟩ devices
    obtain ⟨ioapics, hl⟩ := AllFrom.exists_iff.mpr hall
    obtain ⟨hiso, hcount⟩ := hrest ioapics hl
    obtain ⟨lapics, hlapics⟩ := (met_iff_escapes hl.head_lt).mpr hcount
    exact initAPIC_returns hl (fun ha => (met_iff_escapes (madtOf m base).header_lt).mpr (hiso ha)) hlapics

-- For all contents of the memory a call comes to an end exactly when it leaves the structures before it comes by
-- one of length 0.
theorem call_terminates_iff (m : Memory) (base : BitVec 32) (call : Call) :
    call.Terminates m base ↔ call.Leaves m base := by
  cases call
  case findNextICS type current checkInitial => exact findNextICS_terminates_iff current.isLt checkInitial
  case initIOAPIC ptr count                  => exact initIOAPIC_terminates_iff
  case initAPIC count                        => exact initAPIC_terminates_iff

end Whole

section Padded

instance (m : Memory) (madt : Madt) (type : Nat) (done : Nat → Prop) [DecidablePred done] (s : Cursor) :
    Decidable (Over m madt type done s) :=
  inferInstanceAs (Decidable (_ ∨ _ ∧ _))

-- The sample table, but with zeroes behind it.
def paddedMemory : Memory :=
  fun a => if a < 0x1000 then 0 else sampleTable.getD (a - 0x1000) 0

theorem Escapes.not_of_zero {m : Memory} {madt : Madt} {type n : Nat} {done : Nat → Prop} {s : Cursor}
    (hz : stride m ((walk m madt type)^[n] s).check = 0)
    (hn : ∀ k ≤ n, ¬Over m madt type done ((walk m madt type)^[k] s)) : ¬Escapes m madt type done s := by
  intro h
  obtain ⟨k, hk, ho⟩ := h n hz
  exact hn k hk ho

-- The padding is taken for a structure of length 0, which is its own successor.
theorem padding_not_left : ¬Call.Terminates paddedMemory 0x1000 (.findNextICS 2 0x102C false) ∧
    ¬Call.Terminates paddedMemory 0x1000 (.initAPIC 0) := by
  have hmadt : madtOf paddedMemory 0x1000 = sampleMadt := by decide
  constructor
  case left =>
    intro h
    rcases (findNextICS_terminates_iff (by decide) false).mp h with ⟨hc, _⟩ | he
    case inl => cases hc
    case inr =>
      rw [hmadt] at he
      exact Escapes.not_of_zero (n := 2) (by decide) (by decide) he
  case right =>
    intro h
    obtain ⟨he, _⟩ := initAPIC_terminates_iff.mp h
    rw [hmadt] at he
    exact Escapes.not_of_zero (n := 2) (by decide) (by decide) he

end Padded

end RoverOS.Acpi
