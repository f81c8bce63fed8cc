import RoverOS.Acpi.Theorems.Enumerate

-- When the number of processors is right that `initAPIC` passes on for a well-formed table.

open Bytes (Memory load)
open RoverOS.Ramdisk (Read readAny)

namespace RoverOS.Acpi

section Inside

variable {m : Memory} {madt : Madt} {type clen a e : Nat} {done : Nat → Prop} {s : Cursor} {l found : List Nat}

theorem stride_eq (h : a + 1 < 2 ^ 64) : stride m a = lengthAt m a := by
  rw [stride, u64_of_lt h, lengthAt]

-- A walk never goes back.
theorem Sane.check_advance (hs : Sane m madt type s) (hh : madt.header ≤ s.check) (hi : madt.Inside s) :
    (advance m s).check = s.check + stride m s.check := by
  have hb := hs.behind
  have hl := madt.length.isLt
  have hbase := madt.base.isLt
  have hst : stride m s.check < 256 := stride_lt
  rw [Madt.offset_of_le hh hs.check_lt] at hb
  rw [Madt.Inside] at hi
  rw [Madt.header, sizeofMadt] at hh hb
  exact u64_of_lt (n := s.check + stride m s.check) (by omega)

theorem Met.behind (h : Met m madt type done s l) (hs : Sane m madt type s) (hh : madt.header ≤ s.check) :
    ∀ e ∈ l, s.check + stride m s.check ≤ e := by
  induction h
  case past => simp
  case skip s l hi ht _ hind =>
    intro e he
    have hw := hs.walk hi
    have hc := hs.check_advance hh hi
    rw [walk_of_ne ht] at hw
    have hle := hind hw (by omega) e he
    omega
  case last s hi _ _ =>
    intro e he
    rw [List.mem_singleton.mp he, hs.check_advance hh hi]
  case more s l hi _ _ _ hind =>
    intro e he
    have hc := hs.check_advance hh hi
    rcases List.mem_cons.mp he with rfl | he
    case inl => exact Nat.le_of_eq hc.symm
    case inr =>
      have hle := hind (.start (u64_lt _)) (by dsimp only [Madt.start]; omega) e he
      dsimp only [Madt.start] at hle
      omega

theorem At.advance (h : At m madt clen a (e :: l)) :
    Acpi.advance m ⟨clen, a⟩ = ⟨u64 (clen + lengthAt m e), e⟩ := by
  have hs := madt.stop_lt
  have hle := h.entries.tail.le
  obtain ⟨hn, he⟩ := h.next
  have hle' := hn.entries.tail.le
  have h2 := hn.entries.two_le
  have hc : u64 (a + stride m a) = e := by
    rw [stride_eq (by omega), ← he, u64_of_lt (by omega)]
  simp only [Acpi.advance, hc, stride_eq (m := m) (by omega : e + 1 < 2 ^ 64)]

-- All structures of the type that stand in the table are found. What is found after them is behind the table.
theorem At.met (h : At m madt clen a l) (hs : Sane m madt type ⟨clen, a⟩) (hm : All m madt type ⟨clen, a⟩ found) :
    ∃ strays, found = l.filter (fun e => typeAt m e = type) ++ strays ∧ ∀ e ∈ strays, madt.stop ≤ e := by
  induction l generalizing clen a found
  case nil =>
    have hstop : a + lengthAt m a = madt.stop := h.entries.tail.nil_eq
    have hlt := madt.stop_lt
    have h2 := h.entries.two_le
    refine ⟨found, rfl, fun e he => ?_⟩
    have hle := hm.behind hs h.header e he
    dsimp only at hle
    rw [stride_eq (by omega), hstop] at hle
    exact hle
  case cons e l hind =>
    cases hm
    case past ho     => exact absurd h.inside ho
    case last hd _ _ => exact hd.elim
    case skip hi ht hm =>
      have hw := hs.walk hi
      rw [walk_of_ne ht] at hw
      rw [h.advance] at ht hm hw
      obtain ⟨strays, he, hb⟩ := hind h.next.left hw hm
      refine ⟨strays, ?_, hb⟩
      rw [List.filter_cons_of_neg (by simpa using ht)]
      exact he
    case more l' _ _ ht hm =>
      rw [h.advance] at ht hm ⊢
      obtain ⟨hn, _⟩ := h.next
      have hlt : e < 2 ^ 64 := by
        have hle := hn.entries.le
        have hs := madt.stop_lt
        omega
      obtain ⟨strays, he, hb⟩ := hind (.of_entries hn.entries hn.header) (.start hlt) hm
      refine ⟨strays, ?_, hb⟩
      rw [List.filter_cons_of_pos (by simpa using ht), he, List.cons_append]

end Inside

section Flags

def Enabled (flags : Nat) : Prop := flags &&& LAPIC_ENABLED ≠ 0

def OnlineCapable (flags : Nat) : Prop := flags &&& LAPIC_ONLINE_CAPABLE ≠ 0

-- The processors that should be counted, and those that are.
def Usable (flags : Nat) : Prop := Enabled flags ∨ OnlineCapable flags

def Counted (flags : Nat) : Prop := ¬Enabled flags ∧ OnlineCapable flags

instance : DecidablePred Enabled := fun flags => inferInstanceAs (Decidable (flags &&& LAPIC_ENABLED ≠ 0))

instance : DecidablePred OnlineCapable :=
  fun flags => inferInstanceAs (Decidable (flags &&& LAPIC_ONLINE_CAPABLE ≠ 0))

instance : DecidablePred Usable := fun flags => inferInstanceAs (Decidable (Enabled flags ∨ OnlineCapable flags))

instance : DecidablePred Counted := fun flags => inferInstanceAs (Decidable (¬Enabled flags ∧ OnlineCapable flags))

theorem skipsLapic_iff {flags : Nat} : skipsLapic flags ↔ ¬Counted flags := by
  rw [Counted, Enabled, OnlineCapable, skipsLapic, decide_eq_true_iff]
  by_cases h : flags &&& LAPIC_ONLINE_CAPABLE = 0
  case pos =>
    rw [if_pos h]
    exact iff_of_true (fun he => absurd (Nat.or_eq_zero_iff.mp he).right (by decide)) fun hc => hc.right h
  case neg => simp [h]

variable {m : Memory} {l : List Nat} {n : Nat}

-- The number of processors among `l` with such flags.
def processors (m : Memory) (p : Nat → Prop) [DecidablePred p] (l : List Nat) : Nat :=
  l.countP fun e => typeAt m e = ICS_LAPIC ∧ p (flagsAt m e)

theorem countLapics_eq (hn : n < 2 ^ 16) : countLapics m l n = u16 (n + l.countP fun e => Counted (flagsAt m e)) := by
  induction l generalizing n
  case nil => exact (u16_of_lt hn).symm
  case cons e l hind =>
    rw [countLapics]
    by_cases hc : Counted (flagsAt m e)
    case neg =>
      rw [if_pos (skipsLapic_iff.mpr hc), hind hn, List.countP_cons_of_neg (by simpa using hc)]
    case pos =>
      have hs : ¬skipsLapic (flagsAt m e) := fun h => skipsLapic_iff.mp h hc
      have hlt : u16 (n + 1) < 2 ^ 16 := Nat.mod_lt _ (by decide)
      rw [if_neg hs, hind hlt, List.countP_cons_of_pos (by simpa using hc)]
      rw [u16, u16, u16]
      omega

-- The usable processors are those that are counted and those that are enabled.
theorem processors_usable : processors m Usable l = processors m Counted l + processors m Enabled l := by
  induction l
  case nil => rfl
  case cons e l hind =>
    simp only [processors] at hind ⊢
    rw [List.countP_cons, List.countP_cons, List.countP_cons, hind]
    by_cases ht : typeAt m e = ICS_LAPIC
    case neg => simp [ht]
    case pos =>
      by_cases he : Enabled (flagsAt m e) <;> by_cases ho : OnlineCapable (flagsAt m e) <;>
        simp [ht, Usable, Counted, he, ho] <;> omega

end Flags

section First

variable {m : Memory} {madt : Madt} {type e : Nat} {l es : List Nat}

-- The part of a table from the first structure of the type on.
def fromFirst (m : Memory) (type : Nat) (es : List Nat) : List Nat :=
  es.dropWhile fun e => typeAt m e ≠ type

def beforeFirst (m : Memory) (type : Nat) (es : List Nat) : List Nat :=
  es.takeWhile fun e => typeAt m e ≠ type

theorem before_append_from (m : Memory) (type : Nat) (es : List Nat) :
    beforeFirst m type es ++ fromFirst m type es = es := List.takeWhile_append_dropWhile

theorem filter_fromFirst : (fromFirst m type es).filter (fun e => typeAt m e = type) =
    es.filter fun e => typeAt m e = type := by
  induction es
  case nil => rfl
  case cons e es hind =>
    rw [fromFirst] at hind ⊢
    by_cases ht : typeAt m e = type
    case pos => rw [List.dropWhile_cons_of_neg (by simpa using ht)]
    case neg =>
      rw [List.dropWhile_cons_of_pos (by simpa using ht), List.filter_cons_of_neg (by simpa using ht), hind]

theorem fromFirst_type (h : fromFirst m type es = e :: l) : typeAt m e = type := by
  have hp := List.head?_dropWhile_not (fun e => typeAt m e ≠ type) es
  rw [fromFirst] at h
  rw [h] at hp
  simpa using hp

theorem AllFrom.split (h : AllFrom m madt type l) (hw : Entries m madt.stop madt.header es) :
    ∃ strays, l = es.filter (fun e => typeAt m e = type) ++ strays ∧ ∀ e ∈ strays, madt.stop ≤ e := by
  obtain ⟨l', h', hl⟩ := h
  have hs : Sane m madt type (madt.start madt.header) := .start madt.header_lt
  cases es
  case nil =>
    have hstop : madt.header = madt.stop := hw.nil_eq
    have hb : ∀ e ∈ l', madt.stop ≤ e := by
      intro e he
      have hle := h'.behind hs (Nat.le_refl _) e he
      dsimp only [Madt.start] at hle
      omega
    refine ⟨l, rfl, fun e he => ?_⟩
    rw [hl] at he
    split_ifs at he
    case pos =>
      rcases List.mem_cons.mp he with rfl | he
      case inl => exact Nat.le_of_eq hstop.symm
      case inr => exact hb e he
    case neg => exact hb e he
  case cons a rest =>
    have ha : a = madt.header := hw.head_eq
    rw [ha] at hw ⊢
    obtain ⟨strays, he, hb⟩ := (At.of_entries hw (Nat.le_refl _)).met hs h'
    refine ⟨strays, ?_, hb⟩
    by_cases ht : typeAt m madt.header = type
    case pos => rw [hl, if_pos ht, he, List.filter_cons_of_pos (by simpa using ht), List.cons_append]
    case neg => rw [hl, if_neg ht, he, List.filter_cons_of_neg (by simpa using ht)]

-- The search for the first structure: it is in the table, or there is none in the table.
theorem AllFrom.first (h : AllFrom m madt type l) (hw : Entries m madt.stop madt.header es) :
    (∃ e after, fromFirst m type es = e :: after ∧ l.headD 0 = e ∧ At m madt (madt.offset e) e after) ∨
    (fromFirst m type es = [] ∧ ∀ e ∈ l, madt.stop ≤ e) := by
  obtain ⟨strays, hl, hb⟩ := h.split hw
  rw [← filter_fromFirst] at hl
  cases hf : fromFirst m type es
  case nil =>
    rw [hf] at hl
    exact .inr ⟨rfl, fun e he => hb e (by rw [hl] at he; exact he)⟩
  case cons e after =>
    have ht := fromFirst_type hf
    rw [hf, List.filter_cons_of_pos (by simpa using ht)] at hl
    rw [← before_append_from m type es, hf] at hw
    obtain ⟨hle, he⟩ := hw.drop
    exact .inl ⟨e, after, rfl, by rw [hl]; rfl, .of_entries he hle⟩

end First

section Balance

variable {m : Memory} {base : BitVec 32} {devices : Devices} {count count' : Nat} {es ioapics lapics l : List Nat}

-- Behind NULL nothing is found.
theorem Met.of_null {madt : Madt} {type : Nat} {done : Nat → Prop} (h : Met m madt type done (madt.start 0) l) :
    l = [] := by
  refine h.unique (.past ?_)
  have hb := madt.base.isLt
  have hl := madt.length.isLt
  simp only [Madt.Inside, Madt.start, Madt.offset, sub64, u64, sizeofMadt]
  omega

-- The processors are searched for from the first IOAPIC on.
theorem Enumerated.split (h : Enumerated m base devices count ioapics lapics count')
    (hw : Entries m (madtOf m base).stop (madtOf m base).header es) : ∃ strays,
      lapics = (fromFirst m ICS_IOAPIC es).filter (fun e => typeAt m e = ICS_LAPIC) ++ strays ∧
      ∀ e ∈ strays, (madtOf m base).stop ≤ e := by
  have hc := h.counted
  rcases h.all.first hw with ⟨e, after, hf, he, hat⟩ | ⟨hf, hb⟩
  case inl =>
    have ht := fromFirst_type hf
    have hlt := h.all.head_lt
    rw [he] at hc hlt
    obtain ⟨strays, hl, hb⟩ := hat.met (.start hlt) hc
    refine ⟨strays, ?_, hb⟩
    rw [hf, List.filter_cons_of_neg (by rw [ht]; decide), hl]
  case inr =>
    rw [hf]
    refine ⟨lapics, rfl, fun e he => ?_⟩
    cases ioapics
    case nil =>
      rw [hc.of_null] at he
      cases he
    case cons x ioapics =>
      have hx := hb x List.mem_cons_self
      have hle := hw.le
      have hlt := h.all.head_lt
      rw [List.headD_cons] at hc hlt
      have hxe := hc.behind (.start hlt) (by dsimp only [Madt.start]; omega) e he
      dsimp only [Madt.start] at hxe
      omega

-- The usable processors of the table that are not counted: those that stand before the first IOAPIC, and those
-- that are enabled.
def missed (m : Memory) (es : List Nat) : Nat :=
  processors m Usable (beforeFirst m ICS_IOAPIC es) + processors m Enabled (fromFirst m ICS_IOAPIC es)

-- The processors that are counted although they are behind the table.
def strayed (m : Memory) (madt : Madt) (lapics : List Nat) : Nat :=
  lapics.countP fun e => madt.stop ≤ e ∧ Counted (flagsAt m e)

-- The calls come to their end, and what is counted in excess makes up for what is missed.
def Balanced (m : Memory) (base : BitVec 32) (devices : Devices) (count : Nat) (es : List Nat) : Prop :=
  ∃ ioapics lapics count', Enumerated m base devices count ioapics lapics count' ∧
    1 + processors m Usable es < 2 ^ 16 ∧ strayed m (madtOf m base) lapics ≡ missed m es [MOD 2 ^ 16]

-- The number of processors is passed to `initLapic`.
def Right (m : Memory) (base : BitVec 32) (devices : Devices) (count : Nat) (es : List Nat) : Prop :=
  ∃ fuel r, initAPIC (readAny m) devices fuel base count = .ok r ∧ r.apCount = 1 + processors m Usable es

theorem usable_eq_missed : processors m Usable es =
    processors m Counted (fromFirst m ICS_IOAPIC es) + missed m es := by
  have happ : processors m Usable es =
      processors m Usable (beforeFirst m ICS_IOAPIC es) + processors m Usable (fromFirst m ICS_IOAPIC es) := by
    rw [processors, processors, processors, ← List.countP_append, before_append_from]
  rw [happ, processors_usable (l := fromFirst m ICS_IOAPIC es), missed]
  omega

theorem Entries.lt {stop a e : Nat} (h : Entries m stop a l) (he : e ∈ l) : e < stop := by
  obtain ⟨before, after, rfl⟩ := List.append_of_mem he
  obtain ⟨_, hd⟩ := h.drop
  have hle := hd.tail.le
  have h2 := hd.two_le
  omega

-- What is counted is in the table or behind it.
theorem Enumerated.counted_eq (h : Enumerated m base devices count ioapics lapics count')
    (hw : Entries m (madtOf m base).stop (madtOf m base).header es) :
    (lapics.countP fun e => Counted (flagsAt m e)) =
      processors m Counted (fromFirst m ICS_IOAPIC es) + strayed m (madtOf m base) lapics := by
  obtain ⟨strays, hl, hb⟩ := h.split hw
  have hin : ∀ e ∈ (fromFirst m ICS_IOAPIC es).filter (fun e => typeAt m e = ICS_LAPIC), ¬(madtOf m base).stop ≤ e := by
    intro e he
    have hmem := (List.dropWhile_suffix _).mem (List.mem_of_mem_filter he)
    exact Nat.not_le_of_lt (hw.lt hmem)
  have hzero : ((fromFirst m ICS_IOAPIC es).filter fun e => typeAt m e = ICS_LAPIC).countP
      (fun e => (madtOf m base).stop ≤ e ∧ Counted (flagsAt m e)) = 0 := by
    refine List.countP_eq_zero.mpr fun e he => ?_
    simp [hin e he]
  have hall : strays.countP (fun e => (madtOf m base).stop ≤ e ∧ Counted (flagsAt m e)) =
      strays.countP fun e => Counted (flagsAt m e) := by
    refine List.countP_congr fun e he => ?_
    simp [hb e he]
  rw [strayed, hl, List.countP_append, List.countP_append, hzero, hall, List.countP_filter, processors, Nat.zero_add]
  simp only [← Bool.decide_and, and_comm]

-- For every well-formed table the number is right exactly when the two errors of the count make up for each other.
theorem apCount_right_iff (hw : Entries m (madtOf m base).stop (madtOf m base).header es) (devices : Devices)
    (count : Nat) : Right m base devices count es ↔ Balanced m base devices count es := by
  have harith : ∀ {ioapics lapics count'}, Enumerated m base devices count ioapics lapics count' →
      ((passed m base ioapics lapics).apCount = 1 + processors m Usable es ↔
        1 + processors m Usable es < 2 ^ 16 ∧ strayed m (madtOf m base) lapics ≡ missed m es [MOD 2 ^ 16]) := by
    intro ioapics lapics count' h
    have hp : (passed m base ioapics lapics).apCount = countLapics m lapics 1 := rfl
    rw [hp, countLapics_eq (by decide), h.counted_eq hw, usable_eq_missed, u16, Nat.ModEq]
    omega
  constructor
  case mp =>
    rintro ⟨fuel, r, hok, hr⟩
    obtain ⟨ioapics, lapics, count', h, rfl⟩ := initAPIC_ok_iff.mp ⟨fuel, hok⟩
    exact ⟨ioapics, lapics, count', h, (harith h).mp hr⟩
  case mpr =>
    rintro ⟨ioapics, lapics, count', h, hb⟩
    obtain ⟨fuel, hok⟩ := initAPIC_ok_iff.mpr ⟨ioapics, lapics, count', h, rfl⟩
    exact ⟨fuel, _, hok, (harith h).mpr hb⟩

end Balance

section Sample

theorem sample_enumerated : Enumerated sampleMemory 0x1000 .fine 0 [0x102C] [0x1038] 1 where
  all     := ⟨[], met_of_meets (n := 3) (by decide), by decide⟩
  setUp   := .aligned (by decide) rfl (met_of_meets (n := 3) (l := []) (by decide)) rfl .nil
  counted := met_of_meets (n := 3) (by decide)

-- The processor is enabled, and is not counted.
theorem enabled_not_counted :
    Entries sampleMemory (madtOf sampleMemory 0x1000).stop (madtOf sampleMemory 0x1000).header [0x102C, 0x1038] ∧
      ¬Right sampleMemory 0x1000 .fine 0 [0x102C, 0x1038] := by
  have hmadt : madtOf sampleMemory 0x1000 = sampleMadt := by decide
  constructor
  case left =>
    rw [hmadt]
    exact sample_entries
  case right =>
    rintro ⟨fuel, r, hok, hr⟩
    obtain ⟨ioapics, lapics, count', h, rfl⟩ := initAPIC_ok_iff.mp ⟨fuel, hok⟩
    have hi : ioapics = [0x102C] := h.all.unique sample_enumerated.all
    have hc := h.counted
    rw [hi] at hc
    have hl : lapics = [0x1038] := hc.unique sample_enumerated.counted
    rw [hi, hl] at hr
    revert hr
    decide

-- The same table, with a processor that can be brought online.
def onlineMemory : Memory :=
  fun a => if a < 0x1000 then 0 else (sampleTable.set 60 2).getD (a - 0x1000) 0xFF

theorem online_enumerated : Enumerated onlineMemory 0x1000 .fine 0 [0x102C] [0x1038] 1 where
  all     := ⟨[], met_of_meets (n := 3) (by decide), by decide⟩
  setUp   := .aligned (by decide) rfl (met_of_meets (n := 3) (l := []) (by decide)) rfl .nil
  counted := met_of_meets (n := 3) (by decide)

theorem online_counted : Right onlineMemory 0x1000 .fine 0 [0x102C, 0x1038] :=
  have hmadt : madtOf onlineMemory 0x1000 = sampleMadt := by decide
  have hentries := entries_of_lengths (m := onlineMemory) (by decide) (by decide)
  (apCount_right_iff (hmadt ▸ hentries) .fine 0).mpr ⟨_, _, _, online_enumerated, by decide, by decide⟩

end Sample

end RoverOS.Acpi
