import RoverOS.Acpi.Theorems.Loops

-- What `initAPIC` passes on, as far as the structures go that its loops come by.

open Bytes (Memory load)
open RoverOS.Ramdisk (Read loadWith readAny loadWith_readAny)

namespace RoverOS.Acpi

-- The table at `base`, with the length that stands in it.
def madtOf (m : Memory) (base : BitVec 32) : Madt where
  base   := base
  length := BitVec.ofNat 32 (load m (base.toNat + 4) 4)

-- The structures of a type from the first one on, which is looked at before the search.
def AllFrom (m : Memory) (madt : Madt) (type : Nat) (l : List Nat) : Prop :=
  ∃ l', All m madt type (madt.start madt.header) l' ∧
    l = if typeAt m madt.header = type then madt.header :: l' else l'

section First

variable {m : Memory} {madt : Madt} {type fuel e : Nat} {done : Nat → Prop} {s : Cursor} {l l' : List Nat}

theorem Met.unique (h : Met m madt type done s l) (h' : Met m madt type done s l') : l = l' := by
  induction h generalizing l'
  case past ho =>
    cases h'
    case past => rfl
    all_goals exact absurd ‹madt.Inside _› ho
  case skip hi ht _ hind =>
    cases h'
    case past ho => exact absurd hi ho
    case skip h' => exact hind h'
    all_goals exact absurd ‹_› ht
  case last hi ht hd =>
    cases h'
    case past ho      => exact absurd hi ho
    case skip hn _    => exact absurd ht hn
    case last         => rfl
    case more hn _    => exact absurd hd hn
  case more hi ht hd _ hind =>
    cases h'
    case past ho      => exact absurd hi ho
    case skip hn _    => exact absurd ht hn
    case last hd'     => exact absurd hd' hd
    case more h' => rw [hind h']

theorem AllFrom.unique (h : AllFrom m madt type l) (h' : AllFrom m madt type l') : l = l' := by
  obtain ⟨l₁, h₁, he₁⟩ := h
  obtain ⟨l₂, h₂, he₂⟩ := h'
  rw [he₁, he₂, h₁.unique h₂]

theorem AllFrom.tail (h : AllFrom m madt type (e :: l)) :
    All m madt type (madt.start e) l ∧ e ≠ 0 ∧ e < 2 ^ 64 := by
  obtain ⟨l', h', hl⟩ := h
  split_ifs at hl
  case pos =>
    cases hl
    refine ⟨h', ?_, madt.header_lt⟩
    rw [Madt.header, sizeofMadt]
    omega
  case neg =>
    subst hl
    obtain ⟨_, hrest⟩ := h'.found_cons
    exact ⟨(hrest.resolve_left fun hd => hd.left).right, h'.address (.start madt.header_lt) e (by simp)⟩

theorem findFirst_ends (h : AllFrom m madt type l) :
    Ends (fun fuel => findNextICS (readAny m) madt fuel type madt.header true) (.ok (l.headD 0)) := by
  obtain ⟨l', h', he⟩ := h
  simp only [findNextICS_first]
  by_cases ht : typeAt m madt.header = type
  case pos =>
    rw [if_pos ht] at he
    rw [he]
    simp only [if_pos ht]
    exact .const
  case neg =>
    rw [if_neg ht] at he
    rw [he]
    simp only [if_neg ht]
    cases l'
    case nil => exact findNextICS_of_found h'.found_nil
    case cons e l =>
      obtain ⟨hf, _⟩ := h'.found_cons
      have hends := findNextICS_of_found hf
      rw [List.headD_cons] at hends ⊢
      exact hends

theorem findFirst_cases (m : Memory) (madt : Madt) (type fuel : Nat) :
    findNextICS (readAny m) madt fuel type madt.header true = .error .running ∨
    (findNextICS (readAny m) madt fuel type madt.header true = .ok 0 ∧ AllFrom m madt type []) ∨
    ∃ e, findNextICS (readAny m) madt fuel type madt.header true = .ok e ∧ e ≠ 0 ∧ e < 2 ^ 64 ∧
      ∀ l, All m madt type (madt.start e) l → AllFrom m madt type (e :: l) := by
  rw [findNextICS_first]
  by_cases ht : typeAt m madt.header = type
  case pos =>
    rw [if_pos ht]
    refine .inr (.inr ⟨madt.header, rfl, ?_, madt.header_lt, fun l h => ⟨l, h, by rw [if_pos ht]⟩⟩)
    rw [Madt.header, sizeofMadt]
    omega
  case neg =>
    rw [if_neg ht]
    rcases findNextICS_next m madt type fuel (fun _ => False) madt.header_lt with
      he | ⟨he, hm⟩ | ⟨e, he, hne, hlt, _, hm⟩
    case inl     => exact .inl he
    case inr.inl => exact .inr (.inl ⟨he, [], hm, by rw [if_neg ht]⟩)
    case inr.inr => exact .inr (.inr ⟨e, he, hne, hlt, fun l h => ⟨e :: l, hm not_false l h, by rw [if_neg ht]⟩⟩)

theorem AllFrom.head_lt (h : AllFrom m madt type l) : l.headD 0 < 2 ^ 64 := by
  cases l
  case nil      => exact Nat.two_pow_pos 64
  case cons e l =>
    obtain ⟨_, _, hlt⟩ := h.tail
    exact hlt

theorem AllFrom.loop_ends {devices : Devices} {count r : Nat} (h : AllFrom m madt ICS_IOAPIC l)
    (hs : SetUp m madt devices l count r) :
    Ends (fun fuel => ioapicLoop (readAny m) madt devices fuel madt.header fuel (l.headD 0) count) (.ok r) := by
  cases l
  case nil =>
    cases hs
    exact ioapicLoop_null.ends
  case cons e l =>
    obtain ⟨hl, hne, hlt⟩ := h.tail
    exact (ioapicLoop_of_setUp hl hne hlt hs).ends

end First

section Whole

variable {m : Memory} {base : BitVec 32} {devices : Devices} {fuel count : Nat}

-- What is passed to `initLapic` when `ioapics` and then `lapics` are found.
def passed (m : Memory) (base : BitVec 32) (ioapics lapics : List Nat) : InitLapic where
  bar     := load m (base.toNat + 36) 4
  apCount := countLapics m lapics 1
  wakeup  := ioapics.headD 0

theorem initAPIC_readAny : initAPIC (readAny m) devices fuel base count = (do
    let check ← findNextICS (readAny m) (madtOf m base) fuel ICS_IOAPIC (madtOf m base).header true
    let _ ← ioapicLoop (readAny m) (madtOf m base) devices fuel (madtOf m base).header fuel check count
    let mpw ← findNextICS (readAny m) (madtOf m base) fuel ICS_IOAPIC (madtOf m base).header true
    let check ← findNextICS (readAny m) (madtOf m base) fuel ICS_IOAPIC (madtOf m base).header true
    let apCount ← lapicLoop (readAny m) (madtOf m base) fuel fuel check 1
    return { bar := load m (base.toNat + 36) 4, apCount, wakeup := mpw }) := by
  rw [initAPIC, fetch_readAny, fetch_readAny]
  rfl

-- The structures that `initAPIC` comes by when nothing stops it.
structure Enumerated (m : Memory) (base : BitVec 32) (devices : Devices) (count : Nat) (ioapics lapics : List Nat)
    (count' : Nat) : Prop where
  all     : AllFrom m (madtOf m base) ICS_IOAPIC ioapics
  setUp   : SetUp m (madtOf m base) devices ioapics count count'
  counted : All m (madtOf m base) ICS_LAPIC ((madtOf m base).start (ioapics.headD 0)) lapics

-- All that is left to the call is the count, when the IOAPICs are set up.
theorem initAPIC_ends {ioapics lapics : List Nat} {count' : Nat} (h : AllFrom m (madtOf m base) ICS_IOAPIC ioapics)
    (hloop : Ends (fun fuel => ioapicLoop (readAny m) (madtOf m base) devices fuel (madtOf m base).header fuel
      (ioapics.headD 0) count) (.ok count'))
    (hl : All m (madtOf m base) ICS_LAPIC ((madtOf m base).start (ioapics.headD 0)) lapics) :
    Ends (fun fuel => initAPIC (readAny m) devices fuel base count) (.ok (passed m base ioapics lapics)) := by
  have hfirst := findFirst_ends h
  have hcount := (lapicLoop_of_all 1 hl h.head_lt).ends
  simp only [initAPIC_readAny]
  exact .bind hfirst (.bind hloop (.bind hfirst (.bind hfirst (.bind hcount .const))))

theorem Enumerated.ends {ioapics lapics : List Nat} {count' : Nat}
    (h : Enumerated m base devices count ioapics lapics count') :
    Ends (fun fuel => initAPIC (readAny m) devices fuel base count) (.ok (passed m base ioapics lapics)) :=
  initAPIC_ends h.all (h.all.loop_ends h.setUp) h.counted

theorem initAPIC_cases (m : Memory) (base : BitVec 32) (devices : Devices) (fuel count : Nat) :
    initAPIC (readAny m) devices fuel base count = .error .running ∨
    (¬devices.Fine ∧ ∃ x, initAPIC (readAny m) devices fuel base count = .error (.exit x)) ∨
    ∃ ioapics lapics count', Enumerated m base devices count ioapics lapics count' ∧
      initAPIC (readAny m) devices fuel base count = .ok (passed m base ioapics lapics) := by
  rw [initAPIC_readAny]
  rcases findFirst_cases m (madtOf m base) ICS_IOAPIC fuel with
    he | ⟨he, hall⟩ | ⟨e, he, hne, hlt, hall⟩
  all_goals simp only [he, ok_bind, error_bind]
  case inl => exact .inl trivial
  case inr.inl =>
    cases fuel
    case zero => exact .inl rfl
    case succ n =>
      rw [ioapicLoop_zero]
      rcases lapicLoop_cases m (madtOf m base) (n + 1) (n + 1) 1 (Nat.two_pow_pos 64) with hl | ⟨lapics, hl, hok⟩
      case inl =>
        simp only [hl, ok_bind, error_bind]
        exact .inl trivial
      case inr =>
        simp only [hok, ok_bind]
        exact .inr (.inr ⟨[], lapics, count, ⟨hall, .nil, hl⟩, rfl⟩)
  case inr.inr =>
    rcases ioapicLoop_cases m (madtOf m base) devices fuel fuel count hne hlt with hi | ⟨hf, x, hi⟩ | ⟨l, r, hl, hs, hi⟩
    all_goals simp only [hi, ok_bind, error_bind]
    case inl     => exact .inl trivial
    case inr.inl => exact .inr (.inl ⟨hf, x, rfl⟩)
    case inr.inr =>
      rcases lapicLoop_cases m (madtOf m base) fuel fuel 1 hlt with
        hc | ⟨lapics, hc, hok⟩
      case inl =>
        simp only [hc, error_bind]
        exact .inl trivial
      case inr =>
        simp only [hok, ok_bind]
        exact .inr (.inr ⟨e :: l, lapics, r, ⟨hall l hl, hs, hc⟩, rfl⟩)

theorem initAPIC_ok_iff {r : InitLapic} : (∃ fuel, initAPIC (readAny m) devices fuel base count = .ok r) ↔
    ∃ ioapics lapics count', Enumerated m base devices count ioapics lapics count' ∧
      r = passed m base ioapics lapics := by
  constructor
  case mp =>
    rintro ⟨fuel, hok⟩
    rcases initAPIC_cases m base devices fuel count with
      he | ⟨_, x, he⟩ | ⟨ioapics, lapics, count', h, he⟩
    all_goals rw [hok] at he
    case inl     => cases he
    case inr.inl => cases he
    case inr.inr => exact ⟨ioapics, lapics, count', h, Except.ok.inj he⟩
  case mpr =>
    rintro ⟨ioapics, lapics, count', h, rfl⟩
    obtain ⟨N, hN⟩ := h.ends
    exact ⟨N, hN N (Nat.le_refl N)⟩

end Whole

end RoverOS.Acpi
