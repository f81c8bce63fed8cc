import RoverOS.Acpi.Theorems.Walk

-- What the loops compute, when all memory can be read, of the structures that they come by.

open Bytes (Memory load)
open RoverOS.Ramdisk (Read loadWith readAny loadWith_readAny)

namespace RoverOS.Acpi

-- The call or the loop comes to its end with `r`, as soon as it is given enough fuel.
def Ends {α : Type} (f : Nat → Except Stop α) (r : Except Stop α) : Prop :=
  ∃ N, ∀ fuel ≥ N, f fuel = r

-- The same for a loop with fuel of its own.
def LoopEnds {α : Type} (f : Nat → Nat → Except Stop α) (r : Except Stop α) : Prop :=
  ∃ N, ∀ fuel ≥ N, ∀ n ≥ N, f fuel n = r

theorem ok_ne_running {α : Type} {a : α} : (.ok a : Except Stop α) ≠ .error .running := by
  intro h
  cases h

theorem exit_ne_running {α : Type} {e : Exit} : (.error (.exit e) : Except Stop α) ≠ .error .running := by
  intro h
  cases h

theorem ok_bind {α β : Type} {a : α} {f : α → Except Stop β} : ((.ok a : Except Stop α) >>= f) = f a := rfl

theorem error_bind {α β : Type} {e : Stop} {f : α → Except Stop β} :
    ((.error e : Except Stop α) >>= f) = .error e := rfl

namespace Ends

variable {α : Type} {f : Nat → Except Stop α} {r : Except Stop α}

theorem const : Ends (fun _ => r) r := ⟨0, fun _ _ => rfl⟩

theorem of_succ (h : Ends (fun fuel => f (fuel + 1)) r) : Ends f r := by
  obtain ⟨N, hN⟩ := h
  refine ⟨N + 1, fun fuel hf => ?_⟩
  obtain ⟨fuel, rfl⟩ := Nat.exists_eq_add_of_le' (Nat.le_of_add_left_le hf)
  exact hN fuel (by omega)

end Ends

namespace LoopEnds

variable {α β : Type} {f : Nat → Nat → Except Stop α} {r : Except Stop α}

theorem const : LoopEnds (fun _ _ => r) r := ⟨0, fun _ _ _ _ => rfl⟩

theorem ends (h : LoopEnds f r) : Ends (fun fuel => f fuel fuel) r := by
  obtain ⟨N, hN⟩ := h
  exact ⟨N, fun fuel hf => hN fuel hf fuel hf⟩

-- A call without a loop of its own.
theorem of_ends {f : Nat → Except Stop α} (h : Ends f r) : LoopEnds (fun fuel _ => f fuel) r := by
  obtain ⟨N, hN⟩ := h
  exact ⟨N, fun fuel hf _ _ => hN fuel hf⟩

theorem of_succ (h : LoopEnds (fun fuel n => f fuel (n + 1)) r) : LoopEnds f r := by
  obtain ⟨N, hN⟩ := h
  refine ⟨N + 1, fun fuel hf n hn => ?_⟩
  obtain ⟨n, rfl⟩ := Nat.exists_eq_add_of_le' (Nat.le_of_add_left_le hn)
  exact hN fuel (by omega) n (by omega)

theorem bind {g : Nat → Except Stop β} {b : β} {k : Nat → Nat → β → Except Stop α} (hg : Ends g (.ok b))
    (hk : LoopEnds (fun fuel n => k fuel n b) r) : LoopEnds (fun fuel n => g fuel >>= k fuel n) r := by
  obtain ⟨N₁, h₁⟩ := hg
  obtain ⟨N₂, h₂⟩ := hk
  refine ⟨max N₁ N₂, fun fuel hfuel n hn => ?_⟩
  dsimp only
  rw [h₁ fuel (by omega)]
  exact h₂ fuel (by omega) n (by omega)

theorem bind_error {g : Nat → Except Stop β} {e : Stop} {k : Nat → Nat → β → Except Stop α}
    (hg : Ends g (.error e)) : LoopEnds (fun fuel n => g fuel >>= k fuel n) (.error e) := by
  obtain ⟨N, h⟩ := hg
  refine ⟨N, fun fuel hfuel n _ => ?_⟩
  dsimp only
  rw [h fuel hfuel, error_bind]

-- A turn of the loop begins with a call that comes to its end.
theorem turn {g : Nat → Except Stop β} {b : β} {k : Nat → Nat → β → Except Stop α} (hg : Ends g (.ok b))
    (hk : LoopEnds (fun fuel n => k fuel n b) r) (hf : ∀ fuel n, f fuel (n + 1) = g fuel >>= k fuel n) :
    LoopEnds f r := by
  refine .of_succ ?_
  simp only [hf]
  exact bind hg hk

end LoopEnds

namespace Ends

variable {α β : Type} {g : Nat → Except Stop β} {k : Nat → β → Except Stop α} {r : Except Stop α}

theorem bind {b : β} (hg : Ends g (.ok b)) (hk : Ends (fun fuel => k fuel b) r) :
    Ends (fun fuel => g fuel >>= k fuel) r := by
  have h : LoopEnds (fun fuel _ => g fuel >>= k fuel) r := .bind hg (.of_ends hk)
  exact h.ends

theorem bind_error {e : Stop} (hg : Ends g (.error e)) : Ends (fun fuel => g fuel >>= k fuel) (.error e) := by
  have h : LoopEnds (fun fuel _ => g fuel >>= k fuel) (.error e) := .bind_error hg
  exact h.ends

end Ends

-- One search finds at most one structure.
abbrev Found (m : Memory) (madt : Madt) (type : Nat) : Cursor → List Nat → Prop :=
  Met m madt type fun _ => True

section Search

variable {m : Memory} {madt : Madt} {type a n r fuel current : Nat} {done : Nat → Prop} {s : Cursor}
variable {l : List Nat}

@[simp]
theorem fetch_readAny : fetch (readAny m) a n = .ok (load m a n) := by
  rw [fetch, loadWith_readAny]
  rfl

theorem searchLoop_succ : searchLoop (readAny m) madt type (fuel + 1) s.clen s.check =
    if s.clen ≤ madt.length.toNat then
      if typeAt m (advance m s).check = type then .ok (advance m s).check
      else searchLoop (readAny m) madt type fuel (advance m s).clen (advance m s).check
    else .ok 0 := by
  rw [searchLoop]
  simp only [icsLength, icsType, fetch_readAny, bind, Except.bind]
  rfl

theorem searchLoop_of_found (h : Found m madt type s l) :
    Ends (fun fuel => searchLoop (readAny m) madt type fuel s.clen s.check) (.ok (l.headD 0)) := by
  induction h
  case past s ho =>
    refine .of_succ ?_
    rw [Madt.Inside] at ho
    simp only [searchLoop_succ, if_neg ho]
    exact .const
  case last s hi ht _ =>
    refine .of_succ ?_
    rw [Madt.Inside] at hi
    simp only [searchLoop_succ, if_pos hi, if_pos ht]
    exact .const
  case skip s l hi ht _ hind =>
    refine .of_succ ?_
    rw [Madt.Inside] at hi
    simp only [searchLoop_succ, if_pos hi, if_neg ht]
    exact hind
  case more hd _ _ => exact absurd trivial hd

-- Without enough fuel it is still running.
theorem searchLoop_cases (m : Memory) (madt : Madt) (type fuel : Nat) (s : Cursor) :
    searchLoop (readAny m) madt type fuel s.clen s.check = .error .running ∨
    ∃ l, Found m madt type s l ∧ searchLoop (readAny m) madt type fuel s.clen s.check = .ok (l.headD 0) := by
  induction fuel generalizing s
  case zero => exact .inl rfl
  case succ fuel hind =>
    rw [searchLoop_succ]
    by_cases hi : s.clen ≤ madt.length.toNat
    case neg =>
      rw [if_neg hi]
      exact .inr ⟨[], .past hi, rfl⟩
    case pos =>
      rw [if_pos hi]
      by_cases ht : typeAt m (advance m s).check = type
      case pos =>
        rw [if_pos ht]
        exact .inr ⟨_, .last hi ht trivial, rfl⟩
      case neg =>
        rw [if_neg ht]
        rcases hind (advance m s) with he | ⟨l, hl, he⟩
        case inl => exact .inl he
        case inr => exact .inr ⟨l, .skip hi ht hl, he⟩

-- A repeated search begins with a single one.
theorem Met.split (h : Met m madt type done s l) : (l = [] ∧ Found m madt type s []) ∨
    ∃ e, Found m madt type s [e] ∧ ((done e ∧ l = [e]) ∨
      (¬done e ∧ ∃ l', l = e :: l' ∧ Met m madt type done (madt.start e) l')) := by
  induction h
  case past ho            => exact .inl ⟨rfl, .past ho⟩
  case last s hi ht hd    => exact .inr ⟨_, .last hi ht trivial, .inl ⟨hd, rfl⟩⟩
  case more s l hi ht hd h _ => exact .inr ⟨_, .last hi ht trivial, .inr ⟨hd, l, rfl, h⟩⟩
  case skip hi ht _ hind =>
    rcases hind with ⟨hl, hf⟩ | ⟨e, hf, he⟩
    case inl => exact .inl ⟨hl, .skip hi ht hf⟩
    case inr => exact .inr ⟨e, .skip hi ht hf, he⟩

theorem Met.found_nil (h : Met m madt type done s []) : Found m madt type s [] := by
  rcases h.split with ⟨_, hf⟩ | ⟨e, _, ⟨_, hl⟩ | ⟨_, l', hl, _⟩⟩
  case inl     => exact hf
  case inr.inl => cases hl
  case inr.inr => cases hl

theorem Met.found_cons {e : Nat} (h : Met m madt type done s (e :: l)) : Found m madt type s [e] ∧
    ((done e ∧ l = []) ∨ (¬done e ∧ Met m madt type done (madt.start e) l)) := by
  rcases h.split with ⟨hl, _⟩ | ⟨e', hf, ⟨hd, hl⟩ | ⟨hd, l', hl, h'⟩⟩
  case inl     => cases hl
  case inr.inl =>
    cases hl
    exact ⟨hf, .inl ⟨hd, rfl⟩⟩
  case inr.inr =>
    cases hl
    exact ⟨hf, .inr ⟨hd, h'⟩⟩

theorem Met.of_found_nil (h : Found m madt type s []) : Met m madt type done s [] := by
  generalize hl : ([] : List Nat) = l at h
  induction h
  case past ho           => exact .past ho
  case skip hi ht _ hind => exact .skip hi ht (hind hl)
  case last              => cases hl
  case more hd _ _       => exact absurd trivial hd

theorem Met.of_found (done : Nat → Prop) (h : Found m madt type s l) {e : Nat} (hl : l = [e]) :
    (done e → Met m madt type done s [e]) ∧
    (¬done e → ∀ l', Met m madt type done (madt.start e) l' → Met m madt type done s (e :: l')) := by
  induction h
  case past => cases hl
  case last hi ht _ =>
    cases hl
    exact ⟨fun hd => .last hi ht hd, fun hd l' h => .more hi ht hd h⟩
  case skip hi ht _ hind =>
    obtain ⟨hd, hn⟩ := hind hl
    exact ⟨fun h => .skip hi ht (hd h), fun h l' hm => .skip hi ht (hn h l' hm)⟩
  case more hd _ _ => exact absurd trivial hd

theorem Found.nil_or_singleton (h : Found m madt type s l) : l = [] ∨ ∃ e, l = [e] := by
  rcases h.split with ⟨hl, _⟩ | ⟨e, _, ⟨_, hl⟩ | ⟨hd, _⟩⟩
  case inl         => exact .inl hl
  case inr.inl     => exact .inr ⟨e, hl⟩
  case inr.inr     => exact absurd trivial hd

-- None of the structures is at NULL.
theorem Met.address (h : Met m madt type done s l) (hs : Sane m madt type s) : ∀ e ∈ l, e ≠ 0 ∧ e < 2 ^ 64 := by
  have hnext : ∀ {s : Cursor}, Sane m madt type s → madt.Inside s →
      (advance m s).check ≠ 0 ∧ (advance m s).check < 2 ^ 64 := by
    intro s hs hi
    refine ⟨?_, u64_lt _⟩
    intro hz
    have ho := hs.offset_advance hi
    have hb := hs.behind
    have hl := madt.length.isLt
    have hbase := madt.base.isLt
    rw [hz] at ho
    rw [Madt.Inside] at hi
    simp only [Madt.offset, sub64, u64, sizeofMadt] at ho hb
    omega
  induction h
  case past => simp
  case skip s l hi ht _ hind =>
    have hw := hs.walk hi
    rw [walk_of_ne ht] at hw
    exact hind hw
  case last s hi _ _ =>
    intro e he
    rw [List.mem_singleton.mp he]
    exact hnext hs hi
  case more s l hi _ _ _ hind =>
    intro e he
    rcases List.mem_cons.mp he with rfl | he
    case inl => exact hnext hs hi
    case inr => exact hind (.start (u64_lt _)) e he

-- The structure at `current` itself is looked at first.
theorem findNextICS_first : findNextICS (readAny m) madt fuel type current true =
    if typeAt m current = type then .ok current else findNextICS (readAny m) madt fuel type current false :=
  findNextICS_true fetch_readAny

theorem findNextICS_of_found (h : Found m madt type (madt.start current) l) :
    Ends (fun fuel => findNextICS (readAny m) madt fuel type current false) (.ok (l.headD 0)) := by
  have hs := searchLoop_of_found h
  simp only [Madt.start] at hs
  simp only [findNextICS_false]
  exact hs

theorem findNextICS_cases (m : Memory) (madt : Madt) (type fuel current : Nat) :
    findNextICS (readAny m) madt fuel type current false = .error .running ∨
    ∃ l, Found m madt type (madt.start current) l ∧
      findNextICS (readAny m) madt fuel type current false = .ok (l.headD 0) := by
  have hs := searchLoop_cases m madt type fuel (madt.start current)
  simp only [Madt.start] at hs
  rw [findNextICS_false]
  exact hs

-- One call of a repeated search: there is nothing to find any more, or there is a next structure.
theorem findNextICS_next (m : Memory) (madt : Madt) (type fuel : Nat) (done : Nat → Prop) (hc : current < 2 ^ 64) :
    findNextICS (readAny m) madt fuel type current false = .error .running ∨
    (findNextICS (readAny m) madt fuel type current false = .ok 0 ∧
      Met m madt type done (madt.start current) []) ∨
    ∃ e, findNextICS (readAny m) madt fuel type current false = .ok e ∧ e ≠ 0 ∧ e < 2 ^ 64 ∧
      (done e → Met m madt type done (madt.start current) [e]) ∧
      (¬done e → ∀ l, Met m madt type done (madt.start e) l → Met m madt type done (madt.start current) (e :: l)) := by
  rcases findNextICS_cases m madt type fuel current with
    he | ⟨l, hf, hok⟩
  case inl => exact .inl he
  case inr =>
    rcases hf.nil_or_singleton with rfl | ⟨e, rfl⟩
    case inl => exact .inr (.inl ⟨hok, .of_found_nil hf⟩)
    case inr =>
      obtain ⟨hne, hlt⟩ := hf.address (.start hc) e (List.mem_singleton_self e)
      obtain ⟨hd, hn⟩ := Met.of_found done hf rfl
      exact .inr (.inr ⟨e, hok, hne, hlt, hd, hn⟩)

end Search

section Overrides

variable {m : Memory} {madt : Madt} {n fuel iso : Nat} {l : List Nat}

-- The override of the timer's interrupt.
def IsPit (m : Memory) (e : Nat) : Prop := load m (u64 (e + 3)) 1 = PIT_CHANNEL0

instance (m : Memory) (e : Nat) : Decidable (IsPit m e) :=
  inferInstanceAs (Decidable (_ = _))

def pitMapOf (m : Memory) : List Nat → Nat
  | []     => 0
  | e :: l => if IsPit m e then u8 (load m (u64 (e + 4)) 4) else pitMapOf m l

theorem isoLoop_of_met (h : Met m madt ICS_ISO (IsPit m) (madt.start iso) l) (hc : iso < 2 ^ 64) :
    LoopEnds (fun fuel n => isoLoop (readAny m) madt fuel n iso) (.ok (pitMapOf m l)) := by
  induction l generalizing iso
  case nil =>
    refine .turn (findNextICS_of_found h.found_nil) ?_ fun _ _ => rfl
    exact .const
  case cons e l hind =>
    obtain ⟨hf, hrest⟩ := h.found_cons
    obtain ⟨hne, hlt⟩ := h.address (.start hc) e (by simp)
    refine .turn (findNextICS_of_found hf) ?_ fun _ _ => rfl
    simp only [List.headD_cons, if_neg hne, fetch_readAny]
    rcases hrest with ⟨hd, _⟩ | ⟨hd, hm⟩
    case inl =>
      have hs : ¬load m (u64 (e + 3)) 1 ≠ PIT_CHANNEL0 := not_not_intro hd
      simp only [bind, Except.bind, if_neg hs, pitMapOf, if_pos hd]
      exact .const
    case inr =>
      have hs : load m (u64 (e + 3)) 1 ≠ PIT_CHANNEL0 := hd
      simp only [bind, Except.bind, if_pos hs, pitMapOf, if_neg hd]
      exact hind hm hlt

theorem isoLoop_cases (m : Memory) (madt : Madt) (fuel n : Nat) (hc : iso < 2 ^ 64) : isoLoop (readAny m) madt fuel n iso = .error .running ∨
    ∃ l, Met m madt ICS_ISO (IsPit m) (madt.start iso) l ∧
      isoLoop (readAny m) madt fuel n iso = .ok (pitMapOf m l) := by
  induction n generalizing iso
  case zero => exact .inl rfl
  case succ n hind =>
    rw [isoLoop]
    rcases findNextICS_next m madt ICS_ISO fuel (IsPit m) hc with
      he | ⟨he, hm⟩ | ⟨e, he, hne, hlt, hd, hn⟩
    all_goals rw [he]
    case inl     => exact .inl rfl
    case inr.inl => exact .inr ⟨[], hm, rfl⟩
    case inr.inr =>
      simp only [bind, Except.bind, if_neg hne, fetch_readAny]
      by_cases hp : IsPit m e
      case pos =>
        have hs : ¬load m (u64 (e + 3)) 1 ≠ PIT_CHANNEL0 := not_not_intro hp
        refine .inr ⟨[e], hd hp, ?_⟩
        simp only [if_neg hs, pitMapOf, if_pos hp]
        rfl
      case neg =>
        have hs : load m (u64 (e + 3)) 1 ≠ PIT_CHANNEL0 := hp
        rw [if_pos hs]
        rcases hind hlt with he | ⟨l, hl, he⟩
        case inl => exact .inl he
        case inr =>
          refine .inr ⟨e :: l, hn hp l hl, ?_⟩
          rw [he, pitMapOf, if_neg hp]

end Overrides

section Processors

variable {m : Memory} {madt : Madt} {n fuel check apCount : Nat} {l : List Nat}

def flagsAt (m : Memory) (e : Nat) : Nat := load m (u64 (e + 4)) 4

-- Repeated for all structures of a type.
abbrev All (m : Memory) (madt : Madt) (type : Nat) : Cursor → List Nat → Prop :=
  Met m madt type fun _ => False

def countLapics (m : Memory) : List Nat → Nat → Nat
  | [],     apCount => apCount
  | e :: l, apCount => countLapics m l (if skipsLapic (flagsAt m e) then apCount else u16 (apCount + 1))

-- Whether a processor is counted only changes the count.
theorem lapicLoop_turn {read : Read} {e : Nat} (skip : Bool) :
    (if skip then lapicLoop read madt fuel n e apCount else lapicLoop read madt fuel n e (u16 (apCount + 1))) =
      lapicLoop read madt fuel n e (if skip then apCount else u16 (apCount + 1)) := by
  cases skip <;> rfl

theorem lapicLoop_of_all (apCount : Nat) (h : All m madt ICS_LAPIC (madt.start check) l) (hc : check < 2 ^ 64) :
    LoopEnds (fun fuel n => lapicLoop (readAny m) madt fuel n check apCount) (.ok (countLapics m l apCount)) := by
  induction l generalizing check apCount
  case nil =>
    refine .turn (findNextICS_of_found h.found_nil) ?_ fun _ _ => rfl
    exact .const
  case cons e l hind =>
    obtain ⟨hf, hrest⟩ := h.found_cons
    obtain ⟨hne, hlt⟩ := h.address (.start hc) e (by simp)
    refine .turn (findNextICS_of_found hf) ?_ fun _ _ => rfl
    simp only [List.headD_cons, if_neg hne, fetch_readAny]
    rcases hrest with ⟨hd, _⟩ | ⟨_, hm⟩
    case inl => cases hd
    case inr =>
      simp only [bind, Except.bind, lapicLoop_turn, countLapics]
      exact hind _ hm hlt

theorem lapicLoop_cases (m : Memory) (madt : Madt) (fuel n apCount : Nat) (hc : check < 2 ^ 64) :
    lapicLoop (readAny m) madt fuel n check apCount = .error .running ∨
    ∃ l, All m madt ICS_LAPIC (madt.start check) l ∧
      lapicLoop (readAny m) madt fuel n check apCount = .ok (countLapics m l apCount) := by
  induction n generalizing check apCount
  case zero => exact .inl rfl
  case succ n hind =>
    rw [lapicLoop]
    rcases findNextICS_next m madt ICS_LAPIC fuel (fun _ => False) hc with
      he | ⟨he, hm⟩ | ⟨e, he, hne, hlt, _, hn⟩
    all_goals rw [he]
    case inl     => exact .inl rfl
    case inr.inl => exact .inr ⟨[], hm, rfl⟩
    case inr.inr =>
      have hi := hind (if skipsLapic (flagsAt m e) then apCount else u16 (apCount + 1)) hlt
      simp only [bind, Except.bind, if_neg hne, fetch_readAny]
      rw [lapicLoop_turn]
      rcases hi with he | ⟨l, hl, he⟩
      case inl => exact .inl he
      case inr => exact .inr ⟨e :: l, hn not_false l hl, he⟩

end Processors

section Ioapics

variable {m : Memory} {madt : Madt} {devices : Devices} {n fuel check count : Nat} {l : List Nat}

def ioAddrAt (m : Memory) (e : Nat) : Nat := load m (u64 (e + 4)) 4

-- The IOAPICs are set up one after the other. A register page that is not aligned is left out.
inductive SetUp (m : Memory) (madt : Madt) (devices : Devices) : List Nat → Nat → Nat → Prop
  | nil {count : Nat} : SetUp m madt devices [] count count
  | unaligned {e count count' : Nat} {l : List Nat} :
    ioAddrAt m e % 0x1000 ≠ 0 → SetUp m madt devices l count count' → SetUp m madt devices (e :: l) count count'
  | aligned {e count count' : Nat} {l isos : List Nat} :
    ioAddrAt m e % 0x1000 = 0 → devices.claim count (ioAddrAt m e) = .ok () →
    Met m madt ICS_ISO (IsPit m) (madt.start madt.header) isos → devices.route count (pitMapOf m isos) = .ok () →
    SetUp m madt devices l (count + 1) count' → SetUp m madt devices (e :: l) count count'

-- Nothing runs out.
def Devices.Fine (devices : Devices) : Prop :=
  ∀ count a, devices.claim count a = .ok () ∧ devices.route count a = .ok ()

def Devices.fine : Devices where
  claim := fun _ _ => .ok ()
  route := fun _ _ => .ok ()

theorem Devices.fine_fine : Devices.fine.Fine := fun _ _ => ⟨rfl, rfl⟩

theorem Madt.header_lt : madt.header < 2 ^ 64 := by
  have hb := madt.base.isLt
  rw [Madt.header, sizeofMadt]
  omega

section One

variable {e : Nat}

theorem initIOAPIC_unaligned (h : ioAddrAt m e % 0x1000 ≠ 0) :
    initIOAPIC (readAny m) madt devices fuel e madt.header count = .ok count := by
  rw [ioAddrAt] at h
  simp only [initIOAPIC, fetch_readAny, bind, Except.bind, if_pos h]
  rfl

theorem initIOAPIC_aligned (h : ioAddrAt m e % 0x1000 = 0) :
    initIOAPIC (readAny m) madt devices fuel e madt.header count = (do
      ofExit (devices.claim count (ioAddrAt m e))
      let pitMap ← isoLoop (readAny m) madt fuel fuel madt.header
      ofExit (devices.route count pitMap)
      return count + 1) := by
  have h' : ¬load m (u64 (e + 4)) 4 % 0x1000 ≠ 0 := not_not_intro h
  simp only [initIOAPIC, fetch_readAny, bind, Except.bind, if_neg h', ioAddrAt]

-- The search for the override of the timer comes to its end.
theorem initIOAPIC_ends (devices : Devices) (count : Nat) {isos : List Nat} (h : ioAddrAt m e % 0x1000 = 0)
    (hi : Met m madt ICS_ISO (IsPit m) (madt.start madt.header) isos) :
    Ends (fun fuel => initIOAPIC (readAny m) madt devices fuel e madt.header count) (ofExit (do
      devices.claim count (ioAddrAt m e)
      devices.route count (pitMapOf m isos)
      return count + 1)) := by
  obtain ⟨N, hN⟩ := (isoLoop_of_met hi madt.header_lt).ends
  dsimp only at hN
  refine ⟨N, fun fuel hf => ?_⟩
  dsimp only
  rw [initIOAPIC_aligned h, hN fuel hf]
  cases devices.claim count (ioAddrAt m e)
  case error => rfl
  case ok    =>
    simp only [bind, Except.bind]
    cases devices.route count (pitMapOf m isos) <;> rfl

theorem initIOAPIC_cases (m : Memory) (madt : Madt) (devices : Devices) (fuel count e : Nat) :
    initIOAPIC (readAny m) madt devices fuel e madt.header count = .error .running ∨
    (¬devices.Fine ∧ ∃ x, initIOAPIC (readAny m) madt devices fuel e madt.header count = .error (.exit x)) ∨
    ∃ count', initIOAPIC (readAny m) madt devices fuel e madt.header count = .ok count' ∧
      ∀ l r, SetUp m madt devices l count' r → SetUp m madt devices (e :: l) count r := by
  by_cases h : ioAddrAt m e % 0x1000 = 0
  case neg => exact .inr (.inr ⟨count, initIOAPIC_unaligned h, fun l r hs => .unaligned h hs⟩)
  case pos =>
    rw [initIOAPIC_aligned h]
    cases hc : devices.claim count (ioAddrAt m e)
    case error x =>
      refine .inr (.inl ⟨fun hf => ?_, x, rfl⟩)
      rw [(hf count (ioAddrAt m e)).left] at hc
      cases hc
    case ok =>
      rcases isoLoop_cases m madt fuel fuel madt.header_lt with he | ⟨isos, hi, he⟩
      all_goals rw [he]
      case inl => exact .inl rfl
      case inr =>
        cases hr : devices.route count (pitMapOf m isos)
        case error x =>
          refine .inr (.inl ⟨fun hf => ?_, x, ?_⟩)
          case refine_1 =>
            rw [(hf count (pitMapOf m isos)).right] at hr
            cases hr
          case refine_2 =>
            simp only [bind, Except.bind, hr]
            rfl
        case ok =>
          refine .inr (.inr ⟨count + 1, ?_, fun l r hs => .aligned h hc hi hr hs⟩)
          simp only [bind, Except.bind, hr]
          rfl

end One

theorem ioapicLoop_zero : ioapicLoop (readAny m) madt devices fuel madt.header (n + 1) 0 count = .ok count := by
  rw [ioapicLoop, if_pos rfl]

theorem ioapicLoop_null : LoopEnds (fun fuel n => ioapicLoop (readAny m) madt devices fuel madt.header n 0 count)
    (.ok count) := by
  refine .of_succ ?_
  simp only [ioapicLoop_zero]
  exact .const

theorem ioapicLoop_turn {e count' : Nat} {r : Except Stop Nat} (hne : e ≠ 0)
    (hinit : Ends (fun fuel => initIOAPIC (readAny m) madt devices fuel e madt.header count) (.ok count'))
    (hf : Found m madt ICS_IOAPIC (madt.start e) l)
    (h : LoopEnds (fun fuel n => ioapicLoop (readAny m) madt devices fuel madt.header n (l.headD 0) count') r) :
    LoopEnds (fun fuel n => ioapicLoop (readAny m) madt devices fuel madt.header n e count) r := by
  refine .of_succ ?_
  simp only [ioapicLoop, if_neg hne]
  exact .bind hinit (.bind (findNextICS_of_found hf) h)

theorem initIOAPIC_returns (devices : Devices) (count : Nat) {e : Nat} (hiso : ioAddrAt m e % 0x1000 = 0 →
    ∃ isos, Met m madt ICS_ISO (IsPit m) (madt.start madt.header) isos) :
    (∃ count', Ends (fun fuel => initIOAPIC (readAny m) madt devices fuel e madt.header count) (.ok count')) ∨
    ∃ x, Ends (fun fuel => initIOAPIC (readAny m) madt devices fuel e madt.header count) (.error (.exit x)) := by
  by_cases h : ioAddrAt m e % 0x1000 = 0
  case neg =>
    refine .inl ⟨count, ?_⟩
    simp only [initIOAPIC_unaligned h]
    exact .const
  case pos =>
    obtain ⟨isos, hi⟩ := hiso h
    have hends := initIOAPIC_ends devices count h hi
    generalize (do
      devices.claim count (ioAddrAt m e)
      devices.route count (pitMapOf m isos)
      return count + 1 : Except Exit Nat) = r at hends
    cases r
    case error x => exact .inr ⟨x, hends⟩
    case ok c    => exact .inl ⟨c, hends⟩

-- The loop comes to its end when the walk does, and the walk for the overrides if there is one.
theorem ioapicLoop_returns (devices : Devices) (count : Nat) {e : Nat} (h : All m madt ICS_IOAPIC (madt.start e) l) (hne : e ≠ 0) (hlt : e < 2 ^ 64)
    (hiso : (∃ x ∈ e :: l, ioAddrAt m x % 0x1000 = 0) →
      ∃ isos, Met m madt ICS_ISO (IsPit m) (madt.start madt.header) isos) :
    ∃ r, r ≠ .error .running ∧
      LoopEnds (fun fuel n => ioapicLoop (readAny m) madt devices fuel madt.header n e count) r := by
  induction l generalizing e count
  all_goals
    rcases initIOAPIC_returns devices count (e := e)
      (fun ha => hiso ⟨e, List.mem_cons_self, ha⟩) with ⟨count', hinit⟩ | ⟨x, hinit⟩
  case nil.inl => exact ⟨.ok count', ok_ne_running, ioapicLoop_turn hne hinit h.found_nil ioapicLoop_null⟩
  case cons.inl e' l hind =>
    obtain ⟨hf, hrest⟩ := h.found_cons
    obtain ⟨hne', hlt'⟩ := h.address (.start hlt) e' (by simp)
    obtain ⟨r, hr, hl⟩ := hind count' (hrest.resolve_left fun hd => hd.left).right hne' hlt' (by
      rintro ⟨x, hx, ha⟩
      exact hiso ⟨x, List.mem_cons_of_mem e hx, ha⟩)
    exact ⟨r, hr, ioapicLoop_turn hne hinit hf hl⟩
  all_goals
    refine ⟨.error (.exit x), exit_ne_running, .of_succ ?_⟩
    simp only [ioapicLoop, if_neg hne]
    exact .bind_error hinit

theorem SetUp.initIOAPIC {e r : Nat} (h : SetUp m madt devices (e :: l) count r) :
    ∃ count', Ends (fun fuel => initIOAPIC (readAny m) madt devices fuel e madt.header count) (.ok count') ∧
      SetUp m madt devices l count' r := by
  cases h
  case unaligned ha h =>
    refine ⟨count, ?_, h⟩
    simp only [initIOAPIC_unaligned ha]
    exact .const
  case aligned isos hi ha hc hr h =>
    have hends := initIOAPIC_ends devices count ha hi
    rw [hc] at hends
    simp only [bind, Except.bind, hr] at hends
    exact ⟨count + 1, hends, h⟩

theorem ioapicLoop_of_setUp {e r : Nat} (h : All m madt ICS_IOAPIC (madt.start e) l) (hne : e ≠ 0)
    (hlt : e < 2 ^ 64) (hs : SetUp m madt devices (e :: l) count r) :
    LoopEnds (fun fuel n => ioapicLoop (readAny m) madt devices fuel madt.header n e count) (.ok r) := by
  induction l generalizing e count
  case nil =>
    obtain ⟨count', hinit, hs⟩ := hs.initIOAPIC
    cases hs
    exact ioapicLoop_turn hne hinit h.found_nil ioapicLoop_null
  case cons e' l hind =>
    obtain ⟨count', hinit, hs⟩ := hs.initIOAPIC
    obtain ⟨hf, hrest⟩ := h.found_cons
    obtain ⟨hne', hlt'⟩ := h.address (.start hlt) e' (by simp)
    exact ioapicLoop_turn hne hinit hf (hind (hrest.resolve_left fun hd => hd.left).right hne' hlt' hs)

theorem ioapicLoop_cases (m : Memory) (madt : Madt) (devices : Devices) (fuel n count : Nat) {e : Nat} (hne : e ≠ 0) (hlt : e < 2 ^ 64) :
    ioapicLoop (readAny m) madt devices fuel madt.header n e count = .error .running ∨
    (¬devices.Fine ∧ ∃ x, ioapicLoop (readAny m) madt devices fuel madt.header n e count = .error (.exit x)) ∨
    ∃ l r, All m madt ICS_IOAPIC (madt.start e) l ∧ SetUp m madt devices (e :: l) count r ∧
      ioapicLoop (readAny m) madt devices fuel madt.header n e count = .ok r := by
  induction n generalizing e count
  case zero => exact .inl rfl
  case succ n hind =>
    rw [ioapicLoop, if_neg hne]
    rcases initIOAPIC_cases m madt devices fuel count e with he | ⟨hf, x, he⟩ | ⟨count', he, hset⟩
    all_goals rw [he]
    case inl     => exact .inl rfl
    case inr.inl => exact .inr (.inl ⟨hf, x, rfl⟩)
    case inr.inr =>
      simp only [bind, Except.bind]
      rcases findNextICS_next m madt ICS_IOAPIC fuel (fun _ => False) hlt with
        hn | ⟨hn, hm⟩ | ⟨e', hn, hne', hlt', _, hm⟩
      all_goals rw [hn]
      case inl => exact .inl rfl
      case inr.inl =>
        cases n
        case zero => exact .inl rfl
        case succ n => exact .inr (.inr ⟨[], count', hm, hset [] count' .nil, rfl⟩)
      case inr.inr =>
        rcases hind count' hne' hlt' with he | ⟨hf, x, he⟩ | ⟨l, r, hl, hs, he⟩
        case inl     => exact .inl he
        case inr.inl => exact .inr (.inl ⟨hf, x, he⟩)
        case inr.inr => exact .inr (.inr ⟨e' :: l, r, hm not_false l hl, hset _ _ hs, he⟩)

end Ioapics

end RoverOS.Acpi
