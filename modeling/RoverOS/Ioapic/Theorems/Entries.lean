import RoverOS.Ioapic.Basic
import RoverOS.Library.Run

-- Which calls take a redirection entry that no call before has taken.

open Run (Steps)

namespace RoverOS.Ioapic

-- The IOAPIC, and the entries that calls have taken, the last one first.
structure Logged where
  ioapic : Ioapic
  taken  : List (BitVec 8)

def Logged.start : Logged where
  ioapic := Ioapic.start
  taken  := []

inductive Act
  | allocate (vector mode apicid : BitVec 8)
  | set (apicVector intVector mode apicid : BitVec 8)

namespace Act

def call (ioapic : Ioapic) : Act → Except Exit (BitVec 8 × Ioapic)
  | .allocate vector mode apicid             => ioapic.allocateIOAPICInterrupt vector mode apicid
  | .set apicVector intVector mode apicid    => ioapic.setIOAPICInterrupt apicVector intVector mode apicid

-- A call succeeds when it does not return 0xFF.
def Step (s : Logged) (act : Act) (s' : Logged) : Prop :=
  ∃ r, act.call s.ioapic = .ok r ∧
    s' = { ioapic := r.2, taken := if r.1 = 0xFF then s.taken else r.1 :: s.taken }

-- The entry that a call asks for.
def Wants : Act → BitVec 8 → Prop
  | .allocate _ _ _,       _     => False
  | .set apicVector _ _ _, entry => apicVector = entry

structure Owned (s : Logged) (act : Act) (entry : BitVec 8) (ioapic : Ioapic) : Prop where
  taken   : entry ≠ 0xFF → entry.toNat < 24 ∧ entry ∉ s.taken ∧
    ioapic.intmap = s.ioapic.intmap ||| BitVec.twoPow 32 entry.toNat
  refused : (∃ e ∈ s.taken, act.Wants e) → entry = 0xFF
  full    : (∀ e, e.toNat < 24 → e ∈ s.taken) → entry = 0xFF
  failed  : entry = 0xFF → ioapic = s.ioapic

-- What a call should do.
def Right (s : Logged) (act : Act) : Prop :=
  ∃ r, act.call s.ioapic = .ok r ∧ Owned s act r.1 r.2

-- `setIOAPICInterrupt` looks at the first entry instead of the one that it is to take.
def Fits (s : Logged) : Act → Prop
  | .allocate _ _ _                 => True
  | .set apicVector intVector _ _ => intVector < 0x10 ∨ intVector > 0xFE ∨
    (apicVector.toNat < 32 ∧ 0 ∈ s.taken) ∨ (apicVector.toNat < 24 ∧ apicVector ∉ s.taken)

end Act

-- The bitmap is that of the entries that are taken.
structure Agrees (s : Logged) : Prop where
  bits  : ∀ e : BitVec 8, s.ioapic.intmap.getLsbD e.toNat = true ↔ e ∈ s.taken
  bound : ∀ e ∈ s.taken, e.toNat < 24

namespace Agrees

variable {s s' : Logged} {act : Act} {vector mode apicid apicVector intVector : BitVec 8}

theorem start : Agrees Logged.start where
  bits  := by simp [Logged.start, Ioapic.start]
  bound := by simp [Logged.start]

theorem ne_ff {e : BitVec 8} (h : e.toNat < 32) : e ≠ 0xFF := by
  rintro rfl
  exact absurd h (by decide)

-- What a call leaves behind that takes an entry.
theorem take {e : BitVec 8} {ioapic : Ioapic} (ha : Agrees s) (he : e.toNat < 24)
    (hb : ioapic.intmap = s.ioapic.intmap ||| BitVec.twoPow 32 e.toNat) :
    Agrees { ioapic, taken := e :: s.taken } where
  bits  := by
    intro e'
    rw [hb, getLsbD_or_twoPow (by omega), Bool.or_eq_true, ha.bits, decide_eq_true_eq, List.mem_cons,
      BitVec.toNat_inj, or_comm]
  bound := by
    intro e' hm
    rcases List.mem_cons.mp hm with rfl | hm
    case inl => exact he
    case inr => exact ha.bound e' hm

section Allocate

theorem allocate_invalid (hv : vector < 0x10 ∨ vector > 0xFE) :
    s.ioapic.allocateIOAPICInterrupt vector mode apicid = .ok (0xFF, s.ioapic) := by
  rw [allocateIOAPICInterrupt, if_pos hv]
  rfl

-- As the entry 24 is never taken, the scan gets no further.
theorem allocate_valid (ha : Agrees s) (hv : ¬(vector < 0x10 ∨ vector > 0xFE)) :
    (s.ioapic.allocateIOAPICInterrupt vector mode apicid = .ok (0xFF, s.ioapic)) ∨
    ∃ e : BitVec 8, e.toNat < 24 ∧ e ∉ s.taken ∧ s.ioapic.allocateIOAPICInterrupt vector mode apicid =
      .ok (e, s.ioapic.route e.toNat (BitVec.twoPow 32 e.toNat) vector mode apicid) := by
  obtain ⟨e, hok, _, hle, hset, hclear⟩ := freeEntry_spec s.ioapic.intmap (by decide : 0 + 25 ≤ 32)
  have hlast : e ≤ 24 := by
    by_contra hgt
    have hm := (ha.bits 24).mp (hset 24 (by decide) (by omega))
    exact absurd (ha.bound 24 hm) (by decide)
  rw [allocateIOAPICInterrupt, if_neg hv]
  simp only [bind, Except.bind, hok]
  by_cases he : e = 24
  case pos =>
    rw [if_pos he]
    exact .inl rfl
  case neg =>
    have hnat : (BitVec.ofNat 8 e).toNat = e := by
      rw [BitVec.toNat_ofNat]
      omega
    refine .inr ⟨BitVec.ofNat 8 e, by omega, ?_, ?_⟩
    case refine_1 =>
      rw [← ha.bits, hnat, hclear (by omega)]
      decide
    case refine_2 =>
      rw [if_neg he, bitOf_of_lt (by omega), hnat]
      rfl

end Allocate

section Set

theorem set_invalid (hv : intVector < 0x10 ∨ intVector > 0xFE) :
    s.ioapic.setIOAPICInterrupt apicVector intVector mode apicid = .ok (0xFF, s.ioapic) := by
  rw [setIOAPICInterrupt, if_pos hv]
  rfl

theorem set_undefined (hv : ¬(intVector < 0x10 ∨ intVector > 0xFE)) (hu : 32 ≤ apicVector.toNat) :
    s.ioapic.setIOAPICInterrupt apicVector intVector mode apicid = .error .fault := by
  rw [setIOAPICInterrupt, if_neg hv, bitOf, if_neg (Nat.not_lt.mpr hu)]
  rfl

-- Every entry seems to be in use once the first one is.
theorem set_valid (mode apicid : BitVec 8) (ha : Agrees s) (hv : ¬(intVector < 0x10 ∨ intVector > 0xFE))
    (hu : apicVector.toNat < 32) :
    s.ioapic.setIOAPICInterrupt apicVector intVector mode apicid =
      if 0 ∈ s.taken then .ok (0xFF, s.ioapic)
      else .ok (apicVector, s.ioapic.route apicVector.toNat (BitVec.twoPow 32 apicVector.toNat) intVector mode apicid) := by
  have hne : BitVec.twoPow 32 apicVector.toNat ≠ 0 := by
    intro h
    have hbit := congrArg (BitVec.getLsbD · apicVector.toNat) h
    simp [hu] at hbit
  have hone : (1 : BitVec 32) = BitVec.twoPow 32 0 := rfl
  have hzero : s.ioapic.intmap &&& BitVec.twoPow 32 0 ≠ 0 ↔ 0 ∈ s.taken := by
    rw [Ne, and_twoPow_eq_zero_iff, Bool.not_eq_false]
    exact ha.bits 0
  rw [setIOAPICInterrupt, if_neg hv, bitOf_of_lt hu]
  simp only [bind, Except.bind, if_pos hne, hone, hzero]
  split_ifs <;> rfl

end Set

section Runs

theorem owned_refused : Act.Owned s act 0xFF s.ioapic where
  taken   := fun h => absurd rfl h
  refused := fun _ => rfl
  full    := fun _ => rfl
  failed  := fun _ => rfl

theorem owned_taken {e : BitVec 8} (he : e.toNat < 24) (hf : e ∉ s.taken)
    (hw : ∀ e', act.Wants e' → e' = e) :
    Act.Owned s act e (s.ioapic.route e.toNat (BitVec.twoPow 32 e.toNat) vector mode apicid) where
  taken   := fun _ => ⟨he, hf, rfl⟩
  refused := by
    rintro ⟨e', hm, hw'⟩
    exact absurd (hw e' hw' ▸ hm) hf
  full    := fun hall => absurd (hall e he) hf
  failed  := fun h => absurd h (ne_ff (by omega))

theorem right_iff (ha : Agrees s) : act.Right s ↔ act.Fits s := by
  cases act
  case allocate vector mode apicid =>
    refine iff_of_true ?_ trivial
    by_cases hv : vector < 0x10 ∨ vector > 0xFE
    case pos => exact ⟨_, allocate_invalid hv, owned_refused⟩
    case neg =>
      rcases ha.allocate_valid hv with hok | ⟨e, he, hf, hok⟩
      case inl => exact ⟨_, hok, owned_refused⟩
      case inr => exact ⟨_, hok, owned_taken he hf fun _ hw => hw.elim⟩
  case set apicVector intVector mode apicid =>
    rw [Act.Fits]
    by_cases hv : intVector < 0x10 ∨ intVector > 0xFE
    case pos => exact iff_of_true ⟨_, set_invalid hv, owned_refused⟩ (or_assoc.mp (.inl hv))
    case neg =>
      rw [← or_assoc, or_iff_right hv]
      by_cases hu : apicVector.toNat < 32
      case neg =>
        refine iff_of_false ?_ ?_
        case refine_1 =>
          rintro ⟨r, hok, _⟩
          rw [Act.call, set_undefined hv (Nat.not_lt.mp hu)] at hok
          cases hok
        case refine_2 =>
          rintro (⟨hlt, _⟩ | ⟨hlt, _⟩) <;> omega
      case pos =>
        have hcall := ha.set_valid mode apicid hv hu
        by_cases h0 : 0 ∈ s.taken
        case pos =>
          rw [if_pos h0] at hcall
          exact iff_of_true ⟨_, hcall, owned_refused⟩ (.inl ⟨hu, h0⟩)
        case neg =>
          rw [if_neg h0] at hcall
          constructor
          case mp =>
            rintro ⟨r, hok, ho⟩
            rw [Act.call, hcall] at hok
            cases hok
            obtain ⟨he, hf, _⟩ := ho.taken (ne_ff hu)
            exact .inr ⟨he, hf⟩
          case mpr =>
            rintro (⟨_, hm⟩ | ⟨he, hf⟩)
            case inl => exact absurd hm h0
            case inr => exact ⟨_, hcall, owned_taken he hf fun _ hw => hw.symm⟩

theorem step (ha : Agrees s) (hf : act.Fits s) (hs : Act.Step s act s') : Agrees s' := by
  obtain ⟨r, hok, rfl⟩ := hs
  obtain ⟨r', hok', ho⟩ := ha.right_iff.mpr hf
  rw [hok] at hok'
  cases hok'
  by_cases hr : r.1 = 0xFF
  case pos =>
    rw [if_pos hr, ho.failed hr]
    exact ha
  case neg =>
    obtain ⟨he, _, hb⟩ := ho.taken hr
    rw [if_neg hr]
    exact ha.take he hb

end Runs

end Agrees

-- After any calls that fit, the calls that take entries no call has taken before are those that fit.
theorem entries_owned_iff {s : Logged} (run : Steps Act.Step (fun s act => act.Fits s) Logged.start s)
    (act : Act) : act.Right s ↔ act.Fits s := by
  have ha : Agrees s := run.invariant Agrees.start fun ha hf hs => ha.step hf hs
  exact ha.right_iff

-- The timer's entry is routed.
def timerAct : Act := .set 2 0x20 0 0

def timerLogged : Logged where
  ioapic := Ioapic.start.route 2 4 0x20 0 0
  taken  := [2]

theorem timer_step : Act.Step Logged.start timerAct timerLogged :=
  ⟨_, rfl, rfl⟩

theorem timer_fits : timerAct.Fits Logged.start := by
  refine .inr (.inr (.inr ⟨by decide, ?_⟩))
  exact List.not_mem_nil

theorem entries_owned_next : (Act.allocate 0x21 0 0).Right timerLogged :=
  (entries_owned_iff (.step (.refl _) timer_fits timer_step) _).mpr trivial

-- It can be routed a second time.
theorem timer_routed_twice : ¬∀ s, Steps Act.Step (fun _ _ => True) Logged.start s → ∀ act : Act, act.Right s := by
  intro h
  obtain ⟨r, hok, ho⟩ := h timerLogged (.step (.refl _) trivial timer_step) timerAct
  have hcall : timerAct.call timerLogged.ioapic = .ok (2, timerLogged.ioapic.route 2 4 0x20 0 0) := rfl
  rw [hcall] at hok
  cases hok
  have hff := ho.refused ⟨2, by decide, rfl⟩
  exact absurd hff (by decide)

end RoverOS.Ioapic
