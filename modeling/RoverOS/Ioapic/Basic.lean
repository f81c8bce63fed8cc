import RoverOS.Basic

-- `ioapic.c`: the redirection entries of the IOAPIC, and the interrupts that are routed through them.

namespace RoverOS

-- `ioapic[0]`, and what has been written to its registers, the last write first.
structure Ioapic where
  intmap : BitVec 32
  writes : List (Nat × BitVec 32)

namespace Ioapic

-- As `initIOAPIC` sets it up.
def start : Ioapic where
  intmap := 0
  writes := []

def IOAPIC_REDTBL_ENTRY (i : Nat) : Nat := 0x10 + 2 * i

def IOAPIC_REDTBL_APICID (id : BitVec 8) : BitVec 64 := id.setWidth 64 <<< 56
def IOAPIC_REDTBL_DELIVER_MODE (v : BitVec 8) : BitVec 64 := v.setWidth 64 <<< 10
def IOAPIC_REDTBL_VECTOR (v : BitVec 8) : BitVec 64 := v.setWidth 64 <<< 0

-- `regsel` chooses the register that `win` writes.
def writeIOAPIC (val : BitVec 64) (reg : Nat) (qword : Bool) (ioapic : Ioapic) : Ioapic :=
  let low : Ioapic := { ioapic with writes := (reg, val.setWidth 32) :: ioapic.writes }
  if qword then { low with writes := (reg + 1, (val >>> 32).setWidth 32) :: low.writes } else low

-- `1<<entry`. A shift by the width of an `int` or more is undefined.
def bitOf (entry : Nat) : Except Exit (BitVec 32) :=
  if entry < 32 then .ok (1 <<< entry) else .error .fault

-- What both functions do with the entry they have chosen.
def route (entry : Nat) (bit : BitVec 32) (vector mode apicid : BitVec 8) (ioapic : Ioapic) : Ioapic :=
  let reg := IOAPIC_REDTBL_ENTRY entry
  let value := IOAPIC_REDTBL_APICID apicid ||| IOAPIC_REDTBL_DELIVER_MODE mode ||| IOAPIC_REDTBL_VECTOR vector
  writeIOAPIC value reg true { ioapic with intmap := ioapic.intmap ||| bit }

-- `for(; entry <= 24; ++entry)`, with `n` entries to go.
def freeEntry (intmap : BitVec 32) : Nat → Nat → Except Exit Nat
  | 0,     entry => .ok entry
  | n + 1, entry => do
    let bit ← bitOf entry
    if intmap &&& bit = 0 then return entry
    freeEntry intmap n (entry + 1)

def allocateIOAPICInterrupt (vector mode apicid : BitVec 8) (ioapic : Ioapic) :
    Except Exit (BitVec 8 × Ioapic) := do
  if vector < 0x10 ∨ vector > 0xFE then return (0xFF, ioapic)
  let entry ← freeEntry ioapic.intmap 25 0
  if entry = 24 then return (0xFF, ioapic)
  let bit ← bitOf entry
  return (BitVec.ofNat 8 entry, ioapic.route entry bit vector mode apicid)

-- `!=` binds stronger than `&`, so that the comparison is what the bitmap is masked with.
def setIOAPICInterrupt (apicVector intVector mode apicid : BitVec 8) (ioapic : Ioapic) :
    Except Exit (BitVec 8 × Ioapic) := do
  if intVector < 0x10 ∨ intVector > 0xFE then return (0xFF, ioapic)
  let bit ← bitOf apicVector.toNat
  if ioapic.intmap &&& (if bit ≠ 0 then 1 else 0) ≠ 0 then return (0xFF, ioapic)
  return (apicVector, ioapic.route apicVector.toNat bit intVector mode apicid)

section Bits

variable {intmap : BitVec 32} {entry i n : Nat}

theorem bitOf_of_lt (h : entry < 32) : bitOf entry = .ok (BitVec.twoPow 32 entry) := by
  rw [bitOf, if_pos h, BitVec.twoPow_eq]
  rfl

theorem and_twoPow_eq_zero_iff : intmap &&& BitVec.twoPow 32 entry = 0 ↔ intmap.getLsbD entry = false := by
  rw [BitVec.and_twoPow]
  by_cases hb : intmap.getLsbD entry
  case neg => simp [hb]
  case pos =>
    have hlt : entry < 32 := BitVec.lt_of_getLsbD hb
    have hne : BitVec.twoPow 32 entry ≠ 0 := by
      intro h
      have := congrArg (BitVec.getLsbD · entry) h
      simp [hlt] at this
    rw [if_pos hb]
    exact iff_of_false hne (by simp [hb])

theorem getLsbD_or_twoPow (h : entry < 32) :
    (intmap ||| BitVec.twoPow 32 entry).getLsbD i = (intmap.getLsbD i || decide (i = entry)) := by
  rw [BitVec.getLsbD_or, BitVec.getLsbD_twoPow]
  simp only [h, decide_true, Bool.true_and, eq_comm]

@[simp]
theorem route_intmap {ioapic : Ioapic} {bit : BitVec 32} {vector mode apicid : BitVec 8} :
    (ioapic.route entry bit vector mode apicid).intmap = ioapic.intmap ||| bit := rfl

-- The scan stops at the first entry whose bit is clear.
theorem freeEntry_spec (intmap : BitVec 32) (hn : entry + n ≤ 32) :
    ∃ e, freeEntry intmap n entry = .ok e ∧ entry ≤ e ∧ e ≤ entry + n ∧
    (∀ i, entry ≤ i → i < e → intmap.getLsbD i = true) ∧
    (e < entry + n → intmap.getLsbD e = false) := by
  induction n generalizing entry
  case zero => exact ⟨entry, rfl, Nat.le_refl _, Nat.le_refl _, fun i _ _ => by omega, fun _ => by omega⟩
  case succ n hind =>
    rw [freeEntry, bitOf_of_lt (by omega)]
    simp only [bind, Except.bind]
    by_cases hz : intmap &&& BitVec.twoPow 32 entry = 0
    case pos =>
      rw [if_pos hz]
      exact ⟨entry, rfl, Nat.le_refl _, by omega, fun i _ _ => by omega, fun _ => and_twoPow_eq_zero_iff.mp hz⟩
    case neg =>
      rw [if_neg hz]
      rw [and_twoPow_eq_zero_iff, Bool.not_eq_false] at hz
      obtain ⟨e, hok, hle, hub, hset, hclear⟩ := hind (by omega : entry + 1 + n ≤ 32)
      refine ⟨e, hok, by omega, by omega, ?_, fun hlt => hclear (by omega)⟩
      intro i hi hlt
      rcases Nat.eq_or_lt_of_le hi with rfl | hi
      case inl => exact hz
      case inr => exact hset i hi hlt

end Bits

end Ioapic

end RoverOS
