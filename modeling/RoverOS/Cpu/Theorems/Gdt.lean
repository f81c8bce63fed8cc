import RoverOS.Cpu.Gdt
import RoverOS.Library.Bits

-- What the processor reads out of a descriptor, and for which addresses it is what was written.

open Function (update)

namespace RoverOS.Cpu

-- A descriptor of the task state segment as the processor decodes it. `available`, the two bits behind
-- it and the granularity are one field here, as is the half of the upper quadword behind the address.
structure TSSDescriptor where
  limit    : BitVec 20
  base     : BitVec 64
  type     : BitVec 4
  system   : BitVec 1
  dpl      : BitVec 2
  present  : BitVec 1
  flags    : BitVec 4
  reserved : BitVec 32
  deriving DecidableEq, Repr

namespace TSSDescriptor

def decode (lower upper : Word) : TSSDescriptor where
  limit    := lower.extractLsb' 48 4 ++ lower.extractLsb' 0 16
  base     := upper.extractLsb' 0 32 ++ lower.extractLsb' 56 8 ++ lower.extractLsb' 16 24
  type     := lower.extractLsb' 40 4
  system   := lower.extractLsb' 44 1
  dpl      := lower.extractLsb' 45 2
  present  := lower.extractLsb' 47 1
  flags    := lower.extractLsb' 52 4
  reserved := upper.extractLsb' 32 32

-- The descriptor is the one of a task state segment at `base`, and no field has bits of another one.
structure Describes (d : TSSDescriptor) (base : Word) (dpl : BitVec 2) : Prop where
  base     : d.base = base
  dpl      : d.dpl = dpl
  type     : d.type = 0x9
  present  : d.present = 1
  limit    : sizeofTSS ≤ d.limit.toNat + 1
  system   : d.system = 0
  flags    : d.flags = 0
  reserved : d.reserved = 0

end TSSDescriptor

open TSSDescriptor (decode)

-- The descriptor that `writeGDTTSS` leaves in the table.
def written (entries : Nat → Word) (entryn : BitVec 8) (base : Word) (dpl : BitVec 2) : TSSDescriptor :=
  let entries := writeGDTTSS entries entryn base (dpl.setWidth 64)
  decode (entries entryn.toNat) (entries (entryn.toNat + 1))

section Decode

variable {entries : Nat → Word} {entryn : BitVec 8} {base : Word} {dpl : BitVec 2} {i : Nat}

theorem written_eq : written entries entryn base dpl = decode (lowerTSS base (dpl.setWidth 64)) (upperTSS base) := by
  simp [written, writeGDTTSS]

theorem getLsbD_type : ∀ i, GDT_TYPE_TSS.getLsbD i = (decide (i = 40) || decide (i = 43)) :=
  getLsbD_mask (by decide) (by grind)

theorem getLsbD_present : ∀ i, GDT_PRESENT.getLsbD i = decide (i = 47) :=
  getLsbD_mask (by decide) (by grind)

theorem getLsbD_sizeofTSS : ∀ i, (BitVec.ofNat 64 sizeofTSS).getLsbD i =
    (decide (i = 2) || decide (i = 4) || decide (i = 5) || decide (i = 6)) :=
  getLsbD_mask (by decide) (by grind)

theorem getLsbD_dpl : (GDT_DPL (dpl.setWidth 64)).getLsbD i = (decide (45 ≤ i) && dpl.getLsbD (i - 45)) := by
  rw [GDT_DPL, BitVec.getLsbD_shiftLeft, BitVec.getLsbD_setWidth]
  by_cases hi : i < 47
  case pos =>
    have h64 : i < 64 := by omega
    have hd : i - 45 < 64 := by omega
    simp [h64, hd, ← decide_not]
  case neg => rw [BitVec.getLsbD_of_ge dpl _ (by omega), Bool.and_false, Bool.and_false, Bool.and_false]

theorem getLsbD_base0 :
    (GDT_TSS_BASE0 base).getLsbD i = (decide (16 ≤ i) && decide (i < 36) && base.getLsbD (i - 16)) := by
  have h := getLsbD_place base 0 20 16 i (by decide)
  simpa [GDT_TSS_BASE0] using h

theorem getLsbD_base1 :
    (GDT_TSS_BASE1 base).getLsbD i = (decide (48 ≤ i) && decide (i < 56) && base.getLsbD (24 + (i - 48))) :=
  getLsbD_place base 24 8 48 i (by decide)

theorem getLsbD_upper : (upperTSS base).getLsbD i = (decide (i < 12) && base.getLsbD (32 + i)) := by
  have h := getLsbD_place base 32 12 0 i (by decide)
  simpa [upperTSS, GDT_TSS_BASE2] using h

theorem getLsbD_lower : (lowerTSS base (dpl.setWidth 64)).getLsbD i =
    ((decide (i = 40) || decide (i = 43)) || decide (i = 47) || (decide (45 ≤ i) && dpl.getLsbD (i - 45)) ||
      (decide (i = 2) || decide (i = 4) || decide (i = 5) || decide (i = 6)) ||
      (decide (16 ≤ i) && decide (i < 36) && base.getLsbD (i - 16)) ||
      (decide (48 ≤ i) && decide (i < 56) && base.getLsbD (24 + (i - 48)))) := by
  simp only [lowerTSS, BitVec.getLsbD_or, getLsbD_type, getLsbD_present, getLsbD_dpl, getLsbD_sizeofTSS,
    getLsbD_base0, getLsbD_base1]

-- The fields that no bit of the address falls into are what they should be for every address.
theorem type_written : (written entries entryn base dpl).type = 0x9 := by
  rw [written_eq]
  refine extractLsb'_eq_iff.mpr fun i hi => ?_
  rw [getLsbD_lower]
  interval_cases i <;> simp

theorem present_written : (written entries entryn base dpl).present = 1 := by
  rw [written_eq]
  refine extractLsb'_eq_iff.mpr fun i hi => ?_
  rw [getLsbD_lower]
  interval_cases i
  simp

theorem system_written : (written entries entryn base dpl).system = 0 := by
  rw [written_eq]
  refine extractLsb'_eq_iff.mpr fun i hi => ?_
  rw [getLsbD_lower]
  interval_cases i
  simp

theorem dpl_written : (written entries entryn base dpl).dpl = dpl := by
  rw [written_eq]
  refine extractLsb'_eq_iff.mpr fun i hi => ?_
  rw [getLsbD_lower]
  interval_cases i <;> simp

theorem reserved_written : (written entries entryn base dpl).reserved = 0 := by
  rw [written_eq]
  refine extractLsb'_eq_iff.mpr fun i hi => ?_
  have hn : ¬32 + i < 12 := by omega
  simp [getLsbD_upper, hn]

-- The lower half of the limit is the size, and the upper half only makes it larger.
theorem limit_written : sizeofTSS ≤ (written entries entryn base dpl).limit.toNat + 1 := by
  rw [written_eq]
  have hl : (lowerTSS base (dpl.setWidth 64)).extractLsb' 0 16 = BitVec.ofNat 16 sizeofTSS := by
    refine extractLsb'_eq_iff.mpr fun i hi => ?_
    rw [getLsbD_lower]
    interval_cases i <;> simp [sizeofTSS]
  calc sizeofTSS
    _ = ((lowerTSS base (dpl.setWidth 64)).extractLsb' 0 16).toNat := by rw [hl]; rfl
    _ ≤ (decode (lowerTSS base (dpl.setWidth 64)) (upperTSS base)).limit.toNat := by
      rw [decode, BitVec.toNat_append]
      exact Nat.right_le_or
    _ ≤ _ := Nat.le_succ _

theorem getLsbD_lower_low (hi : i < 24) :
    (lowerTSS base (dpl.setWidth 64)).getLsbD (16 + i) = (decide (i < 20) && base.getLsbD i) := by
  rw [getLsbD_lower]
  interval_cases i <;> simp

theorem getLsbD_lower_high (hi : i < 8) : (lowerTSS base (dpl.setWidth 64)).getLsbD (56 + i) = false := by
  rw [getLsbD_lower]
  interval_cases i <;> simp

-- The bits of an address that no field of the descriptor gets, or the wrong one.
def lostBits : Word := 0xFFFFF000FFF00000

theorem getLsbD_lostBits : ∀ i, lostBits.getLsbD i =
    ((decide (20 ≤ i) && decide (i < 32)) || (decide (44 ≤ i) && decide (i < 64))) :=
  getLsbD_mask (by decide) (by grind)

theorem base_written : (written entries entryn base dpl).base = base &&& ~~~lostBits := by
  rw [written_eq]
  refine BitVec.eq_of_getLsbD_eq fun i hi => ?_
  simp only [decode, BitVec.getLsbD_append, BitVec.getLsbD_extractLsb', getLsbD_upper, BitVec.getLsbD_and,
    BitVec.getLsbD_not, getLsbD_lostBits]
  rcases Nat.lt_or_ge i 24 with hl | hl
  case inl =>
    have h44 : ¬44 ≤ i := by omega
    have h32 : i < 32 := by omega
    simp [hi, hl, h44, h32, getLsbD_lower_low hl, Bool.and_comm, ← decide_not]
  case inr =>
    have hl' : ¬i < 24 := Nat.not_lt.mpr hl
    have h20 : 20 ≤ i := by omega
    rcases Nat.lt_or_ge i 32 with hm | hm
    case inl =>
      have h8 : i - 24 < 8 := by omega
      simp [hl', h8, h20, hm, getLsbD_lower_high h8]
    case inr =>
      have h8 : ¬i - 24 < 8 := by omega
      have hd : 32 + (i - 24 - 8) = i := by omega
      have h12 : i - 24 - 8 < 12 ↔ ¬44 ≤ i := by omega
      have h32 : i - 24 - 8 < 32 := by omega
      simp [hl', h8, hd, hi, h12, h32, Nat.not_lt.mpr hm, Bool.and_comm, ← decide_not]

theorem flags_written (h : base &&& lostBits = 0) : (written entries entryn base dpl).flags = 0 := by
  rw [written_eq]
  refine extractLsb'_eq_iff.mpr fun i hi => ?_
  have hb : base.getLsbD (24 + (52 + i - 48)) = false := by
    apply and_eq_zero_iff.mp h
    rw [getLsbD_lostBits]
    interval_cases i <;> rfl
  rw [getLsbD_lower, hb]
  interval_cases i <;> simp

-- Bits 20 to 31 of the address are masked out or put into the limit and the flags, and bits 44 to 63
-- are masked out.
theorem writeGDTTSS_describes_iff :
    (written entries entryn base dpl).Describes base dpl ↔ base &&& lostBits = 0 := by
  constructor
  case mp =>
    intro h
    exact and_not_eq_self_iff.mp (base_written.symm.trans h.base)
  case mpr =>
    intro h
    exact {
      base     := base_written.trans (and_not_eq_self_iff.mpr h)
      dpl      := dpl_written
      type     := type_written
      present  := present_written
      limit    := limit_written
      system   := system_written
      flags    := flags_written h
      reserved := reserved_written
    }

-- A segment that the kernel allocates in its own half of the address space.
theorem writeGDTTSS_lost : ¬(written (fun _ => 0) 5 0xFFFFFFFF80352C40 0).Describes 0xFFFFFFFF80352C40 0 := by
  intro h
  have hb : (written (fun _ => 0) 5 0xFFFFFFFF80352C40 0).base = 0x00000FFF00052C40 := by decide
  have hw := h.base.symm.trans hb
  exact absurd hw (by decide)

end Decode

end RoverOS.Cpu
