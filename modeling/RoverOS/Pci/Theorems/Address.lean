import RoverOS.Pci.Basic
import RoverOS.Library.Bits

-- What the hardware decodes from an address that the driver has put together.

namespace RoverOS.Pci

variable {top : Topology} {bus d : BitVec 8} {fn : BitVec 3} {reg : BitVec 32} {i : Nat}

-- The address of a device number that may be too large for its field.
def address (bus d : BitVec 8) (fn : BitVec 3) (reg : BitVec 32) : BitVec 32 :=
  configAddress (bus.setWidth 32) (d.setWidth 32) (fn.setWidth 32) reg

theorem getLsbD_enable : ∀ i, ((1 : BitVec 32) <<< 31).getLsbD i = decide (i = 31) :=
  getLsbD_mask (by decide) (by grind)

theorem getLsbD_regMask : ∀ i, (0xFC : BitVec 32).getLsbD i = (decide (2 ≤ i) && decide (i < 8)) :=
  getLsbD_mask (by decide) (by grind)

theorem getLsbD_address (hi : i < 32) : (address bus d fn reg).getLsbD i =
    (decide (i = 31) || (decide (16 ≤ i) && bus.getLsbD (i - 16)) || (decide (11 ≤ i) && d.getLsbD (i - 11)) ||
      (decide (8 ≤ i) && fn.getLsbD (i - 8)) || (reg.getLsbD i && (decide (2 ≤ i) && decide (i < 8)))) := by
  have hs : ∀ k, i - k < 32 := fun k => by omega
  rw [address, configAddress]
  simp only [BitVec.getLsbD_or, getLsbD_enable, BitVec.getLsbD_and, getLsbD_regMask]
  simp only [BitVec.getLsbD_shiftLeft, BitVec.getLsbD_setWidth, hi, hs, decide_true, Bool.true_and, ← decide_not,
    Nat.not_lt]

-- Bits of the device number that its field has no room for fall into the bus.
theorem busOf_address : busOf (address bus d fn reg) = bus ||| (d >>> 5) := by
  refine extractLsb'_eq_iff.mpr fun i hi => ?_
  rw [getLsbD_address (by omega)]
  interval_cases i <;> simp

theorem devOf_address : devOf (address bus d fn reg) = d.setWidth 5 := by
  refine extractLsb'_eq_iff.mpr fun i hi => ?_
  rw [getLsbD_address (by omega)]
  interval_cases i <;> simp

theorem fnOf_address : fnOf (address bus d fn reg) = fn := by
  refine extractLsb'_eq_iff.mpr fun i hi => ?_
  rw [getLsbD_address (by omega)]
  interval_cases i <;> simp

theorem regOf_address : regOf (address bus d fn reg) = (reg &&& 0xFC).setWidth 8 := by
  refine extractLsb'_eq_iff.mpr fun i hi => ?_
  rw [getLsbD_address (by omega)]
  interval_cases i <;> simp

end RoverOS.Pci
