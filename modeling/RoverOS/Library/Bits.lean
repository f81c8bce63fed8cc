import Mathlib

-- Fields of a machine word that are cut out with a mask and moved with shifts.

namespace RoverOS

variable {w : Nat}

-- The bits of a constant are settled one by one, and the ones that it does not have are not set.
theorem getLsbD_mask {mask : BitVec w} {p : Nat → Bool} (h : ∀ i < w, mask.getLsbD i = p i)
    (hp : ∀ i ≥ w, p i = false) (i : Nat) : mask.getLsbD i = p i := by
  by_cases hi : i < w
  case pos => exact h i hi
  case neg => rw [BitVec.getLsbD_of_ge _ _ (Nat.not_lt.mp hi), hp i (Nat.not_lt.mp hi)]

theorem getLsbD_lowMask (w n i : Nat) :
    (BitVec.ofNat w (2 ^ n - 1)).getLsbD i = (decide (i < w) && decide (i < n)) := by
  rw [BitVec.getLsbD_ofNat, Nat.testBit_two_pow_sub_one]

-- The `n` bits of `x` from `s` on, moved up to `k`.
theorem getLsbD_place (x : BitVec w) (s n k i : Nat) (h : k + n ≤ w) :
    (((x >>> s) &&& BitVec.ofNat w (2 ^ n - 1)) <<< k).getLsbD i =
      (decide (k ≤ i) && decide (i < k + n) && x.getLsbD (s + (i - k))) := by
  rw [BitVec.getLsbD_shiftLeft, BitVec.getLsbD_and, getLsbD_lowMask, BitVec.getLsbD_ushiftRight]
  by_cases hk : k ≤ i
  case neg => simp [hk, Nat.lt_of_not_le hk]
  case pos =>
    by_cases hn : i < k + n
    case pos =>
      have hi : i < w := by omega
      have hd : i - k < n := by omega
      have hw : i - k < w := by omega
      simp [hk, hn, hi, hd, hw, Nat.not_lt.mpr hk]
    case neg =>
      have hd : ¬i - k < n := by omega
      simp [hn, hd]

theorem and_eq_zero_iff {x mask : BitVec w} : x &&& mask = 0 ↔ ∀ i, mask.getLsbD i = true → x.getLsbD i = false := by
  constructor
  case mp =>
    intro h i hm
    have hb := congrArg (BitVec.getLsbD · i) h
    simpa only [BitVec.getLsbD_and, hm, Bool.and_true, BitVec.ofNat_eq_ofNat, BitVec.getLsbD_zero] using hb
  case mpr =>
    intro h
    refine BitVec.eq_of_getLsbD_eq fun i _ => ?_
    rw [BitVec.getLsbD_and, BitVec.ofNat_eq_ofNat, BitVec.getLsbD_zero]
    cases hm : mask.getLsbD i
    case false => exact Bool.and_false _
    case true  => rw [h i hm, Bool.false_and]

-- Nothing is lost when no bit is where the mask takes bits away.
theorem and_not_eq_self_iff {x mask : BitVec w} : x &&& ~~~mask = x ↔ x &&& mask = 0 := by
  rw [and_eq_zero_iff]
  constructor
  case mp =>
    intro h i hm
    rw [← h, BitVec.getLsbD_and, BitVec.getLsbD_not, hm, Bool.not_true, Bool.and_false, Bool.and_false]
  case mpr =>
    intro h
    refine BitVec.eq_of_getLsbD_eq fun i hi => ?_
    rw [BitVec.getLsbD_and, BitVec.getLsbD_not, decide_eq_true hi, Bool.true_and]
    cases hm : mask.getLsbD i
    case false => exact Bool.and_true _
    case true  => rw [h i hm, Bool.false_and]

-- A field of a word is equal to a value when all of its bits are.
theorem extractLsb'_eq_iff {x : BitVec w} {lo len : Nat} {v : BitVec len} :
    x.extractLsb' lo len = v ↔ ∀ i < len, x.getLsbD (lo + i) = v.getLsbD i := by
  constructor
  case mp =>
    rintro rfl i hi
    simp [hi]
  case mpr =>
    intro h
    refine BitVec.eq_of_getLsbD_eq fun i hi => ?_
    simpa [hi] using h i hi

end RoverOS
