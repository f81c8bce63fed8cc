import RoverOS.Pmm.Theorems.Full

-- Bitmaps whose bits are marked one after the other: with bit 31 all bits behind it are set, so that a
-- word is full after 32 of them.

namespace RoverOS.Pmm

variable {n t i k b : Nat}

-- A word after its first `m` marks.
def fillWord (m : Nat) : Word :=
  if 32 ≤ m then BitVec.allOnes 64 else BitVec.ofNat 64 (2 ^ m - 1)

-- A bitmap of `n` words after `t` marks.
def fillWords (n t : Nat) : List Word :=
  (List.range n).map fun i => fillWord (t - 32 * i)

section Word

theorem fillWord_full (h : 32 ≤ k) : fillWord k = 0xFFFFFFFFFFFFFFFF := by
  rw [fillWord, if_pos h]
  rfl

theorem fillWord_zero : fillWord 0 = 0#64 :=
  rfl

theorem fillWord_succ (h : k < 32) : fillWord k ||| intBit k = fillWord (k + 1) := by
  revert k
  decide

theorem fillWord_ne_full (h : k < 32) : fillWord k ≠ 0xFFFFFFFFFFFFFFFF := by
  revert k
  decide

-- The bits that are tested as set.
theorem fillWord_and_intBit : fillWord k &&& intBit b ≠ 0#64 ↔ b % 32 < k := by
  have hb : b % 32 < 32 := Nat.mod_lt b (by decide)
  rw [← intBit_mod]
  generalize b % 32 = j at hb
  by_cases hk : k < 32
  case pos =>
    have h : ∀ k < 32, ∀ j < 32, fillWord k &&& intBit j ≠ 0#64 ↔ j < k := by decide +kernel
    exact h k hk j hb
  case neg =>
    have h : ∀ j < 32, (0xFFFFFFFFFFFFFFFF : Word) &&& intBit j ≠ 0#64 := by decide
    rw [fillWord_full (by omega)]
    exact iff_of_true (h j hb) (by omega)

end Word

section Words

theorem length_fillWords : (fillWords n t).length = n := by
  rw [fillWords, List.length_map, List.length_range]

theorem getElem?_fillWords : (fillWords n t)[i]? = if i < n then some (fillWord (t - 32 * i)) else none := by
  rw [fillWords, List.getElem?_map]
  by_cases hi : i < n
  case pos => rw [List.getElem?_range hi, if_pos hi, Option.map_some]
  case neg =>
    rw [if_neg hi, List.getElem?_eq_none (by rw [List.length_range]; omega), Option.map_none]

theorem fillWords_zero : fillWords n 0 = List.replicate n 0#64 := by
  apply List.ext_getElem?
  intro i
  rw [getElem?_fillWords, List.getElem?_replicate, Nat.zero_sub, fillWord_zero]

-- The next mark is in word `t / 32`.
theorem fillWords_succ :
    (fillWords n t).modify (t / 32) (· ||| intBit (t % 32)) = fillWords n (t + 1) := by
  apply List.ext_getElem?
  intro i
  rw [List.getElem?_modify, getElem?_fillWords, getElem?_fillWords]
  by_cases hi : i < n
  case neg => simp [hi]
  case pos =>
    rw [if_pos hi, if_pos hi, Option.map_eq_map, Option.map_some]
    rcases Nat.lt_trichotomy i (t / 32) with hlt | rfl | hlt
    · rw [if_neg (by omega), fillWord_full (by omega), fillWord_full (by omega)]
    · have h₀ : t - 32 * (t / 32) = t % 32 := by omega
      have h₁ : t + 1 - 32 * (t / 32) = t % 32 + 1 := by omega
      rw [if_pos rfl, h₀, h₁, ← fillWord_succ (Nat.mod_lt t (by decide))]
    · have h₀ : t - 32 * i = 0 := by omega
      have h₁ : t + 1 - 32 * i = 0 := by omega
      rw [if_neg (by omega), h₀, h₁]

end Words

end RoverOS.Pmm
