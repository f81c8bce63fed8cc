import RoverOS.Kprint.Basic
import RoverOS.Library.Numeral

-- Hexadecimal numbers are printed as they are.

open Numeral (Denotes)

namespace RoverOS.Kprint

def hexDigits (caps : Bool) : List Byte :=
  if caps then
    ['0', '1', '2', '3', '4', '5', '6', '7', '8', '9', 'A', 'B', 'C', 'D', 'E', 'F'].map char
  else
    ['0', '1', '2', '3', '4', '5', '6', '7', '8', '9', 'a', 'b', 'c', 'd', 'e', 'f'].map char

-- The mask in front of the `n` nibbles that are left.
def hexMask (n : Nat) : Word := (0xF000000000000000 : Word) >>> (64 - 4 * n)

section Nibble

variable {caps : Bool} {num : Word} {n k : Nat}

theorem length_hexDigits : (hexDigits caps).length = 16 := by
  cases caps <;> rfl

theorem nibbleChar_digit (caps : Bool) (hk : k < 16) : nibbleChar caps (BitVec.ofNat 8 k) ∈ hexDigits caps ∧
    (hexDigits caps).idxOf (nibbleChar caps (BitVec.ofNat 8 k)) = k := by
  have h : ∀ caps, ∀ k < 16, nibbleChar caps (BitVec.ofNat 8 k) ∈ hexDigits caps ∧
      (hexDigits caps).idxOf (nibbleChar caps (BitVec.ofNat 8 k)) = k := by decide
  exact h caps k hk

theorem hexMask_shift (hn : n < 16) : hexMask (n + 1) >>> 4 = hexMask n := by
  rw [hexMask, hexMask, ← BitVec.shiftRight_add]
  congr 1
  omega

-- What the mask leaves of the number is shifted down to its nibble.
theorem nibble_eq (hn : n < 16) :
    ((num &&& hexMask (n + 1)) >>> (4 * n)).setWidth 8 = BitVec.ofNat 8 (num.toNat / 16 ^ n % 16) := by
  have hm : (hexMask (n + 1)).toNat >>> (4 * n) = 2 ^ 4 - 1 := by
    rw [hexMask, BitVec.toNat_ushiftRight, ← Nat.shiftRight_add, (by omega : 64 - 4 * (n + 1) + 4 * n = 60)]
    rfl
  have hp : 2 ^ (4 * n) = 16 ^ n := Nat.pow_mul 2 4 n
  apply BitVec.eq_of_toNat_eq
  rw [BitVec.toNat_setWidth, BitVec.toNat_ushiftRight, BitVec.toNat_and, Nat.shiftRight_and_distrib, hm,
    Nat.and_two_pow_sub_one_eq_mod, Nat.shiftRight_eq_div_pow, hp, BitVec.toNat_ofNat]

end Nibble

section Loop

variable {num : Word} {bits n i v : Nat} {caps : Bool} {s : Console} {o l : List Byte}

-- The next digit of what is left of the number.
theorem low_digit (m : Nat) : 16 ^ n * (m / 16 ^ n % 16) + m % 16 ^ n = m % 16 ^ (n + 1) := by
  rw [Nat.pow_succ, Nat.mod_mul]
  omega

-- Once a digit is out, every further nibble is one more digit.
theorem hexLoop_digits (hi : i + 4 * n = bits) (hn : n ≤ 16) (ho : s.out = o ++ l)
    (hl : Denotes (hexDigits caps) l v) (hv : v ≠ 0) :
    ∃ l', (hexLoop num bits caps n i (hexMask n) false s).out = o ++ l' ∧
      Denotes (hexDigits caps) l' (16 ^ n * v + num.toNat % 16 ^ n) := by
  induction n generalizing i v s l
  case zero =>
    refine ⟨l, ho, ?_⟩
    simpa [Nat.mod_one] using hl
  case succ n hind =>
    have hk : num.toNat / 16 ^ n % 16 < 16 := Nat.mod_lt _ (by decide)
    have hb : bits - (i + 4) = 4 * n := by omega
    obtain ⟨hd, hidx⟩ := nibbleChar_digit caps hk
    have hl' := hl.concat hv hd
    rw [length_hexDigits, hidx] at hl'
    simp only [hexLoop, Bool.false_eq_true, false_and, if_false, hb, nibble_eq (by omega : n < 16),
      hexMask_shift (by omega : n < 16)]
    obtain ⟨l₂, ho₂, hl₂⟩ := hind (s := kprintChar (nibbleChar caps (BitVec.ofNat 8 (num.toNat / 16 ^ n % 16))) s)
      (by omega : i + 4 + 4 * n = bits) (by omega) (by rw [kprintChar, ho, List.append_assoc]) hl' (by omega)
    refine ⟨l₂, ho₂, ?_⟩
    have hv₂ : 16 ^ n * (16 * v + num.toNat / 16 ^ n % 16) + num.toNat % 16 ^ n =
        16 ^ (n + 1) * v + num.toNat % 16 ^ (n + 1) := by
      rw [← low_digit num.toNat, Nat.pow_succ]
      ring
    rw [← hv₂]
    exact hl₂

-- Until then the nibbles are zero, and so is the number above the ones that are left.
theorem hexLoop_leading (hi : i + 4 * n = bits) (hn : n ≤ 16) :
    ∃ l', (hexLoop num bits caps n i (hexMask n) true s).out = s.out ++ l' ∧
      Denotes (hexDigits caps) l' (num.toNat % 16 ^ n) := by
  induction n generalizing i
  case zero =>
    obtain ⟨hd, hidx⟩ := nibbleChar_digit caps (by decide : 0 < 16)
    have hz : nibbleChar caps (BitVec.ofNat 8 0) = char '0' := by cases caps <;> rfl
    rw [hz] at hd hidx
    refine ⟨[char '0'], rfl, ?_⟩
    rw [Nat.pow_zero, Nat.mod_one, ← hidx]
    exact Numeral.denotes_singleton hd
  case succ n hind =>
    have hk : num.toNat / 16 ^ n % 16 < 16 := Nat.mod_lt _ (by decide)
    have hb : bits - (i + 4) = 4 * n := by omega
    simp only [hexLoop, true_and, hb, nibble_eq (by omega : n < 16), hexMask_shift (by omega : n < 16)]
    generalize hd : num.toNat / 16 ^ n % 16 = d at hk
    have hlow := low_digit (n := n) num.toNat
    rw [hd] at hlow
    by_cases hz : d = 0
    case pos =>
      have hzero : BitVec.ofNat 8 d = 0 := by rw [hz]; rfl
      rw [if_pos hzero, ← hlow, hz, Nat.mul_zero, Nat.zero_add]
      exact hind (by omega) (by omega)
    case neg =>
      have hne : BitVec.ofNat 8 d ≠ 0 := by
        intro he
        have h : d % 2 ^ 8 = 0 := congrArg BitVec.toNat he
        omega
      obtain ⟨hmem, hidx⟩ := nibbleChar_digit caps hk
      have hone := Numeral.denotes_singleton hmem
      rw [hidx] at hone
      rw [if_neg hne, ← hlow]
      exact hexLoop_digits (by omega) (by omega) rfl hone hz

end Loop

-- The digits of the lowest `bytes` bytes of the number are printed, and nothing else.
theorem writeHex_denotes {bytes : Nat} (num : Word) (caps : Bool) (s : Console) (hl : 1 ≤ bytes)
    (hu : bytes ≤ 8) : ∃ l, (writeHex num bytes caps s).out = s.out ++ l ∧
      Denotes (hexDigits caps) l (num.toNat % 2 ^ (8 * bytes)) := by
  have hb : bytes * 8 / 4 = 2 * bytes := by omega
  have hm : 64 - bytes * 8 = 64 - 4 * (2 * bytes) := by omega
  have hp : 2 ^ (8 * bytes) = 16 ^ (2 * bytes) := by
    rw [(by omega : 8 * bytes = 4 * (2 * bytes)), Nat.pow_mul]
  rw [writeHex, hb, hm, hp]
  exact hexLoop_leading (by omega) (by omega)

example : (writeHex 0xBEEF 4 false boot).out = ['b', 'e', 'e', 'f'].map char := by decide

theorem writeHex_denotes_ffff : ∃ l, (writeHex 0xFFFF 2 true boot).out = boot.out ++ l ∧
    Denotes (hexDigits true) l 0xFFFF :=
  writeHex_denotes 0xFFFF true boot (by decide) (by decide)

end RoverOS.Kprint
