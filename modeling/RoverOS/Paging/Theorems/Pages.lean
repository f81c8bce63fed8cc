import RoverOS.Paging.Theorems.Link

-- Bits 12 to 47 of an address select its page.

namespace RoverOS.Paging

variable {v w virt : Word} {j : Index}

theorem getLsbD_selectMask : ∀ i, selectMask.getLsbD i = decide (i < 9) :=
  getLsbD_mask (by decide) (by grind)

theorem getLsbD_entry (k i : Nat) :
    (((v >>> k) &&& selectMask).setWidth 9).getLsbD i = (decide (i < 9) && v.getLsbD (k + i)) := by
  simp only [BitVec.getLsbD_setWidth, BitVec.getLsbD_and, BitVec.getLsbD_ushiftRight,
    getLsbD_selectMask]
  cases decide (i < 9) <;> simp

theorem entry_eq_iff (k : Nat) :
    ((v >>> k) &&& selectMask).setWidth 9 = ((w >>> k) &&& selectMask).setWidth 9 ↔
      ∀ i < 9, v.getLsbD (k + i) = w.getLsbD (k + i) := by
  constructor
  case mp =>
    intro h i hi
    have h := congrArg (·.getLsbD i) h
    simpa only [getLsbD_entry, hi, decide_true, Bool.true_and] using h
  case mpr =>
    intro h
    apply BitVec.eq_of_getLsbD_eq
    intro i hi
    rw [getLsbD_entry, getLsbD_entry, h i hi]

theorem samePage_iff : SamePage v w ↔ ∀ i, 12 ≤ i → i < 48 → v.getLsbD i = w.getLsbD i := by
  simp only [SamePage, path, List.cons.injEq, pmlEntry, pdpeEntry, pdeEntry, pteEntry, entry_eq_iff]
  constructor
  case mp =>
    rintro ⟨⟨h₁, h₂, h₃, _⟩, h₄⟩ i hl hu
    rcases (by omega : i < 21 ∨ (21 ≤ i ∧ i < 30) ∨ (30 ≤ i ∧ i < 39) ∨ 39 ≤ i) with h | h | h | h
    · simpa [Nat.add_sub_cancel' hl] using h₄ (i - 12) (by omega)
    · simpa [Nat.add_sub_cancel' h.left] using h₃ (i - 21) (by omega)
    · simpa [Nat.add_sub_cancel' h.left] using h₂ (i - 30) (by omega)
    · simpa [Nat.add_sub_cancel' h] using h₁ (i - 39) (by omega)
  case mpr =>
    intro h
    exact ⟨⟨fun i _ => h _ (by omega) (by omega), fun i _ => h _ (by omega) (by omega),
      fun i _ => h _ (by omega) (by omega), trivial⟩, fun i _ => h _ (by omega) (by omega)⟩

def pageMask : Word := 0x0000FFFFFFFFF000

theorem getLsbD_pageMask : ∀ i, pageMask.getLsbD i = (decide (12 ≤ i) && decide (i < 48)) :=
  getLsbD_mask (by decide) (by grind)

theorem samePage_iff_xor : SamePage v w ↔ (v ^^^ w) &&& pageMask = 0#64 := by
  rw [samePage_iff]
  constructor
  case mp =>
    intro h
    apply BitVec.eq_of_getLsbD_eq
    intro i _
    by_cases hi : 12 ≤ i ∧ i < 48
    case pos => simp [h i hi.left hi.right]
    case neg =>
      have : pageMask.getLsbD i = false := by
        rw [getLsbD_pageMask]
        simpa using hi
      simp [this]
  case mpr =>
    intro h i hl hu
    have h := congrArg (·.getLsbD i) h
    simpa [getLsbD_pageMask, hl, hu] using h

theorem samePage_iff_page :
    SamePage v w ↔ v.toNat / 0x1000 % 2 ^ 36 = w.toNat / 0x1000 % 2 ^ 36 := by
  have hb (u : Word) (i : Nat) :
      (u.toNat / 0x1000 % 2 ^ 36).testBit i = (decide (i < 36) && u.getLsbD (12 + i)) := by
    change (u.toNat / 2 ^ 12 % 2 ^ 36).testBit i = _
    rw [Nat.testBit_mod_two_pow, Nat.testBit_div_two_pow, Nat.add_comm]
    rfl
  rw [samePage_iff]
  constructor
  case mp =>
    intro h
    apply Nat.eq_of_testBit_eq
    intro i
    rw [hb, hb]
    by_cases hi : i < 36
    case pos => rw [h (12 + i) (by omega) (by omega)]
    case neg => simp [hi]
  case mpr =>
    intro h i hl hu
    have hi : decide (i - 12 < 36) = true := decide_eq_true (by omega)
    have h : (v.toNat / 0x1000 % 2 ^ 36).testBit (i - 12) =
        (w.toNat / 0x1000 % 2 ^ 36).testBit (i - 12) := by rw [h]
    rwa [hb, hb, Nat.add_sub_cancel' hl, hi, Bool.true_and, Bool.true_and] at h

-- The page-aligned address that differs from `virt` only in its index into the lowest table.
def withPte (virt : Word) (j : Index) : Word :=
  (virt &&& 0xFFFFFFFFFFE00000#64) ||| (j.setWidth 64 <<< 12)

theorem getLsbD_withPte (i : Nat) :
    (withPte virt j).getLsbD i =
      if 12 ≤ i ∧ i < 21 then j.getLsbD (i - 12) else decide (21 ≤ i) && virt.getLsbD i := by
  have hm : ∀ i < 64, (0xFFFFFFFFFFE00000#64).getLsbD i = decide (21 ≤ i) := by decide
  by_cases h : i < 64
  case neg =>
    rw [BitVec.getLsbD_of_ge _ _ (by omega), if_neg (by omega), BitVec.getLsbD_of_ge _ _ (by omega)]
    simp
  case pos =>
    rw [withPte, BitVec.getLsbD_or, BitVec.getLsbD_and, hm i h, BitVec.getLsbD_shiftLeft,
      BitVec.getLsbD_setWidth]
    by_cases h₁ : 12 ≤ i ∧ i < 21
    case pos =>
      rw [if_pos h₁, decide_eq_false (by omega : ¬21 ≤ i), decide_eq_false (by omega : ¬i < 12)]
      simp [h, (by omega : i - 12 < 64)]
    case neg =>
      rw [if_neg h₁, Bool.and_comm]
      by_cases h₂ : i < 12
      case pos => simp [h₂]
      case neg => simp [BitVec.getLsbD_of_ge j (i - 12) (by omega)]

theorem path_withPte : path (withPte virt j) = path virt := by
  have h {i : Nat} (hi : 21 ≤ i) : (withPte virt j).getLsbD i = virt.getLsbD i := by
    rw [getLsbD_withPte, if_neg (by omega)]
    simp [hi]
  simp only [path, List.cons.injEq, pmlEntry, pdpeEntry, pdeEntry, entry_eq_iff]
  exact ⟨fun i _ => h (by omega), fun i _ => h (by omega), fun i _ => h (by omega), trivial⟩

theorem pteEntry_withPte : pteEntry (withPte virt j) = j := by
  apply BitVec.eq_of_getLsbD_eq
  intro i hi
  rw [pteEntry, getLsbD_entry, getLsbD_withPte, if_pos (by omega)]
  simp [hi]

theorem isUnaligned_withPte : isUnaligned (withPte virt j) = 0#64 := by
  have hm : ∀ i < 64, (0xFFF : Word).getLsbD i = decide (i < 12) := by decide
  apply BitVec.eq_of_getLsbD_eq
  intro i hi
  rw [isUnaligned, BitVec.getLsbD_and, hm i hi, getLsbD_withPte]
  by_cases h : i < 12
  case pos =>
    rw [if_neg (by omega), decide_eq_false (by omega : ¬21 ≤ i)]
    simp
  case neg => simp [h]

end RoverOS.Paging
