import RoverOS.Paging.Basic
import RoverOS.Library.Bits

-- The page tables as a radix tree: `virtToPhysInt` and `getPageInfo` read the entry at the end of a
-- walk through three levels.

open Radix (walk Tree)

namespace RoverOS.Paging

-- An entry with an empty address field designates no table.
def child (entry : Word) : Option Word :=
  if tableBase entry = 0#64 then none else some (tableBase entry)

def path (virt : Word) : List Index :=
  [pmlEntry virt, pdpeEntry virt, pdeEntry virt]

def leaf (s : Vm) (root virt : Word) : Option Word :=
  (walk child s.tables root (path virt)).map (s.tables · (pteEntry virt))

section Words

variable {a b e f flags phys : Word}

theorem tableBase_or : tableBase (a ||| b) = tableBase a ||| tableBase b :=
  BitVec.and_or_distrib_right

@[simp]
theorem tableBase_tableBase : tableBase (tableBase a) = tableBase a := by
  simp [tableBase, BitVec.and_assoc]

@[simp]
theorem tableBase_zero : tableBase 0#64 = 0#64 := by
  decide

@[simp]
theorem tableBase_tableFlags : tableBase (tableFlags flags) = 0#64 := by
  unfold tableFlags
  split <;> decide

@[simp]
theorem tableBase_or_tableFlags : tableBase (e ||| tableFlags flags) = tableBase e := by
  simp [tableBase_or]

@[simp]
theorem child_or_tableFlags : child (e ||| tableFlags flags) = child e := by
  simp [child]

theorem child_eq_none_iff : child e = none ↔ tableBase e = 0#64 := by
  simp [child]

theorem child_eq_some (h : tableBase e ≠ 0#64) : child e = some (tableBase e) := by
  simp [child, h]

theorem tableBase_link (he : tableBase e = 0#64) (hf : tableBase f = f) :
    tableBase (e ||| f) = f := by
  simp [tableBase_or, he, hf]

theorem child_link (he : tableBase e = 0#64) (hf : tableBase f = f) (h : f ≠ 0#64) :
    child (e ||| f) = some f := by
  simp [child, tableBase_link he hf, h]

theorem getLsbD_baseMask : ∀ i, baseMask.getLsbD i = (decide (12 ≤ i) && decide (i < 52)) :=
  getLsbD_mask (by decide) (by grind)

theorem getLsbD_tableBase (i : Nat) :
    (tableBase a).getLsbD i = (a.getLsbD i && (decide (12 ≤ i) && decide (i < 52))) := by
  rw [tableBase, BitVec.getLsbD_and, getLsbD_baseMask]

theorem isUnaligned_toNat : (isUnaligned a).toNat = a.toNat % 0x1000 := by
  rw [isUnaligned, BitVec.toNat_and]
  exact Nat.and_two_pow_sub_one_eq_mod a.toNat 12

theorem isUnaligned_eq_zero_iff : isUnaligned a = 0#64 ↔ a.toNat % 0x1000 = 0 := by
  rw [← isUnaligned_toNat, ← BitVec.toNat_inj]
  rfl

theorem tableBase_toNat_lt : (tableBase a).toNat < 2 ^ 52 := by
  rw [tableBase, BitVec.toNat_and]
  exact lt_of_le_of_lt Nat.and_le_right (by decide)

theorem tableBase_toNat_mod : (tableBase a).toNat % 0x1000 = 0 := by
  have hm : baseMask &&& 0xFFF = 0#64 := by decide
  rw [← isUnaligned_eq_zero_iff, isUnaligned, tableBase, BitVec.and_assoc, hm, BitVec.and_zero]

theorem getLsbD_of_aligned (ha : isUnaligned a = 0#64) {i : Nat} (hi : i < 12) :
    a.getLsbD i = false := by
  have h : (4095#64).getLsbD i = true := by
    revert i
    decide
  simpa [isUnaligned, h] using congrArg (·.getLsbD i) ha

-- A page-aligned address below `2 ^ 52` is all address field.
theorem tableBase_of_aligned (ha : isUnaligned phys = 0#64) (hp : phys.toNat < 2 ^ 52) :
    tableBase phys = phys := by
  apply BitVec.eq_of_getLsbD_eq
  intro i hi
  rw [getLsbD_tableBase]
  by_cases h₁ : 12 ≤ i
  case neg => simp [h₁, getLsbD_of_aligned ha (by omega : i < 12)]
  by_cases h₂ : i < 52
  case pos => simp [h₁, h₂]
  case neg =>
    have h : phys.getLsbD i = false :=
      Nat.testBit_lt_two_pow (lt_of_lt_of_le hp (Nat.pow_le_pow_right (by decide) (by omega)))
    simp [h]

-- The flags select a cache type that has `PG_PAT` in it.
def PicksPat (flags : Word) : Prop :=
  Has flags pageFlagUc ∨
    ¬Has flags pageFlagWc ∧ (Has flags pageFlagWb ∨ ¬Has flags pageFlagWp ∧ Has flags pageFlagWt)

instance : Decidable (PicksPat flags) :=
  inferInstanceAs (Decidable (_ ∨ _))

theorem not_has_of_sub {bit : Word} (h : ¬Has flags 0x1F) (hb : 0x1F &&& bit = bit) :
    ¬Has flags bit := by
  have h : flags &&& 0x1F = 0#64 := not_not.mp h
  rw [not_not, ← hb, ← BitVec.and_assoc, h, BitVec.zero_and]

theorem tableBase_cacheFlags :
    tableBase (cacheFlags flags) = if PicksPat flags then pgPat else 0#64 := by
  unfold cacheFlags
  by_cases h : Has flags 0x1F
  case pos =>
    rw [if_pos h]
    by_cases h₁ : Has flags pageFlagUc
    case pos => rw [if_pos h₁, if_pos (.inl h₁)]; decide
    by_cases h₂ : Has flags pageFlagWc
    case pos => rw [if_neg h₁, if_pos h₂, if_neg (by simp_all [PicksPat])]; decide
    by_cases h₃ : Has flags pageFlagWb
    case pos => rw [if_neg h₁, if_neg h₂, if_pos h₃, if_pos (.inr ⟨h₂, .inl h₃⟩)]; decide
    by_cases h₄ : Has flags pageFlagWp
    case pos => rw [if_neg h₁, if_neg h₂, if_neg h₃, if_pos h₄, if_neg (by simp_all [PicksPat])]; decide
    rw [if_neg h₁, if_neg h₂, if_neg h₃, if_neg h₄]
    by_cases h₅ : Has flags pageFlagWt
    case pos => rw [if_pos h₅, if_pos (.inr ⟨h₂, .inr ⟨h₄, h₅⟩⟩)]; decide
    case neg => rw [if_neg h₅, if_neg (by simp_all [PicksPat])]; decide
  case neg =>
    have h₁ : ¬Has flags pageFlagUc := not_has_of_sub h (by decide)
    have h₃ : ¬Has flags pageFlagWb := not_has_of_sub h (by decide)
    have h₅ : ¬Has flags pageFlagWt := not_has_of_sub h (by decide)
    rw [if_neg h, if_neg (by simp_all [PicksPat])]
    decide

-- Of all the leaf's flags only `PG_PAT` lies in the address field.
theorem tableBase_pgflags : tableBase (pgflags flags) = if PicksPat flags then pgPat else 0#64 := by
  have hu : tableBase (if Has flags pageFlagUser then pgUser else 0#64) = 0#64 := by
    split <;> decide
  have hx : tableBase (if Has flags pageFlagExecute then 0#64 else pgNx) = 0#64 := by
    split <;> decide
  rw [pgflags, tableBase_or, tableBase_or, tableBase_or, hu, hx, tableBase_cacheFlags]
  simp

-- `PG_PAT` is bit 12, the lowest bit of the address.
theorem tableBase_leaf_eq_iff (h : tableBase phys = phys) :
    tableBase (pgflags flags ||| phys) = phys ↔ (PicksPat flags → phys.getLsbD 12 = true) := by
  rw [tableBase_or, tableBase_pgflags, h]
  by_cases hp : PicksPat flags
  case neg => simp [hp]
  case pos =>
    simp only [hp, if_true, true_implies]
    constructor
    case mp =>
      intro he
      have hb : pgPat.getLsbD 12 = true := by decide
      rw [← he, BitVec.getLsbD_or, hb, Bool.true_or]
    case mpr =>
      intro hb
      apply BitVec.eq_of_getLsbD_eq
      intro i hi
      have hpat : ∀ i < 64, pgPat.getLsbD i = decide (i = 12) := by decide
      by_cases h12 : i = 12
      case pos => simp [h12, hb]
      case neg => simp [hpat i hi, h12]

end Words

section Leaf

variable {s : Vm} {space : PageSpace} {root virt : Word}

theorem walk_path :
    walk child s.tables root (path virt) =
      (child (s.tables root (pmlEntry virt))).bind fun pdpe =>
        (child (s.tables pdpe (pdpeEntry virt))).bind fun pde =>
          child (s.tables pde (pdeEntry virt)) := by
  simp [path, walk]

theorem getPageInfo_eq : getPageInfo s root virt = (leaf s root virt).getD 0#64 := by
  simp only [getPageInfo, leaf, walk_path, child]
  split <;> simp
  split <;> simp
  split <;> simp

theorem virtToPhysInt_eq :
    virtToPhysInt s space virt = tableBase ((leaf s space.pml4e virt).getD 0#64) := by
  simp only [virtToPhysInt, leaf, walk_path, child]
  split <;> simp
  split <;> simp
  split <;> simp

end Leaf

end RoverOS.Paging
