import RoverOS.Pmm.Basic

-- What the operations do to order 0, the order of the smallest blocks.

namespace RoverOS.Pmm

variable {r r' : MemRegion} {k n i idx bit : Nat} {f : Word → Word} {w : Word}

section Bits

theorem intBit_eq (h : n < 31) : intBit n = BitVec.twoPow 64 n := by
  revert n
  decide

theorem and_intBit_eq_zero_iff (h : n < 31) : w &&& intBit n = 0#64 ↔ w.getLsbD n = false := by
  rw [intBit_eq h, BitVec.and_twoPow]
  have hz : BitVec.twoPow 64 n ≠ 0#64 := by
    revert n
    decide
  cases w.getLsbD n <;> simp [hz]

theorem getLsbD_or_intBit (h : n < 31) :
    (w ||| intBit n).getLsbD i = (w.getLsbD i || decide (n = i)) := by
  rw [intBit_eq h, BitVec.getLsbD_or, BitVec.getLsbD_twoPow]
  simp [(by omega : n < 64)]

theorem getLsbD_and_not_intBit (h : n < 31) :
    (w &&& ~~~intBit n).getLsbD i = (w.getLsbD i && !decide (n = i)) := by
  by_cases hi : i < 64
  case neg =>
    rw [BitVec.getLsbD_of_ge _ _ (by omega), BitVec.getLsbD_of_ge w _ (by omega)]
    simp
  case pos =>
    rw [intBit_eq h, BitVec.getLsbD_and, BitVec.getLsbD_not, BitVec.getLsbD_twoPow]
    simp [hi, (by omega : n < 64)]

-- The number of the first `n` bits that are set.
def setBits (w : Word) (n : Nat) : Nat :=
  ((Finset.range n).filter fun i => w.getLsbD i = true).card

theorem setBits_le_of_imp {w' : Word} (h : ∀ i, w'.getLsbD i = true → w.getLsbD i = true) :
    setBits w' k ≤ setBits w k :=
  Finset.card_le_card (Finset.monotone_filter_right _ fun i _ => h i)

theorem setBits_or_intBit_le (h : n < 31) : setBits (w ||| intBit n) k ≤ setBits w k + 1 := by
  refine (Finset.card_le_card ?_).trans (Finset.card_insert_le n _)
  intro i hi
  simp only [Finset.mem_filter, getLsbD_or_intBit h, Bool.or_eq_true, decide_eq_true_eq] at hi
  cases hi.right
  case inl hw => exact Finset.mem_insert_of_mem (Finset.mem_filter.mpr ⟨hi.left, hw⟩)
  case inr he => exact he ▸ Finset.mem_insert_self _ _

theorem exists_clear_of_setBits_lt (h : setBits w k < k) : ∃ i < k, w.getLsbD i = false := by
  by_contra hn
  simp only [not_exists, not_and, Bool.not_eq_false] at hn
  have hall : (Finset.range k).filter (fun i => w.getLsbD i = true) = Finset.range k :=
    Finset.filter_true_of_mem fun i hi => hn i (Finset.mem_range.mp hi)
  rw [setBits, hall, Finset.card_range] at h
  omega

end Bits

namespace MemRegion

def leaves (r : MemRegion) : MemOrder :=
  r.order[0]?.getD { entryn := 0, used := 0, entry := [] }

-- The bits of the first 64 blocks.
def word (r : MemRegion) : Word :=
  r.leaves.entry[0]?.getD 0#64

-- Nothing but the orders from `k` on is changed.
structure Above (k : Nat) (r r' : MemRegion) : Prop where
  frame : r' = { r with order := r'.order }
  below : ∀ i < k, r'.order[i]? = r.order[i]?

theorem Above.refl (k : Nat) (r : MemRegion) : Above k r r :=
  ⟨rfl, fun _ _ => rfl⟩

theorem Above.trans {r'' : MemRegion} {k' : Nat} (h : Above k r r') (h' : Above k' r' r'')
    (hk : k ≤ k') : Above k r r'' := by
  constructor
  case frame => rw [h'.frame, h.frame]
  case below => exact fun i hi => (h'.below i (by omega)).trans (h.below i hi)

theorem modify_ok (h : r.modify k idx f n = .ok r') :
    ∃ o w, r.order[k]? = some o ∧ o.entry[idx]? = some w ∧
      r' = { r with order := r.order.set k (o.write idx (f w) n) } := by
  unfold modify at h
  split at h
  case h_1 => cases h
  case h_2 o ho =>
    split at h
    case h_1 => cases h
    case h_2 w hw =>
      cases h
      exact ⟨o, w, ho, hw, rfl⟩

theorem modify_above (h : r.modify k idx f n = .ok r') : Above k r r' := by
  have ⟨o, w, _, _, he⟩ := modify_ok h
  subst he
  exact ⟨rfl, fun i hi => List.getElem?_set_ne (by omega)⟩

-- What a write to the first word of order 0 leaves.
structure Writes (f : Word → Word) (n : Nat) (r r' : MemRegion) : Prop where
  frame  : r' = { r with order := r'.order }
  entryn : r'.leaves.entryn = r.leaves.entryn
  used   : r'.leaves.used = u32 (r.leaves.used + n)
  word   : r'.word = f r.word

theorem modify_writes (h : r.modify 0 0 f n = .ok r') : Writes f n r r' := by
  have ⟨o, w, ho, hw, he⟩ := modify_ok h
  have ⟨hlt, _⟩ := List.getElem?_eq_some_iff.mp ho
  have ⟨hlt', _⟩ := List.getElem?_eq_some_iff.mp hw
  have hl : r.leaves = o := by simp only [leaves, ho, Option.getD_some]
  have hl' : r'.leaves = o.write 0 (f w) n := by simp [he, leaves, hlt]
  constructor
  case frame  => rw [he]
  case entryn => rw [hl, hl', MemOrder.write]
  case used   => rw [hl, hl', MemOrder.write]
  case word =>
    rw [word, word, hl, hl', MemOrder.write, hw]
    simp [hlt']

theorem Writes.above (h : Writes f n r r') {r'' : MemRegion} (h' : Above 1 r' r'') :
    Writes f n r r'' := by
  have hl : r''.leaves = r'.leaves := by
    rw [leaves, leaves, h'.below 0 (by decide)]
  constructor
  case frame  => rw [h'.frame, h.frame]
  case entryn => rw [hl, h.entryn]
  case used   => rw [hl, h.used]
  case word   => rw [← h.word, MemRegion.word, MemRegion.word, hl]

end MemRegion

open MemRegion

theorem setParents_above (h : setParents k idx bit n r = .ok r') : Above k r r' := by
  induction n generalizing k idx bit r
  case zero => cases h; exact .refl _ _
  case succ n hi =>
    unfold setParents at h
    split at h
    case isTrue => cases h; exact .refl _ _
    case isFalse =>
      have ⟨r₁, h₁, h⟩ := Except.bind_ok_iff.mp h
      exact (modify_above h₁).trans (hi h) (by omega)

theorem freeParents_above (h : freeParents k idx bit n r = .ok r') : Above k r r' := by
  induction n generalizing k idx bit r
  case zero => cases h; exact .refl _ _
  case succ n hi =>
    unfold freeParents at h
    have ⟨r₁, h₁, h⟩ := Except.bind_ok_iff.mp h
    split at h
    case h_1 => cases h
    case h_2 =>
      split at h
      case isTrue  => cases h; exact modify_above h₁
      case isFalse => exact (modify_above h₁).trans (hi h) (by omega)

theorem setBit_writes (h : setBit r 0 0 bit = .ok r') : Writes (· ||| intBit bit) 1 r r' := by
  unfold setBit at h
  have ⟨r₀, h₀, h⟩ := Except.bind_ok_iff.mp h
  cases h₀
  have ⟨r₁, h₁, h⟩ := Except.bind_ok_iff.mp h
  exact (modify_writes h₁).above (setParents_above h)

theorem freeBit_writes (h : freeBit r 0 0 bit = .ok r') : Writes (· &&& ~~~intBit bit) 0 r r' := by
  unfold freeBit at h
  have ⟨r₁, h₁, h⟩ := Except.bind_ok_iff.mp h
  split at h
  case h_1 => cases h
  case h_2 =>
    split at h
    case isTrue  => cases h; exact modify_writes h₁
    case isFalse => exact (modify_writes h₁).above (freeParents_above h)

theorem findBit_spec (w : Word) (bit n : Nat) :
    bit ≤ findBit w bit n ∧ findBit w bit n ≤ bit + n ∧
      (findBit w bit n < bit + n → w &&& intBit (findBit w bit n) = 0#64) ∧
      ∀ i, bit ≤ i → i < findBit w bit n → w &&& intBit i ≠ 0#64 := by
  induction n generalizing bit
  case zero =>
    refine ⟨le_rfl, le_rfl, fun h => ?_, fun i h₁ h₂ => ?_⟩
    · simp [findBit] at h
    · simp only [findBit] at h₂
      omega
  case succ n hi =>
    by_cases h : w &&& intBit bit = 0#64
    case pos =>
      rw [findBit, if_pos h]
      exact ⟨le_rfl, by omega, fun _ => h, fun i h₁ h₂ => by omega⟩
    case neg =>
      have ⟨h₁, h₂, h₃, h₄⟩ := hi (bit + 1)
      rw [findBit, if_neg h]
      refine ⟨by omega, by omega, fun hlt => h₃ (by omega), fun i hl hu => ?_⟩
      by_cases he : i = bit
      case pos => exact he ▸ h
      case neg => exact h₄ i (by omega) hu

-- The first clear bit is found when there is one below 31, where a bit is tested by itself.
theorem findBit_clear (hc : w.getLsbD k = false) (hk : k < 31) (hn : k < n) :
    findBit w 0 n ≤ k ∧ w.getLsbD (findBit w 0 n) = false := by
  have ⟨_, _, h₃, h₄⟩ := findBit_spec w 0 n
  have hle : findBit w 0 n ≤ k := by
    by_contra hlt
    exact h₄ k (by omega) (by omega) ((and_intBit_eq_zero_iff hk).mpr hc)
  exact ⟨hle, (and_intBit_eq_zero_iff (by omega)).mp (h₃ (by omega))⟩

-- The blocks of order 0 that `allocRegion` hands out are the first 31.
theorem allocRegion_leaf {ptr : Nat} (hc : k < 31) (hk : k < r.leaves.entryn)
    (hw : r.word.getLsbD k = false) (h : allocRegion r 0 = .ok (ptr, r')) :
    (ptr = memoryAllocationFailed ∧ r' = r) ∨
      ∃ n < 31, n < r.leaves.entryn ∧ r.word.getLsbD n = false ∧
        r.leaves.used < r.leaves.entryn ∧ Writes (· ||| intBit n) 1 r r' ∧
        ptr = orderCalculateAbsAddress 0 n r.base := by
  unfold allocRegion at h
  split at h
  case h_1 => cases h
  case h_2 o ho =>
    have hl : r.leaves = o := by simp [leaves, ho]
    rw [word, hl] at hw
    rw [hl] at hk ⊢
    split at h
    case isTrue => cases h; exact .inl ⟨rfl, rfl⟩
    case isFalse hu =>
      have ⟨found, hf, h⟩ := Except.bind_ok_iff.mp h
      have hne : (o.entryn + 63) / 64 = (o.entryn + 63) / 64 - 1 + 1 := by omega
      rw [hne, findWord] at hf
      split at hf
      case h_1 => cases hf
      case h_2 w hw₀ =>
        simp only [hw₀, Option.getD_some] at hw
        have hfull : w ≠ 0xFFFFFFFFFFFFFFFF := by
          rintro rfl
          have : ∀ k < 31, (0xFFFFFFFFFFFFFFFF : Word).getLsbD k = true := by decide
          rw [this k hc] at hw
          cases hw
        rw [if_neg hfull] at hf
        cases hf
        have ⟨r₁, h₁, h⟩ := Except.bind_ok_iff.mp h
        cases h
        simp only [Nat.zero_mul, Nat.sub_zero] at h₁ ⊢
        have ⟨hle, hclear⟩ := findBit_clear hw hc (by omega : k < min 64 o.entryn)
        refine .inr ⟨_, by omega, by omega, ?_, by omega, setBit_writes h₁, ?_⟩
        · rw [word, hl, hw₀]
          exact hclear
        · rw [(setBit_writes h₁).frame]

end RoverOS.Pmm
