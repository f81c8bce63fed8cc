import RoverOS.Pmm.Theorems.Buddy
import RoverOS.Pmm.Theorems.Orders

-- What the operations leave of a region: the sizes of its bitmaps, and the bits that are always set
-- together.

namespace RoverOS.Pmm

open MemRegion

variable {r r' r'' : MemRegion} {o m : MemOrder} {f : Word → Word} {w v : Word}
  {order k n i idx bit ptr : Nat}

-- The mask of bit 31 is extended with its sign, so the bits from 31 on are only set and cleared
-- together.
def Uniform (w : Word) : Prop :=
  ∀ i, 31 ≤ i → i < 64 → w.getLsbD i = w.getLsbD 31

def AllUniform (r : MemRegion) : Prop :=
  ∀ o ∈ r.order, ∀ w ∈ o.entry, Uniform w

def MemOrder.size (o : MemOrder) : Nat × Nat :=
  (o.entryn, o.entry.length)

-- Only words and counters are changed.
structure Keeps (r r' : MemRegion) : Prop where
  frame   : r' = { r with order := r'.order }
  size    : r'.order.map MemOrder.size = r.order.map MemOrder.size
  uniform : AllUniform r → AllUniform r'

section Masks

theorem intBit_mod : intBit (n % 32) = intBit n := by
  rw [intBit, Nat.mod_mod, intBit]

theorem uniform_intBit : Uniform (intBit n) := by
  have h : ∀ k < 32, ∀ i < 64, 31 ≤ i → (intBit k).getLsbD i = (intBit k).getLsbD 31 := by
    decide
  intro i hi hlt
  rw [← intBit_mod]
  exact h _ (Nat.mod_lt n (by decide)) i hlt hi

theorem Uniform.or (hw : Uniform w) (hv : Uniform v) : Uniform (w ||| v) := by
  intro i hi hlt
  rw [BitVec.getLsbD_or, BitVec.getLsbD_or, hw i hi hlt, hv i hi hlt]

theorem Uniform.and_not (hw : Uniform w) (hv : Uniform v) : Uniform (w &&& ~~~v) := by
  intro i hi hlt
  simp only [BitVec.getLsbD_and, BitVec.getLsbD_not, hw i hi hlt, hv i hi hlt, hlt]
  rfl

theorem getLsbD_intBit_31 : (intBit 31).getLsbD i = (decide (31 ≤ i) && decide (i < 64)) := by
  by_cases hi : i < 64
  · revert i
    decide
  · rw [BitVec.getLsbD_of_ge _ _ (Nat.le_of_not_lt hi)]
    simp [hi]

theorem getLsbD_intBit_iff (hi : i < 64) : (intBit n).getLsbD i = true ↔ n % 32 = i ∨ n % 32 = 31 ∧ 31 < i := by
  rw [← intBit_mod]
  have hcases : n % 32 < 31 ∨ n % 32 = 31 := by omega
  rcases hcases with hlt | heq
  · rw [intBit_eq hlt, BitVec.getLsbD_twoPow]
    simp only [Bool.and_eq_true, decide_eq_true_eq]
    omega
  · rw [heq, getLsbD_intBit_31]
    simp only [Bool.and_eq_true, decide_eq_true_eq, true_and]
    omega

theorem Uniform.and_intBit_iff (hw : Uniform w) (hn : n ≤ 31) :
    w &&& intBit n = 0#64 ↔ w.getLsbD n = false := by
  rcases Nat.lt_or_eq_of_le hn with hlt | rfl
  · exact and_intBit_eq_zero_iff hlt
  · constructor
    case mp =>
      intro h
      have hbit := congrArg (BitVec.getLsbD · 31) h
      simp only [BitVec.getLsbD_and, getLsbD_intBit_31, BitVec.getLsbD_zero] at hbit
      simpa only [decide_true, Bool.and_true, le_refl, show 31 < 64 by decide] using hbit
    case mpr =>
      intro h
      apply BitVec.eq_of_getLsbD_eq
      intro i hi
      rw [BitVec.getLsbD_and, getLsbD_intBit_31]
      by_cases hle : 31 ≤ i
      · rw [hw i hle hi, h, Bool.false_and, BitVec.getLsbD_zero]
      · rw [decide_eq_false hle, Bool.false_and, Bool.and_false, BitVec.getLsbD_zero]

end Masks

namespace Keeps

theorem refl (r : MemRegion) : Keeps r r :=
  ⟨rfl, rfl, id⟩

theorem trans (h : Keeps r r') (h' : Keeps r' r'') : Keeps r r'' where
  frame     := by rw [h'.frame, h.frame]
  size      := h'.size.trans h.size
  uniform u := h'.uniform (h.uniform u)

theorem modify (hf : ∀ w, Uniform w → Uniform (f w)) (h : r.modify k idx f n = .ok r') : Keeps r r' := by
  obtain ⟨o, w, ho, hw, rfl⟩ := modify_ok h
  constructor
  case frame => rfl
  case size =>
    have hsize : (o.write idx (f w) n).size = o.size := by
      simp [MemOrder.size, MemOrder.write]
    have ho' : (r.order.map MemOrder.size)[k]? = some o.size := by
      rw [List.getElem?_map, ho, Option.map_some]
    obtain ⟨hlt, hget⟩ := List.getElem?_eq_some_iff.mp ho'
    rw [List.map_set, hsize, ← hget, List.set_getElem_self]
  case uniform =>
    intro u o' ho' w' hw'
    rcases List.mem_or_eq_of_mem_set ho' with hold | rfl
    · exact u o' hold w' hw'
    · have ho := List.mem_of_getElem? ho
      rcases List.mem_or_eq_of_mem_set hw' with hold | rfl
      · exact u o ho w' hold
      · exact hf w (u o ho w (List.mem_of_getElem? hw))

theorem set (h : r.modify k idx (· ||| intBit bit) n = .ok r') : Keeps r r' :=
  modify (fun _ hw => hw.or uniform_intBit) h

theorem clear (h : r.modify k idx (· &&& ~~~intBit bit) n = .ok r') : Keeps r r' :=
  modify (fun _ hw => hw.and_not uniform_intBit) h

end Keeps

section Rule

variable {R : MemRegion → MemRegion → Prop} (trans : ∀ {r₁ r₂ r₃}, R r₁ r₂ → R r₂ r₃ → R r₁ r₃)

section Mark

-- A block is marked by setting one bit after the other, so what every one of them keeps is kept.
variable (mark : ∀ {k idx bit n r r'}, r.modify k idx (· ||| intBit bit) n = .ok r' → R r r')

include trans mark

theorem setChildren_rule (refl : ∀ r, R r r) (h : setChildren idx bit i n r = .ok r') : R r r' := by
  induction n generalizing idx bit i r
  case zero =>
    cases h
    exact refl _
  case succ n hi =>
    obtain ⟨r₁, h₁, h⟩ := Except.bind_ok_iff.mp h
    exact trans (mark h₁) (hi h)

theorem setParents_rule (refl : ∀ r, R r r) (h : setParents k idx bit n r = .ok r') : R r r' := by
  induction n generalizing k idx bit r
  case zero =>
    cases h
    exact refl _
  case succ n hi =>
    unfold setParents at h
    split at h
    case isTrue =>
      cases h
      exact refl _
    case isFalse =>
      obtain ⟨r₁, h₁, h⟩ := Except.bind_ok_iff.mp h
      exact trans (mark h₁) (hi h)

theorem setBit_rule (refl : ∀ r, R r r) (h : setBit r order idx bit = .ok r') : R r r' := by
  obtain ⟨r₁, h₁, h⟩ := Except.bind_ok_iff.mp h
  obtain ⟨r₂, h₂, h⟩ := Except.bind_ok_iff.mp h
  exact trans (setChildren_rule trans mark refl h₁) (trans (mark h₂) (setParents_rule trans mark refl h))

theorem reserveBlocks_rule (refl : ∀ r, R r r) (h : reserveBlocks ptr n r = .ok r') : R r r' := by
  induction n generalizing ptr r
  case zero =>
    cases h
    exact refl _
  case succ n hi =>
    obtain ⟨r₁, h₁, h⟩ := Except.bind_ok_iff.mp h
    exact trans (setBit_rule trans mark refl h₁) (hi h)

theorem allocRegion_rule (refl : ∀ r, R r r) (h : allocRegion r order = .ok (ptr, r')) : R r r' := by
  rcases allocRegion_cases h with ⟨_, rfl⟩ | ⟨idx, bit, o, w, _, hs, _⟩
  · exact refl _
  · exact setBit_rule trans mark refl hs

end Mark

section Clear

-- It is freed by clearing one after the other.
variable (clear : ∀ {k idx bit r r'}, r.modify k idx (· &&& ~~~intBit bit) 0 = .ok r' → R r r')

include trans clear

theorem freeParents_rule (refl : ∀ r, R r r) (h : freeParents k idx bit n r = .ok r') : R r r' := by
  induction n generalizing k idx bit r
  case zero =>
    cases h
    exact refl _
  case succ n hi =>
    obtain ⟨r₁, h₁, h⟩ := Except.bind_ok_iff.mp h
    split at h
    case h_1 => cases h
    case h_2 =>
      split at h
      case isTrue =>
        cases h
        exact clear h₁
      case isFalse => exact trans (clear h₁) (hi h)

theorem freeBit_rule (refl : ∀ r, R r r) (h : freeBit r k idx bit = .ok r') : R r r' := by
  obtain ⟨r₁, h₁, h⟩ := Except.bind_ok_iff.mp h
  split at h
  case h_1 => cases h
  case h_2 =>
    split at h
    case isTrue =>
      cases h
      exact clear h₁
    case isFalse => exact trans (clear h₁) (freeParents_rule trans clear refl h)

end Clear

end Rule

section Operations

theorem setChildren_keeps (h : setChildren idx bit i n r = .ok r') : Keeps r r' :=
  setChildren_rule .trans .set .refl h

theorem setBit_keeps (h : setBit r order idx bit = .ok r') : Keeps r r' :=
  setBit_rule .trans .set .refl h

end Operations

-- The calls that are made for one region.
inductive BlockCall
  | alloc (order : Nat)
  | reserve (addr n : Nat)
  | free (addr : Nat)

inductive BlockStep : MemRegion → BlockCall → MemRegion → Prop
  | alloc {r r' : MemRegion} {order ptr : Nat} :
    allocRegion r order = .ok (ptr, r') → BlockStep r (.alloc order) r'
  | reserve {r r' : MemRegion} {addr n : Nat} :
    reserveBlocks addr n r = .ok r' → BlockStep r (.reserve addr n) r'
  | free {r r' : MemRegion} {addr : Nat} :
    freeBit r 0 (orderGetIdxFromBit (orderAddressToBit addr r.base)) (u8 (orderAddressToBit addr r.base)) =
      .ok r' → BlockStep r (.free addr) r'

-- The states of the region that `createRegion` makes for an entry.
def Reachable (entry : MmapEntry) (r : MemRegion) : Prop :=
  Run.Steps BlockStep (fun _ _ => True) (fillRegion zeroRegion entry) r

-- What holds of every state of a region.
structure Regular (r : MemRegion) : Prop where
  ordern  : r.ordern ≤ maxOrder
  orders  : ∀ k < r.ordern, ∃ o, r.order[k]? = some o ∧ o.entryn < 2 ^ 32 ∧ o.entry ≠ []
  uniform : AllUniform r

theorem BlockStep.rule {R : MemRegion → MemRegion → Prop} {c : BlockCall}
    (trans : ∀ {r₁ r₂ r₃}, R r₁ r₂ → R r₂ r₃ → R r₁ r₃)
    (mark : ∀ {k idx bit n r r'}, r.modify k idx (· ||| intBit bit) n = .ok r' → R r r')
    (clear : ∀ {k idx bit r r'}, r.modify k idx (· &&& ~~~intBit bit) 0 = .ok r' → R r r')
    (refl : ∀ r, R r r) (h : BlockStep r c r') : R r r' := by
  cases h
  case alloc h   => exact allocRegion_rule trans mark refl h
  case reserve h => exact reserveBlocks_rule trans mark refl h
  case free h    => exact freeBit_rule trans clear refl h

theorem BlockStep.keeps {c : BlockCall} (h : BlockStep r c r') : Keeps r r' :=
  h.rule .trans .set .clear .refl

theorem Reachable.keeps {entry : MmapEntry} (h : Reachable entry r) :
    Keeps (fillRegion zeroRegion entry) r :=
  Run.Steps.invariant h (.refl _) fun hk _ hs => hk.trans hs.keeps

-- An order keeps the number of its blocks and of its words.
theorem Keeps.sizes (h : Keeps r r') (ho : r.order[k]? = some o) :
    ∃ o', r'.order[k]? = some o' ∧ o'.entryn = o.entryn ∧ o'.entry.length = o.entry.length := by
  have hmap : (r'.order.map MemOrder.size)[k]? = some o.size := by
    rw [h.size, List.getElem?_map, ho, Option.map_some]
  rw [List.getElem?_map] at hmap
  obtain ⟨o', ho', hsize⟩ := Option.map_eq_some_iff.mp hmap
  exact ⟨o', ho', congrArg Prod.fst hsize, congrArg Prod.snd hsize⟩

theorem Regular.keeps (h : Regular r) (hk : Keeps r r') : Regular r' where
  ordern := by
    rw [hk.frame]
    exact h.ordern
  orders := by
    intro k hlt
    rw [hk.frame] at hlt
    obtain ⟨o, ho, hn, hne⟩ := h.orders k hlt
    obtain ⟨o', ho', hn', hlen⟩ := hk.sizes ho
    refine ⟨o', ho', hn' ▸ hn, fun hnil => hne ?_⟩
    rw [hnil] at hlen
    exact List.length_eq_zero_iff.mp hlen.symm
  uniform := hk.uniform h.uniform

theorem allUniform_zeroRegion : AllUniform zeroRegion := by
  intro o ho w hw
  rw [List.eq_of_mem_replicate ho] at hw
  cases hw

theorem AllUniform.filled {old : MemRegion} {entry : MmapEntry} (h : AllUniform old) :
    AllUniform (fillRegion old entry) := by
  intro o ho w hw
  obtain ⟨k, hk⟩ := List.getElem?_of_mem ho
  simp only [fillRegion, getElem?_makeOrders, Option.map_eq_some_iff] at hk
  obtain ⟨o', ho', rfl⟩ := hk
  split at hw
  case isTrue =>
    intro i _ _
    rw [List.eq_of_mem_replicate hw, BitVec.getLsbD_zero, BitVec.getLsbD_zero]
  case isFalse => exact h o' (List.mem_of_getElem? ho') w hw

theorem regular_fillRegion {entry : MmapEntry} : Regular (fillRegion zeroRegion entry) where
  ordern := countOrders_le
  orders := by
    intro k hk
    obtain ⟨hlt, hpos⟩ := lt_countOrders_iff.mp hk
    have hz : (List.replicate maxOrder (α := MemOrder) ⟨0, 0, []⟩)[k]? = some ⟨0, 0, []⟩ := by
      rw [List.getElem?_replicate, if_pos hlt]
    refine ⟨newOrder (blocksIn entry.bytes / 2 ^ k), ?_, u32_lt _, ?_⟩
    · simp [fillRegion, getElem?_makeOrders, zeroRegion, hz, hpos]
    · unfold newOrder
      intro hnil
      have hlen := congrArg List.length hnil
      simp only [List.length_replicate, List.length_nil] at hlen
      split at hlen <;> omega
  uniform := allUniform_zeroRegion.filled

theorem Reachable.regular {entry : MmapEntry} (h : Reachable entry r) : Regular r :=
  regular_fillRegion.keeps h.keeps

theorem Reachable.base {entry : MmapEntry} (h : Reachable entry r) : r.base = entry.phys := by
  rw [h.keeps.frame]
  rfl

end RoverOS.Pmm
