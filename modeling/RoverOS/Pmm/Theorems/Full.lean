import RoverOS.Pmm.Theorems.Access
import RoverOS.Pmm.Theorems.Undo

-- When `allocRegion` hands out a block.

namespace RoverOS.Pmm

open MemRegion

variable {r r' : MemRegion} {o m : MemOrder} {w : Word} {order k n i j idx bit b ptr : Nat}

-- What is expected of a call: it fails when all blocks of the order are marked, and otherwise gives the
-- address of one that is clear.
structure AllocRight (r : MemRegion) (order : Nat) (m : MemOrder) : Prop where
  full : (∀ n < m.entryn, m.bit n = true) → ∃ r', allocRegion r order = .ok (memoryAllocationFailed, r')
  room : (∃ n < m.entryn, m.bit n = false) → ∃ b ptr r', allocRegion r order = .ok (ptr, r') ∧
    ptr ≠ memoryAllocationFailed ∧ ptr = u64 (r.base + b * orderBlockSize order) ∧
    b < m.entryn ∧ m.bit b = false

-- The word of order `i` that `setBit` marks for a block of a higher order.
def childWord (order bit : Nat) : Nat → Nat
  | 0     => bit * 2 ^ order / 64
  | i + 1 => 65 * (bit * 2 ^ order / 64) / 2 ^ (i + 1) / 64

-- The words of the lower orders are in their bitmaps.
def ChildrenFit (r : MemRegion) (order bit : Nat) : Prop :=
  ∀ i < order, ∃ o, r.order[i]? = some o ∧ childWord order bit i < o.entry.length

-- One of the first 64 blocks is clear, and all before it are marked.
structure FirstClear (m : MemOrder) (b : Nat) : Prop where
  lt     : b < 64 ∧ b < m.entryn
  clear  : m.bit b = false
  before : ∀ i < b, m.bit i = true

-- The condition for a call to do what is expected.
def AllocFits (r : MemRegion) (order : Nat) (m : MemOrder) : Prop :=
  (∀ n < m.entryn, m.bit n = true) ∧ (m.entryn ≤ m.used ∨
    ∀ i < (m.entryn + 63) / 64, m.entry[i]? = some 0xFFFFFFFFFFFFFFFF) ∨
  m.used < m.entryn ∧ ∃ b, FirstClear m b ∧ ChildrenFit r order b

section Words

theorem findWord_none_iff : findWord m.entry idx n = .ok none ↔
    ∀ i < n, m.entry[idx + i]? = some 0xFFFFFFFFFFFFFFFF := by
  induction n generalizing idx
  case zero => simp [findWord]
  case succ n hi =>
    rw [findWord]
    constructor
    case mp =>
      intro h
      split at h
      case h_1 => cases h
      case h_2 w hw =>
        split at h
        case isFalse => cases h
        case isTrue hfull =>
          intro i hlt
          rcases i with _ | i
          · rw [Nat.add_zero, hw, hfull]
          · rw [← Nat.add_assoc, Nat.add_right_comm]
            exact hi.mp h i (Nat.lt_of_succ_lt_succ hlt)
    case mpr =>
      intro h
      have h₀ := h 0 (Nat.succ_pos n)
      rw [Nat.add_zero] at h₀
      simp only [h₀, if_true]
      apply hi.mpr
      intro i hlt
      rw [Nat.add_right_comm]
      exact h (i + 1) (Nat.succ_lt_succ hlt)

theorem findWord_some (h : findWord m.entry idx n = .ok (some (k, w))) :
    idx ≤ k ∧ k < idx + n ∧ m.entry[k]? = some w ∧ w ≠ 0xFFFFFFFFFFFFFFFF ∧
      ∀ i, idx ≤ i → i < k → m.entry[i]? = some 0xFFFFFFFFFFFFFFFF := by
  induction n generalizing idx
  case zero => cases h
  case succ n hi =>
    rw [findWord] at h
    split at h
    case h_1 => cases h
    case h_2 v hv =>
      split at h
      case isTrue hfull =>
        obtain ⟨hle, hlt, hw, hne, hbefore⟩ := hi h
        refine ⟨by omega, by omega, hw, hne, fun i hl hu => ?_⟩
        rcases Nat.lt_or_eq_of_le hl with hlt' | rfl
        · exact hbefore i hlt' hu
        · rw [hv, hfull]
      case isFalse hne =>
        cases h
        exact ⟨Nat.le_refl _, by omega, hv, hne, fun i hl hu => by omega⟩

theorem bit_of_word (hw : m.entry[n / 64]? = some w) : m.bit n = w.getLsbD (n % 64) := by
  rw [MemOrder.bit, hw, Option.getD_some]

theorem getLsbD_allOnes64 (h : i < 64) : (0xFFFFFFFFFFFFFFFF : Word).getLsbD i = true := by
  revert i
  decide

-- A word whose bits below 32 are all set is full.
theorem Uniform.full (hu : Uniform w) (h : ∀ i < 32, w.getLsbD i = true) : w = 0xFFFFFFFFFFFFFFFF := by
  apply BitVec.eq_of_getLsbD_eq
  intro i hi
  rw [getLsbD_allOnes64 hi]
  rcases Nat.lt_or_ge i 32 with hlt | hge
  · exact h i hlt
  · rw [hu i (by omega) hi]
    exact h 31 (by decide)

-- The scan of a word that is not full.
theorem Uniform.findBit (hu : Uniform w) (hne : w ≠ 0xFFFFFFFFFFFFFFFF) :
    findBit w 0 n ≤ 31 ∧ (∀ i < findBit w 0 n, w.getLsbD i = true) ∧
      (findBit w 0 n < n → w.getLsbD (findBit w 0 n) = false) := by
  obtain ⟨_, hle, hclear, hbefore⟩ := findBit_spec w 0 n
  rw [Nat.zero_add] at hle hclear
  have hset (i : Nat) (hi : i ≤ 31) (hlt : i < Pmm.findBit w 0 n) : w.getLsbD i = true := by
    rw [← Bool.not_eq_false, ← hu.and_intBit_iff hi]
    exact hbefore i (Nat.zero_le i) hlt
  have h31 : Pmm.findBit w 0 n ≤ 31 := by
    by_contra hlt
    exact hne (hu.full fun i hi => hset i (by omega) (by omega))
  exact ⟨h31, fun i hi => hset i (by omega) hi, fun hlt => (hu.and_intBit_iff h31).mp (hclear hlt)⟩

end Words

section Fit

theorem setChildren_ok_iff : (∃ r', setChildren idx bit i n r = .ok r') ↔
    ∀ j < n, InBitmap r (i + j) (wordFrom idx bit j) := by
  rw [setChildren_returns_iff]
  constructor
  case mp => exact fun h j hj => h _ (mem_setChildrenAccesses.mpr ⟨j, hj, rfl⟩)
  case mpr =>
    intro h a ha
    obtain ⟨j, hj, rfl⟩ := mem_setChildrenAccesses.mp ha
    exact h j hj

theorem setParents_ok (hb : bit < 64) (h : ∀ j, k ≤ j → j < k + n → InBitmap r j 0) :
    ∃ r', setParents k 0 bit n r = .ok r' := by
  rw [setParents_returns_iff]
  intro a ha
  obtain ⟨j, hj, ho, hle⟩ := mem_setParentsAccesses ha hb (Nat.le_refl 0)
  rw [Nat.zero_div] at hle
  rw [ho, Nat.le_zero.mp hle]
  exact h _ (Nat.le_add_right k j) (Nat.add_lt_add_left hj k)

theorem Regular.inBitmap (h : Regular r) (hk : k < r.ordern) : InBitmap r k 0 := by
  obtain ⟨o, ho, _, hne⟩ := h.orders k hk
  exact ⟨o, ho, List.length_pos_of_ne_nil hne⟩

theorem childNum_eq (hb : bit < 64) (hk : order < maxOrder) :
    orderGetChildNum order bit = bit * 2 ^ order := by
  have hpow : 2 ^ order ≤ 2 ^ maxOrder := Nat.pow_le_pow_right (by decide) (Nat.le_of_lt hk)
  have hle : bit * 2 ^ order ≤ 63 * 2 ^ maxOrder := Nat.mul_le_mul (by omega) hpow
  rw [orderGetChildNum, Nat.shiftLeft_eq, u64_of_lt (Nat.lt_of_le_of_lt hle (by decide))]

theorem childBase_div (hb : bit < 64) (hk : order < maxOrder) :
    (if orderIsRightBlock (orderGetChildNum order bit) then orderGetChildNum order bit - 1
      else orderGetChildNum order bit) / 64 = bit * 2 ^ order / 64 := by
  rw [childNum_eq hb hk]
  split
  case isTrue hr =>
    rw [isRightBlock_iff] at hr
    omega
  case isFalse => rfl

-- The sizes of the bitmaps alone decide whether a block in the first word can be marked.
theorem setBit_ok_iff (h : Regular r) (hk : order < r.ordern) (hb : bit < 64) :
    (∃ r', setBit r order 0 bit = .ok r') ↔ ChildrenFit r order bit := by
  have hfit : ChildrenFit r order bit ↔ ∀ j < order, InBitmap r (0 + j) (wordFrom
      (bit * 2 ^ order / 64) (bit * 2 ^ order / 64) j) := by
    have hword (j : Nat) : childWord order bit j =
        wordFrom (bit * 2 ^ order / 64) (bit * 2 ^ order / 64) j := by
      cases j
      case zero => rfl
      case succ j => rw [childWord, wordFrom, ← Nat.mul_succ, Nat.mul_comm 65]
    simp only [ChildrenFit, InBitmap, hword, Nat.zero_add]
  have hmax : order < maxOrder := Nat.lt_of_lt_of_le hk h.ordern
  have hchildren : (∃ r₁, setChildren (bit * 2 ^ order / 64) (bit * 2 ^ order / 64) 0 order r = .ok r₁) ↔
      ChildrenFit r order bit := by
    rw [setChildren_ok_iff, hfit]
  rw [← hchildren, setChildren_returns_iff, setBit_returns_iff, setBitAccesses, AllIn, List.forall_mem_append,
    List.forall_mem_cons, orderGetIdxFromBit, childBase_div hb hmax]
  refine and_iff_left ⟨h.inBitmap hk, ?_⟩
  have hparent : u8 (orderGetParentBitLbit (if orderIsRightBlock bit then bit - 1 else bit) 0) < 64 := by
    rw [parentBit_eq, u8]
    split <;> omega
  rw [orderGetIdxFromBit, Nat.div_eq_of_lt hparent]
  refine setParents_returns_iff.mp (setParents_ok (by decide) fun j hl hu => h.inBitmap ?_)
  omega

end Fit

section Alloc

theorem allocRegion_ok_iff (ho : r.order[order]? = some m) : allocRegion r order = .ok (ptr, r') ↔
    (m.entryn ≤ m.used ∨ findWord m.entry 0 ((m.entryn + 63) / 64) = .ok none) ∧
        ptr = memoryAllocationFailed ∧ r' = r ∨
      m.used < m.entryn ∧ ∃ idx w, findWord m.entry 0 ((m.entryn + 63) / 64) = .ok (some (idx, w)) ∧
        setBit r order idx (findBit w 0 (min 64 (m.entryn - idx * 64))) = .ok r' ∧
        ptr = orderCalculateAbsAddress order (findBit w 0 (min 64 (m.entryn - idx * 64))) r'.base := by
  unfold allocRegion
  simp only [ho]
  split
  case isTrue hu =>
    constructor
    · intro h
      cases h
      exact .inl ⟨.inl hu, rfl, rfl⟩
    · rintro (⟨_, rfl, rfl⟩ | ⟨hlt, _⟩)
      · rfl
      · exact absurd hlt (Nat.not_lt_of_le hu)
  case isFalse hu =>
    rw [Except.bind_ok_iff]
    constructor
    · rintro ⟨found, hf, h⟩
      rcases found with _ | ⟨idx, w⟩
      · cases h
        exact .inl ⟨.inr hf, rfl, rfl⟩
      · obtain ⟨r₁, hs, h⟩ := Except.bind_ok_iff.mp h
        cases h
        exact .inr ⟨Nat.lt_of_not_le hu, idx, w, hf, hs, rfl⟩
    · rintro (⟨hu' | hf, rfl, rfl⟩ | ⟨_, idx, w, hf, hs, rfl⟩)
      · exact absurd hu' hu
      · exact ⟨none, hf, rfl⟩
      · exact ⟨_, hf, Except.bind_ok_iff.mpr ⟨r', hs, rfl⟩⟩

theorem absAddress_ne_failed {base : Nat} (hp : base % 0x1000 = 0) :
    orderCalculateAbsAddress order bit base ≠ memoryAllocationFailed := by
  unfold orderCalculateAbsAddress u64 orderMinBlockSize memoryAllocationFailed
  omega

-- The address tells the block, within the sizes that a bitmap can have.
theorem absAddress_inj {base : Nat} (hb : bit < 64) (hk : order < maxOrder) (hn : b < 2 ^ 32)
    (h : orderCalculateAbsAddress order bit base = u64 (base + b * orderBlockSize order)) : b = bit := by
  have hpow : 2 ^ order ≤ 512 :=
    Nat.le_trans (Nat.pow_le_pow_right (by decide) (Nat.le_of_lt_succ hk)) (by decide)
  have hbit : bit * 2 ^ order ≤ 63 * 512 := Nat.mul_le_mul (by omega) hpow
  have hblk : b * 2 ^ order ≤ 2 ^ 32 * 512 := Nat.mul_le_mul (Nat.le_of_lt hn) hpow
  rw [orderCalculateAbsAddress, childNum_eq hb hk, orderBlockSize, ← Nat.mul_assoc] at h
  have heq : b * 2 ^ order = bit * 2 ^ order := by
    unfold u64 orderMinBlockSize at h
    omega
  exact Nat.eq_of_mul_eq_mul_right (Nat.two_pow_pos order) heq

theorem absAddress_block {base : Nat} (hb : bit < 64) (hk : order < maxOrder) :
    orderCalculateAbsAddress order bit base = u64 (base + bit * orderBlockSize order) := by
  rw [orderCalculateAbsAddress, childNum_eq hb hk, orderBlockSize, ← Nat.mul_assoc, Nat.add_comm]

theorem full_iff (ho : r.order[order]? = some m) (hp : r.base % 0x1000 = 0) :
    (∃ r', allocRegion r order = .ok (memoryAllocationFailed, r')) ↔ m.entryn ≤ m.used ∨
      ∀ i < (m.entryn + 63) / 64, m.entry[i]? = some 0xFFFFFFFFFFFFFFFF := by
  have hnone := @findWord_none_iff m ((m.entryn + 63) / 64) 0
  simp only [Nat.zero_add] at hnone
  rw [← hnone]
  constructor
  case mp =>
    rintro ⟨r', h⟩
    rcases (allocRegion_ok_iff ho).mp h with ⟨hfail, _⟩ | ⟨_, idx, w, _, hs, hptr⟩
    · exact hfail
    · have hbase : r'.base = r.base := by rw [(setBit_keeps hs).frame]
      rw [hbase] at hptr
      exact absurd hptr.symm (absAddress_ne_failed hp)
  case mpr => exact fun hfail => ⟨r, (allocRegion_ok_iff ho).mpr (.inl ⟨hfail, rfl, rfl⟩)⟩

theorem room_iff (h : Regular r) (hk : order < r.ordern) (ho : r.order[order]? = some m)
    (hp : r.base % 0x1000 = 0) :
    (∃ b ptr r', allocRegion r order = .ok (ptr, r') ∧ ptr ≠ memoryAllocationFailed ∧
      ptr = u64 (r.base + b * orderBlockSize order) ∧ b < m.entryn ∧ m.bit b = false) ↔
      m.used < m.entryn ∧ ∃ b, FirstClear m b ∧ ChildrenFit r order b := by
  obtain ⟨o, ho', hn, hne⟩ := h.orders order hk
  cases ho.symm.trans ho'
  obtain ⟨w₀, hw₀⟩ : ∃ w₀, m.entry[0]? = some w₀ :=
    ⟨_, List.getElem?_eq_getElem (List.length_pos_of_ne_nil hne)⟩
  have hbit {i : Nat} (hi : i < 64) : m.bit i = w₀.getLsbD i := by
    rw [bit_of_word (w := w₀) (by rw [Nat.div_eq_of_lt hi, hw₀]), Nat.mod_eq_of_lt hi]
  have hmax : order < maxOrder := Nat.lt_of_lt_of_le hk h.ordern
  have huniform {i : Nat} {w : Word} (hw : m.entry[i]? = some w) : Uniform w :=
    h.uniform m (List.mem_of_getElem? ho) w (List.mem_of_getElem? hw)
  constructor
  case mp =>
    rintro ⟨b, ptr, r', ha, hfail, hptr, hb, hclear⟩
    rcases (allocRegion_ok_iff ho).mp ha with ⟨_, hf, _⟩ | ⟨hu, idx, w, hf, hs, hptr'⟩
    · exact absurd hf hfail
    · obtain ⟨_, _, hw, hnf, hbefore⟩ := findWord_some hf
      obtain ⟨hle, hset, _⟩ := (huniform hw).findBit (n := min 64 (m.entryn - idx * 64)) hnf
      have hbase : r'.base = r.base := by rw [(setBit_keeps hs).frame]
      rw [hbase, hptr] at hptr'
      obtain rfl := absAddress_inj (by omega) hmax (Nat.lt_trans hb hn) hptr'.symm
      have hidx : idx = 0 := by
        by_contra hpos
        have hfull := hbefore 0 (Nat.zero_le 0) (Nat.pos_of_ne_zero hpos)
        rw [hw₀] at hfull
        rw [hbit (by omega), Option.some.inj hfull, getLsbD_allOnes64 (by omega)] at hclear
        cases hclear
      subst hidx
      cases hw₀.symm.trans hw
      refine ⟨hu, _, ⟨⟨by omega, hb⟩, hclear, fun i hi => ?_⟩, (setBit_ok_iff h hk (by omega)).mp ⟨r', hs⟩⟩
      rw [hbit (by omega)]
      exact hset i hi
  case mpr =>
    rintro ⟨hu, b, hfirst, hfit⟩
    obtain ⟨hlt, hb⟩ := hfirst.lt
    have hclear : w₀.getLsbD b = false := by
      rw [← hbit hlt]
      exact hfirst.clear
    have hnf : w₀ ≠ 0xFFFFFFFFFFFFFFFF := by
      rintro rfl
      rw [getLsbD_allOnes64 hlt] at hclear
      cases hclear
    have hf : findWord m.entry 0 ((m.entryn + 63) / 64) = .ok (some (0, w₀)) := by
      rw [show (m.entryn + 63) / 64 = (m.entryn - 1) / 64 + 1 by omega, findWord]
      simp only [hw₀, if_neg hnf]
    have hfound : findBit w₀ 0 (min 64 (m.entryn - 0 * 64)) = b := by
      obtain ⟨hle, hset, hcl⟩ := (huniform hw₀).findBit (n := min 64 (m.entryn - 0 * 64)) hnf
      rcases Nat.lt_trichotomy (findBit w₀ 0 (min 64 (m.entryn - 0 * 64))) b with hl | heq | hg
      · have hc := hcl (by omega)
        rw [← hbit (by omega), hfirst.before _ hl] at hc
        cases hc
      · exact heq
      · rw [hset b hg] at hclear
        cases hclear
    obtain ⟨r', hs⟩ := (setBit_ok_iff h hk hlt).mpr hfit
    have hbase : r'.base = r.base := by rw [(setBit_keeps hs).frame]
    refine ⟨b, _, r', (allocRegion_ok_iff ho).mpr (.inr ⟨hu, 0, w₀, hf, hfound ▸ hs, rfl⟩), ?_, ?_, hb,
      hfirst.clear⟩
    · rw [hbase]
      exact absAddress_ne_failed hp
    · rw [hbase, hfound]
      exact absAddress_block hlt hmax

-- In every state of a region whose entry starts at a page.
theorem allocRegion_right_iff {entry : MmapEntry} (he : entry.phys % 0x1000 = 0) (hr : Reachable entry r)
    (hk : order < r.ordern) (ho : r.order[order]? = some m) :
    AllocRight r order m ↔ AllocFits r order m := by
  have hp : r.base % 0x1000 = 0 := by
    rw [hr.base]
    exact he
  by_cases hall : ∀ n < m.entryn, m.bit n = true
  case pos =>
    have hnot : ¬∃ n < m.entryn, m.bit n = false := by
      rintro ⟨n, hn, hc⟩
      rw [hall n hn] at hc
      cases hc
    constructor
    · exact fun h => .inl ⟨hall, (full_iff ho hp).mp (h.full hall)⟩
    · rintro (⟨_, hfull⟩ | ⟨_, b, hfirst, _⟩)
      · exact ⟨fun _ => (full_iff ho hp).mpr hfull, fun hroom => absurd hroom hnot⟩
      · exact absurd ⟨b, hfirst.lt.2, hfirst.clear⟩ hnot
  case neg =>
    have hroom : ∃ n < m.entryn, m.bit n = false := by
      by_contra hnone
      apply hall
      intro n hn
      by_contra hset
      exact hnone ⟨n, hn, Bool.eq_false_iff.mpr hset⟩
    constructor
    · exact fun h => .inr ((room_iff hr.regular hk ho hp).mp (h.room hroom))
    · rintro (⟨hset, _⟩ | hfit)
      · exact absurd hset hall
      · exact ⟨fun hset => absurd hset hall, fun _ => (room_iff hr.regular hk ho hp).mpr hfit⟩

end Alloc

section Example

-- After a block of order 0, the second block of order 1 is found.
theorem allocRegion_right_iff_lowEntry : ∃ r, allocRegion (fillRegion zeroRegion lowEntry) 0 = .ok (0x100000, r) ∧
    r.order[1]? = some ⟨2, 1, [1#64]⟩ ∧ AllocRight r 1 ⟨2, 1, [1#64]⟩ := by
  have h : (allocRegion (fillRegion zeroRegion lowEntry) 0).map
      (fun p => (p.1, p.2.ordern, p.2.order[0]?, p.2.order[1]?)) =
        .ok (0x100000, 3, some ⟨4, 1, [1#64]⟩, some ⟨2, 1, [1#64]⟩) :=
    rfl
  obtain ⟨⟨ptr, r⟩, h, hv⟩ := Except.exists_ok_of_map h
  simp only [Prod.mk.injEq] at hv
  obtain ⟨rfl, hord, h₀, h₁⟩ := hv
  have hr : Reachable lowEntry r := .step (l := .alloc 0) (.refl _) trivial (.alloc h)
  refine ⟨r, h, h₁, (allocRegion_right_iff (by decide) hr (by omega) h₁).mpr (.inr ⟨by decide, 1, ?_, ?_⟩)⟩
  · exact ⟨by decide, by decide, by decide⟩
  · intro i hi
    obtain rfl := Nat.lt_one_iff.mp hi
    exact ⟨_, h₀, by decide⟩

-- After two blocks of order 0 the counter of order 1 says that it is full, but its second block is clear.
theorem allocRegion_fails_early : ¬∀ (entry : MmapEntry) (r : MemRegion) (order : Nat) (m : MemOrder),
    entry.phys % 0x1000 = 0 → Reachable entry r → order < r.ordern → r.order[order]? = some m →
    AllocRight r order m := by
  intro hall
  have h : (allocRegion (fillRegion zeroRegion lowEntry) 0 >>= fun p => allocRegion p.2 0).map
      (fun q => (q.2.ordern, q.2.order[1]?, (allocRegion q.2 1).map Prod.fst)) =
        .ok (3, some ⟨2, 2, [1#64]⟩, .ok memoryAllocationFailed) :=
    rfl
  obtain ⟨⟨ptr, r⟩, h, hv⟩ := Except.exists_ok_of_map h
  simp only [Prod.mk.injEq] at hv
  obtain ⟨hord, ho, hfail⟩ := hv
  obtain ⟨⟨ptr₁, r₁⟩, h₁, h₂⟩ := Except.bind_ok_iff.mp h
  have hr : Reachable lowEntry r :=
    .step (l := .alloc 0) (.step (l := .alloc 0) (.refl _) trivial (.alloc h₁)) trivial (.alloc h₂)
  have right := hall lowEntry r 1 _ (by decide) hr (by omega) ho
  obtain ⟨b, ptr', r', ha, hne, _⟩ := right.room ⟨1, by decide, by decide⟩
  rw [ha] at hfail
  exact hne (Except.ok.inj hfail)

end Example

end RoverOS.Pmm
