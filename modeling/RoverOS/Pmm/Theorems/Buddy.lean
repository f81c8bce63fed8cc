import RoverOS.Pmm.Theorems.Overlap

-- The bitmaps of the orders above 0 are to show which of their blocks have a marked leaf. `setBit`
-- and `freeBit` keep this for blocks 0 and 1, and go wrong at the others.

namespace RoverOS.Pmm

open MemRegion

-- Bit `n%64` of `entry[n/64]`.
def MemOrder.bit (o : MemOrder) (n : Nat) : Bool :=
  (o.entry[n / 64]?.getD 0#64).getLsbD (n % 64)

def BuddyInv (r : MemRegion) : Prop :=
  ∀ k < r.ordern, ∀ o l, r.order[k]? = some o → r.order[0]? = some l → ∀ b < o.entryn,
    o.bit b = true ↔ ∃ n, (b * 2 ^ k ≤ n ∧ n < (b + 1) * 2 ^ k) ∧ l.bit n = true

-- The calls of `allocRegion` and `allocPhysAddress`, and those of `freePhys`, which frees at order 0.
inductive BitCall
  | set (order idx bit : Nat)
  | free (idx bit : Nat)

inductive BitStep : MemRegion → BitCall → MemRegion → Prop
  | set {r r' : MemRegion} {order idx bit : Nat} :
    setBit r order idx bit = .ok r' → BitStep r (.set order idx bit) r'
  | free {r r' : MemRegion} {idx bit : Nat} :
    freeBit r 0 idx bit = .ok r' → BitStep r (.free idx bit) r'

-- Block 0 of any order and block 1 of order 0 may be marked. Block 0 may be freed, block 1 when
-- block 0 is clear, and any block when none is marked.
def BitAllowed (r : MemRegion) : BitCall → Prop
  | .set order idx bit => idx = 0 ∧ (bit = 0 ∨ order = 0 ∧ bit = 1)
  | .free idx bit      =>
    (idx = 0 ∧ (bit = 0 ∨ bit = 1 ∧ r.word.getLsbD 0 = false)) ∨ ∀ w ∈ r.leaves.entry, w = 0#64

variable {r r' : MemRegion} {words : Nat → Word} {f : Word → Word} {k n i idx bit : Nat} {m : Word}

-- All bits that are set are in the first word of their order: order `i` has `words i`.
structure Shape (r : MemRegion) (words : Nat → Word) : Prop where
  ordern : r.ordern ≤ maxOrder
  used   : ∀ i < r.ordern, ∃ o n, r.order[i]? = some o ∧ o.entryn ≠ 0 ∧
    o.entry = words i :: List.replicate n 0#64
  unused : ∀ i, r.ordern ≤ i → ∀ o, r.order[i]? = some o → o.entry = []

namespace Shape

theorem congr {words' : Nat → Word} (h : Shape r words) (he : ∀ i < r.ordern, words' i = words i) :
    Shape r words' where
  ordern      := h.ordern
  used i hi   := he i hi ▸ h.used i hi
  unused i hi := h.unused i hi

theorem lt_of_modify (h : Shape r words) (hm : r.modify k idx f n = .ok r') : k < r.ordern := by
  have ⟨o, w, ho, hw, _⟩ := modify_ok hm
  by_contra hk
  rw [h.unused k (by omega) o ho] at hw
  cases hw

theorem modify (h : Shape r words) (hf : idx = 0 ∨ f 0#64 = 0#64)
    (hm : r.modify k idx f n = .ok r') :
    Shape r' (if idx = 0 then Function.update words k (f (words k)) else words) := by
  have hk := h.lt_of_modify hm
  obtain ⟨o, w, ho, hw, he⟩ := modify_ok hm
  obtain ⟨hlt, _⟩ := List.getElem?_eq_some_iff.mp ho
  subst he
  obtain ⟨o', c, ho', hn, hentry⟩ := h.used k hk
  cases Option.some.inj (ho.symm.trans ho')
  have hset : ∃ c, (o.write idx (f w) n).entry =
      (if idx = 0 then Function.update words k (f (words k)) else words) k ::
        List.replicate c 0#64 := by
    refine ⟨c, ?_⟩
    rw [hentry] at hw
    cases idx
    case zero =>
      cases hw
      simp [MemOrder.write, hentry]
    case succ idx =>
      rw [List.getElem?_cons_succ] at hw
      have hw0 : w = 0#64 := List.eq_of_mem_replicate (List.mem_of_getElem? hw)
      have hf0 : f 0#64 = 0#64 := hf.resolve_left (Nat.succ_ne_zero idx)
      simp [MemOrder.write, hentry, hw0, hf0]
  constructor
  case ordern => exact h.ordern
  case used =>
    intro i hi
    by_cases hik : i = k
    case pos =>
      subst hik
      obtain ⟨c, hc⟩ := hset
      exact ⟨_, c, List.getElem?_set_self hlt, hn, hc⟩
    case neg =>
      obtain ⟨o', c, ho', hn', hc⟩ := h.used i hi
      refine ⟨o', c, (List.getElem?_set_ne (Ne.symm hik)).trans ho', hn', ?_⟩
      rw [hc]
      split <;> simp [hik]
  case unused =>
    intro i hi o' ho'
    have hne : k ≠ i := Nat.ne_of_lt (lt_of_lt_of_le hk hi)
    rw [List.getElem?_set_ne hne] at ho'
    exact h.unused i hi o' ho'

theorem modify_zero (h : Shape r words) (hm : r.modify k 0 f n = .ok r') :
    Shape r' (Function.update words k (f (words k))) :=
  h.modify (.inl rfl) hm

theorem mask_zero (h : Shape r fun _ => 0#64) (hm : r.modify k idx (· &&& m) n = .ok r') :
    Shape r' fun _ => 0#64 := by
  have hf : idx = 0 ∨ 0#64 &&& m = 0#64 := .inr BitVec.zero_and
  refine (h.modify (f := (· &&& m)) hf hm).congr fun j _ => ?_
  split <;> simp [Function.update_apply]

theorem ordern_modify (hm : r.modify k idx f n = .ok r') : r'.ordern = r.ordern := by
  rw [(modify_above hm).frame]

end Shape

section Set

theorem setChildren_shape (h : Shape r words) (hs : setChildren 0 0 i n r = .ok r') :
    Shape r' (fun j => if i ≤ j ∧ j < i + n then words j ||| intBit 0 else words j) ∧
      r'.ordern = r.ordern := by
  induction n generalizing i r words
  case zero =>
    cases hs
    exact ⟨h.congr fun j _ => if_neg (by omega), rfl⟩
  case succ n hi =>
    have ⟨r₁, h₁, hs⟩ := Except.bind_ok_iff.mp hs
    have ⟨h', ho⟩ := hi (h.modify_zero h₁) hs
    refine ⟨h'.congr fun j _ => ?_, ho.trans (Shape.ordern_modify h₁)⟩
    by_cases hj : j = i
    case pos => simp [hj]
    case neg =>
      have : (i ≤ j ∧ j < i + (n + 1)) ↔ (i + 1 ≤ j ∧ j < i + 1 + n) := by omega
      simp [this, hj]

theorem setParents_shape (h : Shape r words) (hn : k + n = r.ordern ∨ n = 0)
    (hs : setParents k 0 0 n r = .ok r') :
    Shape r' (fun j => if k ≤ j ∧ j < k + n then words j ||| intBit 0 else words j) := by
  induction n generalizing k r words
  case zero =>
    cases hs
    exact h.congr fun j _ => if_neg (by omega)
  case succ n hi =>
    obtain ⟨o, _, ho, hne, _⟩ := h.used k (by omega)
    unfold setParents at hs
    rw [if_neg (by simp [ho, hne])] at hs
    obtain ⟨r₁, h₁, hs⟩ := Except.bind_ok_iff.mp hs
    have hord := Shape.ordern_modify h₁
    refine (hi (h.modify_zero h₁) (by omega) hs).congr fun j _ => ?_
    by_cases hj : j = k
    case pos => simp [hj]
    case neg =>
      have : (k ≤ j ∧ j < k + (n + 1)) ↔ (k + 1 ≤ j ∧ j < k + 1 + n) := by omega
      simp [this, hj]

theorem setParents_rest (h : Shape r words) (hk : k < r.ordern)
    (hs : setParents (k + 1) 0 0 (r.ordern - (k + 1)) r = .ok r') :
    Shape r' (fun j => if k < j then words j ||| intBit 0 else words j) := by
  have hframe := (setParents_above hs).frame
  refine (setParents_shape h (by omega) hs).congr fun j hj => ?_
  have hj : j < r.ordern := by
    rw [hframe] at hj
    exact hj
  have hiff : k < j ↔ k + 1 ≤ j ∧ j < k + 1 + (r.ordern - (k + 1)) := by omega
  exact if_congr hiff rfl rfl

theorem setBit_zero_shape (h : Shape r words) (hs : setBit r k 0 0 = .ok r') :
    Shape r' (fun j => words j ||| intBit 0) := by
  unfold setBit at hs
  have hc : orderGetChildNum k 0 = 0 := by simp [orderGetChildNum, u64]
  simp only [hc] at hs
  obtain ⟨r₀, h₀, hs⟩ := Except.bind_ok_iff.mp hs
  obtain ⟨r₁, h₁, hs⟩ := Except.bind_ok_iff.mp hs
  obtain ⟨s₀, _⟩ := setChildren_shape h h₀
  have hk := s₀.lt_of_modify h₁
  have hk₁ : k < r₁.ordern := Shape.ordern_modify h₁ ▸ hk
  refine (setParents_rest (s₀.modify_zero h₁) hk₁ hs).congr fun j _ => ?_
  rcases Nat.lt_trichotomy j k with hlt | heq | hgt
  · rw [if_neg (by omega), Function.update_of_ne (by omega), if_pos (by omega)]
  · simp [heq]
  · rw [if_pos hgt, Function.update_of_ne (by omega), if_neg (by omega)]

theorem setBit_one_shape (h : Shape r words) (hs : setBit r 0 0 1 = .ok r') :
    Shape r' (fun j => if j = 0 then words j ||| intBit 1 else words j ||| intBit 0) := by
  unfold setBit at hs
  have ⟨r₀, h₀, hs⟩ := Except.bind_ok_iff.mp hs
  cases h₀
  have ⟨r₁, h₁, hs⟩ := Except.bind_ok_iff.mp hs
  have hk₁ : 0 < r₁.ordern := Shape.ordern_modify h₁ ▸ h.lt_of_modify h₁
  refine (setParents_rest (h.modify_zero h₁) hk₁ hs).congr fun j _ => ?_
  by_cases h0 : j = 0
  case pos => simp [h0]
  case neg => rw [if_neg h0, if_pos (by omega), Function.update_of_ne h0]

end Set

section Free

theorem parentBit_eq_zero (h : bit < 2) : u8 (orderGetParentBitLbit bit 0) = 0 := by
  revert bit
  decide

-- The orders above 0 show at most block 0.
theorem freeParents_shape (h : Shape r words) (hb : ∀ j, k ≤ j → words j = 0#64 ∨ words j = 1#64)
    (hbit : bit < 2) (hs : freeParents k 0 bit n r = .ok r') :
    Shape r' (fun j => if k ≤ j ∧ j < k + n then 0#64 else words j) := by
  induction n generalizing k r words bit
  case zero =>
    cases hs
    exact h.congr fun j _ => if_neg (by omega)
  case succ n hi =>
    unfold freeParents at hs
    simp only [parentBit_eq_zero hbit] at hs
    have ⟨r₁, h₁, hs⟩ := Except.bind_ok_iff.mp hs
    have s₁ := h.modify_zero h₁
    have hclear : words k &&& ~~~intBit 0 = 0#64 := by
      rcases hb k le_rfl with hw | hw <;> rw [hw] <;> decide
    change Shape r₁ (Function.update words k (words k &&& ~~~intBit 0)) at s₁
    rw [hclear] at s₁
    have ⟨o, c, ho, _, hentry⟩ := s₁.used k (Shape.ordern_modify h₁ ▸ h.lt_of_modify h₁)
    split at hs
    case h_1 => cases hs
    case h_2 w hw =>
      have hw : w = 0#64 := by
        simpa [ho, hentry, orderGetIdxFromBit] using hw.symm
      rw [if_neg (by simp [hw])] at hs
      refine (hi s₁ (fun j hj => ?_) (by decide) hs).congr fun j _ => ?_
      · rw [Function.update_of_ne (by omega)]
        exact hb j (by omega)
      · by_cases hj : j = k
        case pos => simp [hj]
        case neg =>
          have : (k ≤ j ∧ j < k + (n + 1)) ↔ (k + 1 ≤ j ∧ j < k + 1 + n) := by omega
          simp [this, hj]

theorem freeParents_zero (h : Shape r fun _ => 0#64) (hs : freeParents k idx bit n r = .ok r') :
    Shape r' fun _ => 0#64 := by
  induction n generalizing k r idx bit
  case zero => cases hs; exact h
  case succ n hi =>
    unfold freeParents at hs
    obtain ⟨r₁, h₁, hs⟩ := Except.bind_ok_iff.mp hs
    have s₁ := h.mask_zero h₁
    split at hs
    case h_1 => cases hs
    case h_2 =>
      split at hs
      case isTrue  => cases hs; exact s₁
      case isFalse => exact hi s₁ hs

theorem freeBit_zero (h : Shape r fun _ => 0#64) (hs : freeBit r k idx bit = .ok r') :
    Shape r' fun _ => 0#64 := by
  unfold freeBit at hs
  have ⟨r₁, h₁, hs⟩ := Except.bind_ok_iff.mp hs
  have s₁ := h.mask_zero h₁
  split at hs
  case h_1 => cases hs
  case h_2 =>
    split at hs
    case isTrue  => cases hs; exact s₁
    case isFalse => exact freeParents_zero s₁ hs

-- A block is freed: if the block that is tested is still marked, nothing else changes.
theorem freeBit_shape (h : Shape r words) (hb : ∀ j, 1 ≤ j → words j = 0#64 ∨ words j = 1#64)
    (hbit : bit < 2) (hs : freeBit r 0 0 bit = .ok r') :
    Shape r' (if words 0 &&& ~~~intBit bit &&& intBit (freeTest bit) ≠ 0#64 then
      Function.update words 0 (words 0 &&& ~~~intBit bit)
    else fun j => if j = 0 then words 0 &&& ~~~intBit bit else 0#64) := by
  unfold freeBit at hs
  have ⟨r₁, h₁, hs⟩ := Except.bind_ok_iff.mp hs
  have s₁ := h.modify_zero h₁
  have ⟨o, c, ho, _, hentry⟩ := s₁.used 0 (Shape.ordern_modify h₁ ▸ h.lt_of_modify h₁)
  split at hs
  case h_1 => cases hs
  case h_2 w hw =>
    have hw : w = words 0 &&& ~~~intBit bit := by
      simpa [ho, hentry] using hw.symm
    subst hw
    split at hs
    case isTrue ht =>
      cases hs
      rw [if_pos ht]
      exact s₁
    case isFalse ht =>
      rw [if_neg ht]
      have hz : u8 0 = 0 := rfl
      rw [hz] at hs
      have hb₁ : ∀ j, 1 ≤ j → Function.update words 0 (words 0 &&& ~~~intBit bit) j = 0#64 ∨
          Function.update words 0 (words 0 &&& ~~~intBit bit) j = 1#64 := by
        intro j hj
        rw [Function.update_of_ne (by omega)]
        exact hb j hj
      have s₂ := freeParents_shape s₁ hb₁ hbit hs
      refine s₂.congr fun j hj => ?_
      have hlt : j < 10 := lt_of_lt_of_le hj s₂.ordern
      by_cases h0 : j = 0
      case pos => simp [h0]
      case neg => rw [if_neg h0, if_pos (by simp only [maxOrder]; omega)]

end Free

section Invariant

-- The words when blocks 0 and 1 are marked or not.
def wordsOf (b₀ b₁ : Bool) (i : Nat) : Word :=
  if i = 0 then (if b₀ then 1#64 else 0#64) ||| (if b₁ then 2#64 else 0#64)
  else if b₀ || b₁ then 1#64 else 0#64

def OnlyFirstTwo (r : MemRegion) : Prop :=
  ∃ b₀ b₁, Shape r (wordsOf b₀ b₁)

theorem wordsOf_above {b₀ b₁ : Bool} (hi : 1 ≤ i) : wordsOf b₀ b₁ i = 0#64 ∨ wordsOf b₀ b₁ i = 1#64 := by
  rw [wordsOf, if_neg (by omega)]
  split
  · exact .inr rfl
  · exact .inl rfl

theorem Shape.onlyFirstTwo (b₀ b₁ : Bool) (h : Shape r words) (h0 : words 0 = wordsOf b₀ b₁ 0)
    (h1 : ∀ j, 1 ≤ j → words j = if b₀ || b₁ then 1#64 else 0#64) : OnlyFirstTwo r := by
  refine ⟨b₀, b₁, h.congr fun j _ => ?_⟩
  by_cases hj : j = 0
  case pos => rw [hj, h0]
  case neg => rw [h1 j (by omega), wordsOf, if_neg hj]

theorem bit_eq {o : MemOrder} {w : Word} (h : o.entry = w :: List.replicate n 0#64) :
    o.bit i = w.getLsbD i := by
  rw [MemOrder.bit, h]
  by_cases hi : i < 64
  case pos => rw [Nat.div_eq_of_lt hi, Nat.mod_eq_of_lt hi]; rfl
  case neg =>
    rw [BitVec.getLsbD_of_ge w i (by omega)]
    have hd : i / 64 = i / 64 - 1 + 1 := by omega
    rw [hd, List.getElem?_cons_succ]
    cases hg : (List.replicate n 0#64)[i / 64 - 1]?
    case none   => simp
    case some v => simp [List.eq_of_mem_replicate (List.mem_of_getElem? hg)]

theorem getLsbD_wordsOf (b₀ b₁ : Bool) :
    (wordsOf b₀ b₁ k).getLsbD i =
      if k = 0 then (b₀ && decide (i = 0)) || (b₁ && decide (i = 1))
      else (b₀ || b₁) && decide (i = 0) := by
  have h₁ : (1#64).getLsbD i = decide (i = 0) := by
    rw [BitVec.getLsbD_one]
    simp
  have h₂ : (2#64).getLsbD i = decide (i = 1) := by
    have h : 2#64 = BitVec.twoPow 64 1 := by decide
    rw [h, BitVec.getLsbD_twoPow]
    simp [eq_comm]
  unfold wordsOf
  split
  case isTrue  => rw [BitVec.getLsbD_or]; cases b₀ <;> cases b₁ <;> simp [h₁, h₂]
  case isFalse => cases b₀ <;> cases b₁ <;> simp [h₁]

theorem OnlyFirstTwo.buddyInv (h : OnlyFirstTwo r) : BuddyInv r := by
  have ⟨b₀, b₁, s⟩ := h
  intro k hk o l ho hl b _
  have ⟨o', _, ho', _, hentry⟩ := s.used k hk
  have ⟨l', _, hl', _, hleaf⟩ := s.used 0 (by omega)
  cases Option.some.inj (ho.symm.trans ho')
  cases Option.some.inj (hl.symm.trans hl')
  simp only [bit_eq hentry, bit_eq hleaf, getLsbD_wordsOf]
  cases k
  case zero =>
    simp only [if_true, Nat.pow_zero, Nat.mul_one]
    constructor
    case mp => exact fun h => ⟨b, ⟨le_rfl, Nat.lt_succ_self b⟩, h⟩
    case mpr =>
      rintro ⟨n, hn, h⟩
      have hnb : n = b := by omega
      exact hnb ▸ h
  case succ k =>
    have hpow : 2 ≤ 2 ^ (k + 1) := by
      have := Nat.one_le_two_pow (n := k)
      omega
    simp only [Nat.succ_ne_zero, if_false, if_true]
    constructor
    case mp =>
      intro h
      have ⟨hb, h0⟩ := Bool.and_eq_true_iff.mp h
      have h0 := of_decide_eq_true h0
      subst h0
      cases b₀
      case true  => exact ⟨0, by omega, rfl⟩
      case false => exact ⟨1, by omega, by simpa using hb⟩
    case mpr =>
      rintro ⟨n, ⟨hl, _⟩, h⟩
      have hn : n < 2 := by
        simp only [Bool.or_eq_true, Bool.and_eq_true, decide_eq_true_eq] at h
        omega
      have hb : b = 0 := by
        by_contra hb
        have := Nat.mul_le_mul (Nat.one_le_iff_ne_zero.mpr hb) hpow
        omega
      cases b₀ <;> cases b₁ <;> simp_all

theorem Shape.leaves_entry (h : Shape r words) (hs : freeBit r 0 idx bit = .ok r') :
    r.leaves.entry = words 0 :: r.leaves.entry.tail := by
  unfold freeBit at hs
  have ⟨_, h₁, _⟩ := Except.bind_ok_iff.mp hs
  have ⟨o, n, ho, _, hentry⟩ := h.used 0 (h.lt_of_modify h₁)
  simp [leaves, ho, hentry]

theorem OnlyFirstTwo.step {c : BitCall} (h : OnlyFirstTwo r) (ha : BitAllowed r c)
    (hs : BitStep r c r') : OnlyFirstTwo r' := by
  have ⟨b₀, b₁, s⟩ := h
  cases hs
  case set order idx bit hs =>
    have ⟨hidx, hbit⟩ := ha
    subst hidx
    rcases hbit with hbit | ⟨hord, hbit⟩
    · subst hbit
      refine ⟨true, b₁, (setBit_zero_shape s hs).congr fun j _ => ?_⟩
      unfold wordsOf
      split <;> cases b₀ <;> cases b₁ <;> decide
    · subst hord hbit
      refine ⟨b₀, true, (setBit_one_shape s hs).congr fun j _ => ?_⟩
      unfold wordsOf
      split <;> cases b₀ <;> cases b₁ <;> decide
  case free idx bit hs =>
    have hentry := s.leaves_entry hs
    rcases ha with ⟨hidx, hbit | ⟨hbit, hclear⟩⟩ | hzero
    · subst hidx hbit
      have s' := freeBit_shape s (fun _ => wordsOf_above) (by decide) hs
      cases b₁
      case false =>
        rw [if_neg (by cases b₀ <;> decide)] at s'
        refine s'.onlyFirstTwo false false ?_ ?_
        · cases b₀ <;> decide
        · exact fun j hj => if_neg (by omega)
      case true =>
        rw [if_pos (by cases b₀ <;> decide)] at s'
        refine s'.onlyFirstTwo false true ?_ ?_
        · cases b₀ <;> decide
        · intro j hj
          rw [Function.update_of_ne (by omega), wordsOf, if_neg (by omega)]
          cases b₀ <;> rfl
    · subst hidx hbit
      have hb₀ : b₀ = false := by
        rw [word, hentry, List.getElem?_cons_zero, Option.getD_some, getLsbD_wordsOf] at hclear
        simpa using hclear
      subst hb₀
      have s' := freeBit_shape s (fun _ => wordsOf_above) (by decide) hs
      rw [if_neg (by cases b₁ <;> decide)] at s'
      refine s'.onlyFirstTwo false false ?_ ?_
      · cases b₁ <;> decide
      · exact fun j hj => if_neg (by omega)
    · have hnone : b₀ = false ∧ b₁ = false := by
        have h0 := hzero (wordsOf b₀ b₁ 0) (by rw [hentry]; exact List.mem_cons_self)
        revert h0
        cases b₀ <;> cases b₁ <;> decide
      rw [hnone.left, hnone.right] at s
      have hw (i : Nat) : wordsOf false false i = 0#64 := by
        unfold wordsOf
        split <;> rfl
      exact ⟨false, false, (freeBit_zero (s.congr fun i _ => (hw i).symm) hs).congr fun i _ => hw i⟩

end Invariant

section Run

theorem getElem?_makeOrders {blc : Nat} {os : List MemOrder} :
    (makeOrders blc os)[i]? =
      os[i]?.map fun o => if blc / 2 ^ i > 0 then newOrder (blc / 2 ^ i) else o := by
  induction os generalizing blc i
  case nil => simp [makeOrders]
  case cons o os hi =>
    cases i
    case zero   => simp [makeOrders]
    case succ i => simp [makeOrders, hi, Nat.div_div_eq_div_mul, Nat.pow_succ, Nat.mul_comm]

theorem lt_countOrders_iff {blc : Nat} : i < countOrders blc n ↔ i < n ∧ blc / 2 ^ i > 0 := by
  induction n generalizing blc i
  case zero => simp [countOrders]
  case succ n hi =>
    unfold countOrders
    by_cases hb : blc > 0
    case pos =>
      rw [if_pos hb]
      cases i
      case zero   => simp [hb]
      case succ i =>
        rw [Nat.succ_lt_succ_iff, hi, Nat.div_div_eq_div_mul, Nat.pow_succ, Nat.mul_comm]
        omega
    case neg =>
      have hb : blc = 0 := by omega
      simp [hb]

theorem countOrders_le {blc : Nat} : countOrders blc n ≤ n := by
  by_contra h
  have := (lt_countOrders_iff (i := n)).mp (Nat.lt_of_not_le h)
  omega

theorem shape_fillRegion {entry : MmapEntry} (h : blocksIn entry.bytes < 2 ^ 32) :
    Shape (fillRegion zeroRegion entry) fun _ => 0#64 where
  ordern := countOrders_le
  used i hi := by
    obtain ⟨hlt, hpos⟩ := lt_countOrders_iff.mp hi
    have hz : (List.replicate maxOrder (α := MemOrder) ⟨0, 0, []⟩)[i]? = some ⟨0, 0, []⟩ := by
      rw [List.getElem?_replicate, if_pos hlt]
    have hle := Nat.div_le_self (blocksIn entry.bytes) (2 ^ i)
    have hne : u32 (blocksIn entry.bytes / 2 ^ i) ≠ 0 := by
      rw [u32_of_lt (by omega)]
      omega
    have hentry (n : Nat) : ∃ c, List.replicate (if n = 0 then 1 else n) 0#64 =
        0#64 :: List.replicate c 0#64 := by
      split
      · exact ⟨0, rfl⟩
      · exact ⟨n - 1, by rw [← List.replicate_succ]; congr 1; omega⟩
    obtain ⟨c, hc⟩ := hentry (blocksIn entry.bytes / 2 ^ i / 64)
    refine ⟨newOrder (blocksIn entry.bytes / 2 ^ i), c, ?_, hne, hc⟩
    simp [fillRegion, getElem?_makeOrders, zeroRegion, hz, hpos]
  unused i hi o ho := by
    simp only [fillRegion, getElem?_makeOrders, zeroRegion, Option.map_eq_some_iff] at ho
    obtain ⟨o', ho', ho⟩ := ho
    have hlt : i < maxOrder := by
      obtain ⟨hlt, _⟩ := List.getElem?_eq_some_iff.mp ho'
      simpa using hlt
    have hn : ¬blocksIn entry.bytes / 2 ^ i > 0 := by
      intro hpos
      have := (lt_countOrders_iff (n := maxOrder)).mpr ⟨hlt, hpos⟩
      simp only [fillRegion] at hi
      omega
    rw [if_neg hn] at ho
    rw [← ho, List.eq_of_mem_replicate (List.mem_of_getElem? ho')]

-- While only blocks 0 and 1 are marked, the orders agree with the leaves.
theorem buddyInv_of_steps {entry : MmapEntry} (hb : blocksIn entry.bytes < 2 ^ 32)
    (h : Run.Steps BitStep BitAllowed (fillRegion zeroRegion entry) r) : BuddyInv r := by
  have hw (i : Nat) : wordsOf false false i = 0#64 := by
    unfold wordsOf
    split <;> rfl
  have init : OnlyFirstTwo (fillRegion zeroRegion entry) :=
    ⟨false, false, (shape_fillRegion hb).congr fun i _ => hw i⟩
  exact (h.invariant init OnlyFirstTwo.step).buddyInv

-- Block 1 is marked.
theorem buddyInv_of_steps_lowEntry :
    ∃ r, Run.Steps BitStep BitAllowed (fillRegion zeroRegion lowEntry) r ∧ r.word = 2#64 ∧
      BuddyInv r := by
  have h : (setBit (fillRegion zeroRegion lowEntry) 0 0 1).map (·.word) = .ok 2#64 := rfl
  have ⟨r, h, hw⟩ := Except.exists_ok_of_map h
  have steps : Run.Steps BitStep BitAllowed (fillRegion zeroRegion lowEntry) r :=
    .step (l := .set 0 0 1) (.refl _) ⟨rfl, .inr ⟨rfl, rfl⟩⟩ (.set h)
  exact ⟨r, steps, hw, buddyInv_of_steps (by decide) steps⟩

-- Block 2 is marked, and its parent is left clear.
theorem not_buddyInv_of_steps :
    ¬∀ (entry : MmapEntry) (r : MemRegion), blocksIn entry.bytes < 2 ^ 32 →
      Run.Steps BitStep (fun _ _ => True) (fillRegion zeroRegion entry) r → BuddyInv r := by
  intro hc
  have h : (setBit (fillRegion zeroRegion lowEntry) 0 0 2).map
      (fun r => (r.ordern, r.order[0]?, r.order[1]?)) =
        .ok (3, some ⟨4, 1, [4#64]⟩, some ⟨2, 1, [1#64]⟩) :=
    rfl
  have ⟨r, h, hv⟩ := Except.exists_ok_of_map h
  simp only [Prod.mk.injEq] at hv
  have ⟨hord, hl, ho⟩ := hv
  have inv := hc lowEntry r (by decide) (.step (l := .set 0 0 2) (.refl _) trivial (.set h))
  have iff := inv 1 (by omega) _ _ ho hl 1 (by decide)
  exact absurd (iff.mpr ⟨2, by decide, by decide⟩) (by decide)

end Run

end RoverOS.Pmm
