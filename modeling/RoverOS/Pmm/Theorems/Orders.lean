import RoverOS.Pmm.Theorems.Overlap

-- The order that `allocPhys` takes for a number of bytes: for which requests it is the right one.

namespace RoverOS.Pmm

variable {s s' : Regions} {r r' : MemRegion} {bytes type ptr actual order idx bit : Nat} {flags : BitVec 16}

section Cases

-- The block that `allocRegion` finds in the bitmap of an order.
structure Found (r : MemRegion) (order idx bit : Nat) (o : MemOrder) (w : Word) : Prop where
  order : r.order[order]? = some o
  used  : o.used < o.entryn
  word  : findWord o.entry 0 ((o.entryn + 63) / 64) = .ok (some (idx, w))
  bit   : bit = findBit w 0 (min 64 (o.entryn - idx * 64))

theorem allocRegion_cases (h : allocRegion r order = .ok (ptr, r')) :
    (ptr = memoryAllocationFailed ∧ r' = r) ∨
      ∃ idx bit o w, Found r order idx bit o w ∧ setBit r order idx bit = .ok r' ∧
        ptr = orderCalculateAbsAddress order bit r'.base := by
  unfold allocRegion at h
  split at h
  case h_1 => cases h
  case h_2 o ho =>
    split at h
    case isTrue =>
      cases h
      exact .inl ⟨rfl, rfl⟩
    case isFalse hu =>
      obtain ⟨found, hf, h⟩ := Except.bind_ok_iff.mp h
      rcases found with _ | ⟨idx, w⟩
      · cases h
        exact .inl ⟨rfl, rfl⟩
      · obtain ⟨r₁, hs, h⟩ := Except.bind_ok_iff.mp h
        cases h
        exact .inr ⟨idx, _, o, w, ⟨ho, Nat.lt_of_not_le hu, hf, rfl⟩, hs, rfl⟩

theorem orderFor_le {sz order n : Nat} : orderFor bytes sz order n ≤ order + n := by
  induction n generalizing sz order
  case zero => exact Nat.le_refl _
  case succ n hi =>
    rw [orderFor]
    split
    case isTrue => exact Nat.le_add_right _ _
    case isFalse =>
      apply Nat.le_trans hi
      omega

-- The order that `allocPhys` takes.
def orderOf (bytes : Nat) : Nat :=
  orderFor bytes orderMinBlockSize 0 maxOrder

theorem orderOf_le : orderOf bytes ≤ maxOrder :=
  Nat.le_trans orderFor_le (Nat.le_of_eq (Nat.zero_add _))

-- The end of `allocPhys`, when the region has been chosen.
def allocIn (order : Nat) (s : Regions) : Option Nat → Except Exit ((Nat × Nat) × Regions)
  | none     => .error .halt
  | some use =>
    match s.region[use]? with
    | none   => .error .fault
    | some r => do
      let (ptr, r) ← allocRegion r order
      return ((ptr, orderBlockSize order), { s with region := s.region.set use r })

theorem allocPhys_eq (hl : s.buddyLock = false) : allocPhys bytes type flags s =
    (bestRegion type (strictFlags type flags) (orderOf bytes) 0 none s.region >>=
      allocIn (orderOf bytes) s) := by
  have hle : ¬orderFor bytes orderMinBlockSize 0 maxOrder > maxOrder := Nat.not_lt_of_le orderOf_le
  have hlock : getLock s.buddyLock = .ok () := getLock_of_free hl
  simp only [allocPhys, orderOf, hlock, hle, if_false, bind, Except.bind]
  rcases bestRegion type (strictFlags type flags) _ 0 none s.region with e | best
  · rfl
  · cases best <;> rfl

theorem allocPhys_cases (h : allocPhys bytes type flags s = .ok ((ptr, actual), s')) :
    ∃ i r r', bestRegion type (strictFlags type flags) (orderOf bytes) 0 none s.region = .ok (some i) ∧
      s.region[i]? = some r ∧ allocRegion r (orderOf bytes) = .ok (ptr, r') ∧
      actual = orderBlockSize (orderOf bytes) ∧ s' = { s with region := s.region.set i r' } := by
  have hl : s.buddyLock = false := by
    obtain ⟨_, hlock, _⟩ := Except.bind_ok_iff.mp h
    exact getLock_ok hlock
  rw [allocPhys_eq hl] at h
  obtain ⟨best, hbest, h⟩ := Except.bind_ok_iff.mp h
  rcases best with _ | i
  · cases h
  · simp only [allocIn] at h
    split at h
    case h_1 => cases h
    case h_2 r hr =>
      obtain ⟨⟨ptr', r'⟩, ha, h⟩ := Except.bind_ok_iff.mp h
      cases h
      exact ⟨i, r, r', hbest, hr, ha, rfl, rfl⟩

end Cases

section Size

theorem orderOf_eq : orderOf bytes =
    if bytes ≤ 0x4000 then 0 else if bytes ≤ 0x8000 then 2 else if bytes ≤ 0x20000 then 3
    else if bytes ≤ 0x100000 then 4 else if bytes ≤ 0x1000000 then 5 else if bytes ≤ 0x20000000 then 6
    else if bytes ≤ 0x800000000 then 7 else if bytes ≤ 0x40000000000 then 8
    else if bytes ≤ 0x4000000000000 then 9 else 10 := by
  simp only [orderOf, maxOrder, orderFor, orderMinBlockSize, ge_iff_le, u64, Nat.shiftLeft_eq,
    Nat.reducePow, Nat.reduceMul, Nat.reduceMod, Nat.reduceAdd]
  -- The orders 0 and 1 are compared with the same size.
  by_cases h : bytes ≤ 0x4000
  case pos => simp only [if_pos h]
  case neg => simp only [if_neg h]

-- Only for the sizes up to 16 MB the order matters: no block is larger.
theorem orderOf_cases : (bytes ≤ 0x4000 ∧ orderOf bytes = 0) ∨
    (0x4000 < bytes ∧ bytes ≤ 0x8000 ∧ orderOf bytes = 2) ∨
    (0x8000 < bytes ∧ bytes ≤ 0x20000 ∧ orderOf bytes = 3) ∨
    (0x20000 < bytes ∧ bytes ≤ 0x100000 ∧ orderOf bytes = 4) ∨
    (0x100000 < bytes ∧ bytes ≤ 0x1000000 ∧ orderOf bytes = 5) ∨ 0x1000000 < bytes := by
  rw [orderOf_eq]
  by_cases h0 : bytes ≤ 0x4000
  · exact .inl ⟨h0, if_pos h0⟩
  rw [if_neg h0]
  by_cases h2 : bytes ≤ 0x8000
  · exact .inr (.inl ⟨Nat.not_le.mp h0, h2, if_pos h2⟩)
  rw [if_neg h2]
  by_cases h3 : bytes ≤ 0x20000
  · exact .inr (.inr (.inl ⟨Nat.not_le.mp h2, h3, if_pos h3⟩))
  rw [if_neg h3]
  by_cases h4 : bytes ≤ 0x100000
  · exact .inr (.inr (.inr (.inl ⟨Nat.not_le.mp h3, h4, if_pos h4⟩)))
  rw [if_neg h4]
  by_cases h5 : bytes ≤ 0x1000000
  · exact .inr (.inr (.inr (.inr (.inl ⟨Nat.not_le.mp h4, h5, if_pos h5⟩))))
  · exact .inr (.inr (.inr (.inr (.inr (Nat.not_le.mp h5)))))

theorem orderBlockSize_lt {o : Nat} (ho : o < maxOrder) (h : 0x1000000 < bytes) : orderBlockSize o < bytes := by
  have hpow : 2 ^ o ≤ 2 ^ 9 := Nat.pow_le_pow_right (by decide) (Nat.le_of_lt_succ ho)
  have hsize : orderBlockSize o ≤ orderBlockSize 9 := Nat.mul_le_mul_right orderMinBlockSize hpow
  have hlast : orderBlockSize 9 = 0x800000 := rfl
  omega

-- The sizes for which the order is the smallest one that is enough.
def Fits (bytes : Nat) : Prop :=
  bytes ≤ 0x4000 ∨ 0x10000 < bytes ∧ bytes ≤ 0x40000

-- A block of an order has been marked in one of the regions.
def BlockMarked (order : Nat) (s s' : Regions) : Prop :=
  ∃ i r r' idx bit, s.region[i]? = some r ∧ setBit r order idx bit = .ok r' ∧
    s'.region = s.region.set i r'

-- A block that is returned has the size in `*actual`, which is enough, and as small as can be. What no
-- order is enough for is refused.
structure Enough (bytes type : Nat) (flags : BitVec 16) (s : Regions) : Prop where
  block {ptr actual : Nat} {s' : Regions} : allocPhys bytes type flags s = .ok ((ptr, actual), s') →
    ptr ≠ memoryAllocationFailed → ∃ order, BlockMarked order s s' ∧ actual = orderBlockSize order ∧
      bytes ≤ actual ∧ ∀ o < order, orderBlockSize o < bytes
  large : orderBlockSize (maxOrder - 1) < bytes → ∃ actual s',
    allocPhys bytes type flags s = .ok ((memoryAllocationFailed, actual), s')

theorem orderBlockSize_inj {o o' : Nat} (h : orderBlockSize o = orderBlockSize o') : o = o' :=
  Nat.pow_right_injective (Nat.le_refl 2) (Nat.eq_of_mul_eq_mul_right (by decide) h)

theorem allocPhys_marked (h : allocPhys bytes type flags s = .ok ((ptr, actual), s'))
    (hp : ptr ≠ memoryAllocationFailed) : BlockMarked (orderOf bytes) s s' := by
  obtain ⟨i, r, r', _, hr, ha, _, rfl⟩ := allocPhys_cases h
  rcases allocRegion_cases ha with ⟨hfull, _⟩ | ⟨idx, bit, o, w, _, hs, _⟩
  · exact absurd hfull hp
  · exact ⟨i, r, r', idx, bit, hr, hs, rfl⟩

theorem Fits.enough (hf : Fits bytes) : Enough bytes type flags s := by
  have ho : (bytes ≤ 0x4000 ∧ orderOf bytes = 0) ∨ (0x10000 < bytes ∧ bytes ≤ 0x20000 ∧ orderOf bytes = 3) ∨
      (0x20000 < bytes ∧ bytes ≤ 0x40000 ∧ orderOf bytes = 4) := by
    have hcases := @orderOf_cases bytes
    unfold Fits at hf
    omega
  constructor
  case block =>
    intro ptr actual s' h hp
    obtain ⟨_, _, _, _, _, _, hactual, _⟩ := allocPhys_cases h
    refine ⟨orderOf bytes, allocPhys_marked h hp, hactual, ?_⟩
    rw [hactual]
    rcases ho with ⟨hle, he⟩ | ⟨hlt, hle, he⟩ | ⟨hlt, hle, he⟩
    · rw [he]
      exact ⟨hle, fun o ho => absurd ho (Nat.not_lt_zero o)⟩
    · rw [he]
      refine ⟨hle, fun o ho => Nat.lt_of_le_of_lt ?_ hlt⟩
      exact Nat.mul_le_mul_right _ (Nat.pow_le_pow_right (by decide) (Nat.le_of_lt_succ ho))
    · rw [he]
      refine ⟨hle, fun o ho => Nat.lt_of_le_of_lt ?_ hlt⟩
      exact Nat.mul_le_mul_right _ (Nat.pow_le_pow_right (by decide) (Nat.le_of_lt_succ ho))
  case large =>
    intro hlt
    have hsize : orderBlockSize (maxOrder - 1) = 0x800000 := rfl
    unfold Fits at hf
    omega

end Size

section Large

-- A region of 512 blocks has all ten orders.
def tenOrders : MmapEntry :=
  { magic := 0, flags := 0, type := 1, phys := 0x100000, virt := 0, bytes := 0x800000 }

theorem alloc_tenOrders : ∀ k < maxOrder, ((bestRegion 0 0 k 0 none (initial [tenOrders]).pmm.region >>=
    allocIn k (initial [tenOrders]).pmm).map Prod.fst) = .ok (0x100000, orderBlockSize k) := by
  decide

theorem orderOf_wrong (hf : ¬Fits bytes) (hk : orderOf bytes < maxOrder) :
    orderBlockSize (orderOf bytes) < bytes ∨
      ∃ o < orderOf bytes, bytes ≤ orderBlockSize o := by
  unfold Fits at hf
  rcases @orderOf_cases bytes with ⟨_, _⟩ | ⟨_, hle, he⟩ | ⟨_, _, he⟩ | ⟨_, _, he⟩ | ⟨hlt, _, he⟩ | hlt
  · omega
  · exact .inr ⟨1, by omega, hle⟩
  · have hsize : orderBlockSize 2 = 0x10000 := rfl
    exact .inr ⟨2, by omega, by omega⟩
  · have hsize : orderBlockSize 4 = 0x40000 := rfl
    rw [he]
    exact .inl (by omega)
  · rw [he]
    exact .inl (Nat.lt_of_le_of_lt (by decide) hlt)
  · exact .inl (orderBlockSize_lt hk hlt)

-- The array of orders has no order 10.
theorem alloc_pastOrders (hk : orderOf bytes = maxOrder) :
    allocPhys bytes 0 0 (initial [tenOrders]).pmm = .error .fault := by
  rw [allocPhys_eq rfl, hk]
  rfl

theorem not_enough_tenOrders (hf : ¬Fits bytes) : ¬Enough bytes 0 0 (initial [tenOrders]).pmm := by
  intro he
  rcases Nat.lt_or_eq_of_le (@orderOf_le bytes) with hk | hk
  · have h := alloc_tenOrders _ hk
    rw [← show strictFlags 0 0 = 0 from rfl, ← allocPhys_eq rfl] at h
    obtain ⟨⟨⟨ptr, actual⟩, s'⟩, h, hptr⟩ := Except.exists_ok_of_map h
    cases hptr
    obtain ⟨order, _, hactual, hle, hmin⟩ := he.block h (by decide)
    obtain rfl := orderBlockSize_inj hactual
    rcases orderOf_wrong hf hk with hlt | ⟨o, ho, hbytes⟩
    · exact absurd hle (Nat.not_le_of_lt hlt)
    · exact absurd hbytes (Nat.not_le_of_lt (hmin o ho))
  · have hlarge : orderBlockSize (maxOrder - 1) < bytes := by
      have hsize : orderBlockSize (maxOrder - 1) = 0x800000 := rfl
      have hcases := @orderOf_cases bytes
      rw [hk, maxOrder] at hcases
      omega
    obtain ⟨actual, s', h⟩ := he.large hlarge
    cases (alloc_pastOrders hk).symm.trans h

end Large

-- The sizes that every call serves as it should, when the lock is free.
theorem allocPhys_enough_iff : (∀ (type : Nat) (flags : BitVec 16) (s : Regions), s.buddyLock = false →
    Enough bytes type flags s) ↔ Fits bytes := by
  constructor
  case mp =>
    intro h
    by_contra hf
    exact not_enough_tenOrders hf (h 0 0 _ rfl)
  case mpr => exact fun hf _ _ _ _ => hf.enough

-- A request for 512 KB gets a block of 256 KB.
theorem allocPhys_not_enough : ¬∀ (bytes type : Nat) (flags : BitVec 16) (s : Regions),
    bytes < 2 ^ 64 → s.buddyLock = false → Enough bytes type flags s := by
  intro h
  have hf : ¬Fits 0x80000 := by
    unfold Fits
    decide
  exact not_enough_tenOrders hf (h _ _ _ _ (by decide) rfl)

example : (allocPhys 0x80000 0 0 (initial [tenOrders]).pmm).map Prod.fst = .ok (0x100000, 0x40000) := by rfl

end RoverOS.Pmm
