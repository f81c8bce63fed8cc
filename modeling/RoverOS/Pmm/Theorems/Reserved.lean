import RoverOS.Pmm.Theorems.Access

-- Which bits of a new region `createRegion` marks in all of its orders, and when these keep every order from
-- handing out a block that the bootloader's allocations are in.

namespace RoverOS.Pmm

open MemRegion

-- Marking `bit` marks block `n`: the mask is an `int`.
def Hits (bit n : Nat) : Prop :=
  u32 (orderGetIdxFromBit bit) = n / 64 ∧ (intBit (bit % 64)).getLsbD (n % 64) = true

def nextBlock (ptr : Nat) : Nat :=
  u64 (ptr + orderMinBlockSize)

-- The loop over `k` blocks from `ptr` on reaches block `n` of a region at `base`.
def Reaches (ptr k base n : Nat) : Prop :=
  ∃ j < k, Hits (orderAddressToBit (nextBlock^[j] ptr) base) n

-- The filter of `createRegion`.
def Accepts (entry a : MmapEntry) : Prop :=
  ¬(a.phys < entry.phys ∨ u64 (a.phys + a.bytes) > u64 (entry.phys + entry.bytes))

-- It marks block `b`.
def Visited (ptr k base b : Nat) : Prop :=
  ∃ j < k, b = orderAddressToBit (nextBlock^[j] ptr) base

-- For the allocation `a`, block `b` of region `rn` at `base` is marked.
def Marks (region : List MemRegion) (rn base : Nat) (a : MmapEntry) (b : Nat) : Prop :=
  regionAround a.phys region = some rn ∧ Visited (kalign a.phys) (blocksFor a.bytes) base b

-- What it takes for that when region `rn` is filled from `entry`: the filter lets `a` pass, `a` begins
-- behind the first byte of the region, in no region before it, and the loop reaches the block.
structure Reserving (region : List MemRegion) (rn : Nat) (entry a : MmapEntry) (n : Nat) : Prop where
  above   : entry.phys < a.phys
  below   : a.phys < u64 (entry.phys + entry.bytes)
  ends    : u64 (a.phys + a.bytes) ≤ u64 (entry.phys + entry.bytes)
  first   : ∀ i < rn, ∀ r, region[i]? = some r → ¬(r.base < a.phys ∧ a.phys < r.limit)
  reaches : Reaches (kalign a.phys) (blocksFor a.bytes) entry.phys n

-- A byte of the allocation `a` is in block `n` of the region.
def Meets (a : MmapEntry) (base n : Nat) : Prop :=
  ∃ x, (a.phys ≤ x ∧ x < a.phys + a.bytes) ∧
    base + n * orderMinBlockSize ≤ x ∧ x < base + (n + 1) * orderMinBlockSize

-- Order `k` of a region.
def orderAt (r : MemRegion) (k : Nat) : MemOrder :=
  r.order[k]?.getD { entryn := 0, used := 0, entry := [] }

-- In every order that `allocRegion` may take a block from, the block that `n` is in is marked.
def Withheld (r : MemRegion) (n : Nat) : Prop :=
  ∀ k < r.ordern, n / 2 ^ k < r.blockCount / 2 ^ k → (orderAt r k).bit (n / 2 ^ k) = true

def AllReserved (amap : List MmapEntry) (r : MemRegion) : Prop :=
  ∀ n < r.blockCount, ∀ a ∈ amap, Meets a r.base n → Withheld r n

variable {r r' r'' old : MemRegion} {region region' : List MemRegion} {s s' : Regions}
variable {B C : Nat → Prop} {k n b idx bit ptr rn addr bytes ret : Nat} {f : Word → Word} {m : Word}
variable {entry a : MmapEntry} {amap : List MmapEntry} {o : MemOrder} {w : Nat × Nat}

section Parents

-- The mask that is set in a word has bit `n` of the order.
def MaskAt (w : Nat × Nat) (n : Nat) : Prop :=
  w.1 = n / 64 ∧ (intBit w.2).getLsbD (n % 64) = true

-- The word and the bit of it that the second loop of `setBit` goes on with.
def parentOf (w : Nat × Nat) : Nat × Nat :=
  (orderGetIdxFromBit (u8 (orderGetParentBitLbit w.2 w.1)), u8 (orderGetParentBitLbit w.2 w.1) % 64)

-- Those it begins with: the bit is divided by 64, as the word is.
def firstParent (b : Nat) : Nat × Nat :=
  (u8 (b / 2) / 64, u8 (b / 2) / 64)

-- The second loop comes to order `k`.
def Climbs (r : MemRegion) (k : Nat) : Prop :=
  k < r.ordern ∧ ∀ i, 1 ≤ i → i ≤ k → r.order[i]?.map (·.entryn) ≠ some 0

-- Marking block `b` of order 0 marks bit `n` of order `k`.
def HitsAt (r : MemRegion) (b : Nat) : Nat → Nat → Prop
  | 0,     n => Hits b n
  | k + 1, n => Climbs r (k + 1) ∧ MaskAt (parentOf^[k] (firstParent b)) n

theorem maskAt_iff : MaskAt w n ↔ w.1 = n / 64 ∧ (w.2 % 32 = n % 64 ∨ w.2 % 32 = 31 ∧ 31 < n % 64) := by
  rw [MaskAt, getLsbD_intBit_iff (Nat.mod_lt n (by decide))]

theorem firstParent_cases (b : Nat) : firstParent b = (0, 0) ∨ firstParent b = (1, 1) ∨
    firstParent b = (2, 2) ∨ firstParent b = (3, 3) := by
  have hle : u8 (b / 2) / 64 ≤ 3 := by
    unfold u8
    omega
  unfold firstParent
  generalize u8 (b / 2) / 64 = q at hle
  rcases (by omega : q = 0 ∨ q = 1 ∨ q = 2 ∨ q = 3) with rfl | rfl | rfl | rfl <;> simp

theorem maskAt_first (h : MaskAt (firstParent b) n) : n = 0 ∨ n = 65 ∨ n = 130 ∨ n = 195 := by
  rw [maskAt_iff] at h
  rcases firstParent_cases b with he | he | he | he
  all_goals
    rw [he] at h
    simp only at h
    omega

theorem maskAt_second (h : MaskAt (parentOf (firstParent b)) n) : n = 0 ∨ n = 65 := by
  rw [maskAt_iff] at h
  rcases firstParent_cases b with he | he | he | he
  all_goals
    rw [he] at h
    simp only [parentOf, parentBit_eq, orderGetIdxFromBit, u8] at h
    omega

theorem maskAt_third (h : MaskAt (parentOf (parentOf (firstParent b))) n) : n = 0 ∨ n = 16 := by
  rw [maskAt_iff] at h
  rcases firstParent_cases b with he | he | he | he
  all_goals
    rw [he] at h
    simp only [parentOf, parentBit_eq, orderGetIdxFromBit, u8] at h
    omega

-- From the first two blocks on, all parents are the first block of their order.
theorem parents_zero (h : firstParent b = (0, 0)) : parentOf^[k] (firstParent b) = (0, 0) := by
  rw [h]
  exact Function.iterate_fixed rfl k

end Parents

-- The blocks that `B` holds of were marked, one after the other.
structure Marked (B : Nat → Prop) (r r' : MemRegion) : Prop where
  keeps : Keeps r r'
  bit k n : (orderAt r' k).bit n = true ↔ (orderAt r k).bit n = true ∨ ∃ b, B b ∧ HitsAt r b k n

theorem Keeps.climbs_iff (h : Keeps r r') : Climbs r' k ↔ Climbs r k := by
  simp only [Climbs, h.entryn_eq]
  rw [h.frame]

theorem Keeps.hitsAt_iff (h : Keeps r r') : HitsAt r' b k n ↔ HitsAt r b k n := by
  cases k
  case zero   => rfl
  case succ k => rw [HitsAt, HitsAt, h.climbs_iff]

namespace Marked

theorem refl (r : MemRegion) : Marked (fun _ => False) r r :=
  ⟨.refl r, fun _ _ => by simp⟩

theorem trans (h : Marked B r r') (h' : Marked C r' r'') : Marked (fun b => B b ∨ C b) r r'' where
  keeps   := h.keeps.trans h'.keeps
  bit k n := by
    simp only [h'.bit, h.bit, h.keeps.hitsAt_iff, or_assoc, or_and_right, exists_or]

theorem congr (h : Marked B r r') (hb : ∀ b, B b ↔ C b) : Marked C r r' where
  keeps   := h.keeps
  bit k n := by simp only [h.bit, hb]

theorem leaf (h : Marked B r r') : r'.leaves.bit n = true ↔ r.leaves.bit n = true ∨ ∃ b, B b ∧ Hits b n :=
  h.bit 0 n

end Marked

section Leaves

theorem bit_write {v : Word} (h : o.entry[idx]? = some v) :
    (o.write idx (v ||| m) k).bit n = true ↔
      o.bit n = true ∨ idx = n / 64 ∧ m.getLsbD (n % 64) = true := by
  have ⟨hlt, _⟩ := List.getElem?_eq_some_iff.mp h
  by_cases hi : idx = n / 64
  case pos =>
    subst hi
    simp [MemOrder.bit, MemOrder.write, List.getElem?_set_self hlt, h]
  case neg =>
    simp [MemOrder.bit, MemOrder.write, List.getElem?_set_ne hi, hi]

theorem modify_bit {j : Nat} (h : r.modify k idx (· ||| intBit bit) j = .ok r') (i n : Nat) :
    (orderAt r' i).bit n = true ↔ (orderAt r i).bit n = true ∨ i = k ∧ MaskAt (idx, bit) n := by
  obtain ⟨o, w, ho, hw, rfl⟩ := modify_ok h
  obtain ⟨hlt, _⟩ := List.getElem?_eq_some_iff.mp ho
  by_cases hi : i = k
  case pos =>
    subst hi
    simp only [orderAt, List.getElem?_set_self hlt, ho, Option.getD_some, bit_write hw, true_and]
    rfl
  case neg => simp only [orderAt, List.getElem?_set_ne (Ne.symm hi), hi, false_and, or_false]

theorem setParents_bit (h : setParents k w.1 w.2 n r = .ok r') (i m : Nat) :
    (orderAt r' i).bit m = true ↔ (orderAt r i).bit m = true ∨
      ∃ j < n, (∀ t ≤ j, r.order[k + t]?.map (·.entryn) ≠ some 0) ∧ i = k + j ∧ MaskAt (parentOf^[j] w) m := by
  induction n generalizing k w r
  case zero =>
    cases h
    simp
  case succ n hi =>
    unfold setParents at h
    split at h
    case isTrue hz =>
      cases h
      refine (or_iff_left ?_).symm
      rintro ⟨j, _, hne, _⟩
      exact hne 0 (Nat.zero_le j) hz
    case isFalse hz =>
      obtain ⟨r₁, h₁, h⟩ := Except.bind_ok_iff.mp h
      rw [hi (w := parentOf w) h, modify_bit h₁, or_assoc]
      simp only [(Keeps.set h₁).entryn_eq, ← Function.iterate_succ_apply]
      refine or_congr_right ?_
      constructor
      case mp =>
        rintro (⟨rfl, hm⟩ | ⟨j, hj, hne, rfl, hm⟩)
        · exact ⟨0, Nat.succ_pos n, fun t ht => by rwa [Nat.le_zero.mp ht], rfl, hm⟩
        · refine ⟨j + 1, Nat.succ_lt_succ hj, fun t ht => ?_, by omega, hm⟩
          rcases t with _ | t
          · exact hz
          · rw [← Nat.succ_add_eq_add_succ]
            exact hne t (Nat.le_of_succ_le_succ ht)
      case mpr =>
        rintro ⟨j, hj, hne, rfl, hm⟩
        rcases j with _ | j
        · exact .inl ⟨rfl, hm⟩
        · refine .inr ⟨j, Nat.lt_of_succ_lt_succ hj, fun t ht => ?_, by omega, hm⟩
          rw [Nat.succ_add_eq_add_succ]
          exact hne (t + 1) (Nat.succ_le_succ ht)

theorem setBit_marked (h : setBit r 0 (u32 (b / 64)) (b % 64) = .ok r') : Marked (· = b) r r' := by
  refine ⟨setBit_keeps h, fun i m => ?_⟩
  obtain ⟨r₀, h₀, h⟩ := Except.bind_ok_iff.mp h
  cases h₀
  obtain ⟨r₁, h₁, h⟩ := Except.bind_ok_iff.mp h
  have hfirst : u8 ((u32 (b / 64) * 64 + b % 64) / 2) = u8 (b / 2) := by
    unfold u8 u32
    omega
  have hord : r₁.ordern = r.ordern := by rw [(Keeps.set h₁).frame]
  simp only [parentOf_left, hfirst, hord] at h
  rw [setParents_bit (w := firstParent b) h, modify_bit h₁, or_assoc]
  simp only [(Keeps.set h₁).entryn_eq, exists_eq_left]
  refine or_congr_right ?_
  cases i
  case zero =>
    simp only [true_and, HitsAt, Hits, MaskAt, orderGetIdxFromBit]
    refine or_iff_left ?_
    rintro ⟨j, _, _, hj, _⟩
    omega
  case succ i =>
    simp only [Nat.succ_ne_zero, false_and, false_or, HitsAt, Climbs]
    constructor
    case mp =>
      rintro ⟨j, hj, hne, hi, hm⟩
      have hij : j = i := by omega
      subst hij
      refine ⟨⟨by omega, fun t ht hle => ?_⟩, hm⟩
      have hat := hne (t - 1) (by omega)
      rwa [show 0 + 1 + (t - 1) = t by omega] at hat
    case mpr =>
      rintro ⟨⟨hlt, hne⟩, hm⟩
      exact ⟨i, by omega, fun t ht => hne _ (by omega) (by omega), by omega, hm⟩

theorem reaches_iff {base : Nat} : Reaches ptr k base n ↔ ∃ b, Visited ptr k base b ∧ Hits b n := by
  constructor
  case mp =>
    rintro ⟨j, hj, h⟩
    exact ⟨_, ⟨j, hj, rfl⟩, h⟩
  case mpr =>
    rintro ⟨_, ⟨j, hj, rfl⟩, h⟩
    exact ⟨j, hj, h⟩

theorem visited_succ {base : Nat} : Visited ptr (k + 1) base b ↔
    b = orderAddressToBit ptr base ∨ Visited (nextBlock ptr) k base b := by
  constructor
  case mp =>
    rintro ⟨j, hj, h⟩
    cases j
    case zero   => exact .inl h
    case succ j => exact .inr ⟨j, Nat.lt_of_succ_lt_succ hj, h⟩
  case mpr =>
    rintro (h | ⟨j, hj, h⟩)
    · exact ⟨0, Nat.succ_pos k, h⟩
    · exact ⟨j + 1, Nat.succ_lt_succ hj, h⟩

theorem reserveBlocks_marked (h : reserveBlocks ptr k r = .ok r') :
    Marked (Visited ptr k r.base) r r' := by
  induction k generalizing ptr r
  case zero =>
    cases h
    exact (Marked.refl _).congr fun b => by simp [Visited]
  case succ k hi =>
    have ⟨r₁, h₁, h⟩ := Except.bind_ok_iff.mp h
    have hm := setBit_marked h₁
    have hb : r₁.base = r.base := by rw [hm.keeps.frame]
    exact (hm.trans (hb ▸ hi h)).congr fun b => visited_succ.symm

end Leaves

section Table

-- A region without its orders.
def outline (r : MemRegion) : MemRegion :=
  { r with order := [] }

def outlines (region : List MemRegion) : List MemRegion :=
  region.map outline

theorem outlines_set (hr : region[k]? = some r) (h : outline r' = outline r) :
    outlines (region.set k r') = outlines region := by
  apply List.ext_getElem?
  intro i
  simp only [outlines, List.getElem?_map]
  by_cases hi : k = i
  case neg => rw [List.getElem?_set_ne hi]
  case pos =>
    subst hi
    have ⟨hlt, _⟩ := List.getElem?_eq_some_iff.mp hr
    rw [List.getElem?_set_self hlt, hr, Option.map_some, h, Option.map_some]

theorem Marked.outline_eq (h : Marked B r r') : outline r' = outline r := by
  rw [h.keeps.frame]
  rfl

theorem regionAround_congr (h : outlines region' = outlines region) :
    regionAround addr region' = regionAround addr region := by
  have hd (region : List MemRegion) : regionAround addr region =
      (outlines region).findIdx? fun r => decide (r.base < addr ∧ r.limit > addr) := by
    rw [regionAround, outlines, List.findIdx?_map]
    rfl
  rw [hd, hd, h]

-- Region `rn` is `r` before and `r'` after, and no region has moved.
structure Passes (B : Nat → Prop) (rn : Nat) (r : MemRegion) (region region' : List MemRegion) : Prop where
  same   : outlines region' = outlines region
  marked : ∃ r', region'[rn]? = some r' ∧ Marked B r r'

theorem allocPhysAddress_passes (hr : s.region[rn]? = some r)
    (h : allocPhysAddress a.phys a.bytes s = .ok (ret, s')) :
    Passes (Marks s.region rn r.base a) rn r s.region s'.region := by
  rcases allocPhysAddress_ok h with ⟨hn, _, rfl⟩ | ⟨i, x, x', hi, hx, hb, _, rfl⟩
  case inl =>
    exact ⟨rfl, r, hr, (Marked.refl r).congr fun b => by simp [Marks, hn]⟩
  case inr =>
    have hm := reserveBlocks_marked hb
    refine ⟨outlines_set hx hm.outline_eq, ?_⟩
    by_cases he : i = rn
    case pos =>
      subst he
      have ⟨hlt, _⟩ := List.getElem?_eq_some_iff.mp hx
      cases hr.symm.trans hx
      exact ⟨x', List.getElem?_set_self hlt, hm.congr fun b => by simp [Marks, hi]⟩
    case neg =>
      refine ⟨r, (List.getElem?_set_ne he).trans hr, (Marked.refl r).congr fun b => ?_⟩
      simp [Marks, hi, he]

theorem reserveAll_passes (hr : s.region[rn]? = some r) (h : reserveAll entry amap s = .ok s') :
    Passes (fun b => ∃ a ∈ amap, Accepts entry a ∧ Marks s.region rn r.base a b) rn r
      s.region s'.region := by
  induction amap generalizing s r
  case nil =>
    cases h
    exact ⟨rfl, r, hr, (Marked.refl r).congr fun b => by simp⟩
  case cons a amap hi =>
    unfold reserveAll at h
    split at h
    case isTrue ha =>
      obtain ⟨hb, r', hr', hm⟩ := hi hr h
      have hs : ¬Accepts entry a := not_not_intro ha
      exact ⟨hb, r', hr', hm.congr fun b => by simp [hs]⟩
    case isFalse ha =>
      obtain ⟨⟨ret, s₁⟩, h₁, h⟩ := Except.bind_ok_iff.mp h
      obtain ⟨hb₁, r₁, hr₁, hm₁⟩ := allocPhysAddress_passes hr h₁
      obtain ⟨hb, r', hr', hm⟩ := hi hr₁ h
      have hbase : r₁.base = r.base := by rw [hm₁.keeps.frame]
      refine ⟨hb.trans hb₁, r', hr', (hm₁.trans hm).congr fun b => ?_⟩
      have hs : Accepts entry a := ha
      simp [Marks, regionAround_congr hb₁, hbase, hs]

end Table

section New

-- No bit of a new region is set.
theorem bit_fillRegion (ho : old.order.length = maxOrder) (hk : k < (fillRegion old entry).ordern) :
    (orderAt (fillRegion old entry) k).bit n = false := by
  rw [orderAt, fillRegion_order ho hk, Option.getD_some, MemOrder.bit, newOrder]
  generalize (if blocksIn entry.bytes / 2 ^ k / 64 = 0 then 1 else blocksIn entry.bytes / 2 ^ k / 64) = c
  cases hg : (List.replicate c 0#64)[n / 64]?
  case none   => simp
  case some w => simp [List.eq_of_mem_replicate (List.mem_of_getElem? hg)]

theorem createRegion_marked (hr : s.region[rn]? = some old) (h : createRegion rn entry amap s = .ok s') :
    ∃ r', s'.region[rn]? = some r' ∧ Marked (fun b => ∃ a ∈ amap, Accepts entry a ∧
      Marks (s.region.set rn (fillRegion old entry)) rn entry.phys a b) (fillRegion old entry) r' := by
  have ⟨hlt, _⟩ := List.getElem?_eq_some_iff.mp hr
  rw [createRegion, hr] at h
  have hp := reserveAll_passes (List.getElem?_set_self hlt) h
  exact hp.marked

theorem regionAround_new (hr : region[rn]? = some old) :
    regionAround addr (region.set rn (fillRegion old entry)) = some rn ↔
      (entry.phys < addr ∧ addr < u64 (entry.phys + entry.bytes)) ∧
        ∀ i < rn, ∀ r, region[i]? = some r → ¬(r.base < addr ∧ addr < r.limit) := by
  obtain ⟨hlt, _⟩ := List.getElem?_eq_some_iff.mp hr
  have hlen : rn < (region.set rn (fillRegion old entry)).length := by rwa [List.length_set]
  rw [regionAround, List.findIdx?_eq_some_iff_getElem]
  constructor
  case mp =>
    rintro ⟨_, hat, hbefore⟩
    refine ⟨by simpa [fillRegion] using hat, fun i hi r hg => ?_⟩
    obtain ⟨hil, he⟩ := List.getElem?_eq_some_iff.mp hg
    have hb := hbefore i hi
    rw [List.getElem_set_ne (by omega), he] at hb
    simpa using hb
  case mpr =>
    rintro ⟨hat, hbefore⟩
    refine ⟨hlen, by simpa [fillRegion] using hat, fun i hi => ?_⟩
    have hb := hbefore i hi _ (List.getElem?_eq_getElem (by omega))
    rw [List.getElem_set_ne (by omega)]
    simpa using hb

theorem reserving_iff (hr : region[rn]? = some old) : Reserving region rn entry a n ↔ Accepts entry a ∧
    ∃ b, Marks (region.set rn (fillRegion old entry)) rn entry.phys a b ∧ Hits b n := by
  simp only [Marks, and_assoc, exists_and_left]
  rw [regionAround_new hr, Accepts, ← reaches_iff]
  constructor
  case mp =>
    rintro ⟨h₁, h₂, h₃, h₄, h₅⟩
    exact ⟨by omega, ⟨⟨h₁, h₂⟩, h₄⟩, h₅⟩
  case mpr =>
    rintro ⟨h₁, ⟨⟨h₂, h₃⟩, h₄⟩, h₅⟩
    exact ⟨h₂, h₃, by omega, h₄, h₅⟩

end New

section Withheld

theorem blocksIn_even : blocksIn bytes % 2 = 0 := by
  unfold blocksIn
  simp only
  split <;> omega

theorem bit_lt (h : o.bit n = true) : n / 64 < o.entry.length := by
  by_contra hge
  rw [MemOrder.bit, List.getElem?_eq_none (Nat.le_of_not_lt hge)] at h
  simp at h

theorem hits_first (hn : n < 2) (h : Hits b n) : firstParent b = (0, 0) := by
  obtain ⟨hidx, hmask⟩ := h
  rw [getLsbD_intBit_iff (Nat.mod_lt n (by decide))] at hmask
  have hq : u8 (b / 2) / 64 = 0 := by
    unfold orderGetIdxFromBit u32 at hidx
    unfold u8
    omega
  rw [firstParent, hq]

theorem Marked.blockCount (hm : Marked B (fillRegion old entry) r) : r.blockCount = blocksIn entry.bytes := by
  rw [hm.keeps.frame]
  rfl

theorem Marked.ordern (hm : Marked B (fillRegion old entry) r) : r.ordern = (fillRegion old entry).ordern := by
  rw [hm.keeps.frame]

variable (ho : old.order.length = maxOrder) (hm : Marked B (fillRegion old entry) r)

include ho hm

theorem Marked.bit_iff (hk : k < (fillRegion old entry).ordern) : (orderAt r k).bit n = true ↔
    ∃ b, B b ∧ HitsAt (fillRegion old entry) b k n := by
  rw [hm.bit, bit_fillRegion ho hk]
  simp

theorem Marked.bit_word (hk : k < (fillRegion old entry).ordern) (h : (orderAt r k).bit n = true) :
    n / 64 < words (blocksIn entry.bytes / 2 ^ k) := by
  obtain ⟨o, ho', _, hlen⟩ := hm.keeps.sizes (fillRegion_order ho hk)
  have hlt := bit_lt h
  rwa [orderAt, ho', Option.getD_some, hlen, newOrder, List.length_replicate] at hlt

-- From block 2 on, one of the orders 1 to 3 leaves the block that it is in clear.
theorem Marked.withheld_lt (hn : n < blocksIn entry.bytes) (h : Withheld r n) : n < 2 := by
  by_contra hge
  have heven := @blocksIn_even entry.bytes
  have hblocks := hm.blockCount
  have hordern := hm.ordern
  have parent {k : Nat} (hk : k + 1 < maxOrder) (hlt : n / 2 ^ (k + 1) < blocksIn entry.bytes / 2 ^ (k + 1)) :
      (orderAt r (k + 1)).bit (n / 2 ^ (k + 1)) = true ∧
        ∃ b, MaskAt (parentOf^[k] (firstParent b)) (n / 2 ^ (k + 1)) := by
    have hat : k + 1 < (fillRegion old entry).ordern := lt_countOrders_iff.mpr ⟨hk, Nat.zero_lt_of_lt hlt⟩
    have hbit := h (k + 1) (hordern ▸ hat) (hblocks ▸ hlt)
    obtain ⟨b, _, _, hmask⟩ := (hm.bit_iff ho hat).mp hbit
    exact ⟨hbit, b, hmask⟩
  obtain ⟨hbit, b, h₁⟩ := parent (k := 0) (by decide) (by omega)
  have hat : 1 < (fillRegion old entry).ordern := lt_countOrders_iff.mpr ⟨by decide, by omega⟩
  have hword := hm.bit_word ho hat hbit
  rcases maskAt_first h₁ with h₁ | h₁ | h₁ | h₁
  case inl => omega
  case inr.inl =>
    obtain ⟨_, b, h₂⟩ := parent (k := 1) (by decide) (by omega)
    rcases maskAt_second h₂ with h₂ | h₂ <;> omega
  case inr.inr.inl =>
    have hlarge : 384 ≤ blocksIn entry.bytes := by
      unfold words at hword
      split at hword <;> omega
    obtain ⟨_, b, h₃⟩ := parent (k := 2) (by decide) (by omega)
    rcases maskAt_third h₃ with h₃ | h₃ <;> omega
  case inr.inr.inr =>
    obtain ⟨_, b, h₂⟩ := parent (k := 1) (by decide) (by omega)
    rcases maskAt_second h₂ with h₂ | h₂ <;> omega

theorem Marked.withheld_iff (hn : n < blocksIn entry.bytes) : Withheld r n ↔ n < 2 ∧ (∃ b, B b ∧ Hits b n) ∧
    ∀ k, 1 ≤ k → k < countOrders (blocksIn entry.bytes) maxOrder → u32 (blocksIn entry.bytes / 2 ^ k) ≠ 0 := by
  have hblocks := hm.blockCount
  have hordern := hm.ordern
  have hzero : 0 < (fillRegion old entry).ordern :=
    lt_countOrders_iff.mpr ⟨by decide, by rw [Nat.pow_zero, Nat.div_one]; exact Nat.zero_lt_of_lt hn⟩
  have counted {k : Nat} (hk : k < (fillRegion old entry).ordern) :
      (fillRegion old entry).order[k]?.map (·.entryn) = some (u32 (blocksIn entry.bytes / 2 ^ k)) := by
    rw [fillRegion_order ho hk]
    rfl
  constructor
  case mp =>
    intro h
    have hlt := hm.withheld_lt ho hn h
    have hleaf := h 0 (hordern ▸ hzero) (by rwa [hblocks, Nat.pow_zero, Nat.div_one, Nat.div_one])
    rw [Nat.pow_zero, Nat.div_one, hm.bit_iff ho hzero] at hleaf
    refine ⟨hlt, hleaf, fun k hk hat => ?_⟩
    have hpow : 2 ≤ 2 ^ k := Nat.pow_le_pow_right Nat.two_pos hk
    have hfirst : n / 2 ^ k = 0 := Nat.div_eq_of_lt (Nat.lt_of_lt_of_le hlt hpow)
    have hbit := h k (hordern ▸ hat) (by rw [hfirst, hblocks]; exact (lt_countOrders_iff.mp hat).2)
    obtain ⟨b, _, hhit⟩ := (hm.bit_iff ho hat).mp hbit
    rcases k with _ | k
    · exact absurd hk (by decide)
    · have hne := hhit.1.2 (k + 1) hk le_rfl
      rw [counted hat] at hne
      exact fun hu => hne (congrArg some hu)
  case mpr =>
    rintro ⟨hlt, ⟨b, hb, hhit⟩, hne⟩ k hk hblock
    rw [hordern] at hk
    rw [hm.bit_iff ho hk]
    refine ⟨b, hb, ?_⟩
    rcases k with _ | k
    · rwa [Nat.pow_zero, Nat.div_one]
    · have hpow : 2 ≤ 2 ^ (k + 1) := Nat.pow_le_pow_right Nat.two_pos (Nat.succ_pos k)
      rw [Nat.div_eq_of_lt (Nat.lt_of_lt_of_le hlt hpow), HitsAt, parents_zero (hits_first hlt hhit)]
      refine ⟨⟨hk, fun i hi hle => ?_⟩, rfl, by decide⟩
      rw [counted (Nat.lt_of_le_of_lt hle hk)]
      exact fun hu => hne i hi (Nat.lt_of_le_of_lt hle hk) (Option.some.inj hu)

end Withheld

section Example

def regionEntry : MmapEntry :=
  { magic := 0, flags := 0, type := MmapEntry.typeFree, phys := 0x100000, virt := 0, bytes := 0x10000 }

-- From the second page of the first block on, up to the end of the second block.
def inside : MmapEntry :=
  { magic := 0, flags := 0, type := 0, phys := 0x101000, virt := 0, bytes := 0x7000 }

-- Behind the region.
def behind : MmapEntry :=
  { magic := 0, flags := 0, type := 0, phys := 0x110000, virt := 0, bytes := 0x4000 }

-- The first block.
def atBase : MmapEntry :=
  { magic := 0, flags := 0, type := 0, phys := 0x100000, virt := 0, bytes := 0x4000 }

theorem reaches_inside (hn : n < 2) :
    Reaches (kalign inside.phys) (blocksFor inside.bytes) regionEntry.phys n := by
  refine ⟨n, by rwa [(by decide : blocksFor inside.bytes = 2)], ?_⟩
  rcases (by omega : n = 0 ∨ n = 1) with rfl | rfl
  · exact ⟨by decide, by decide⟩
  · exact ⟨by decide, by decide⟩

end Example

end RoverOS.Pmm
