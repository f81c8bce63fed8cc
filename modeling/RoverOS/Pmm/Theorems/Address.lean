import RoverOS.Pmm.Theorems.Full
import RoverOS.Pmm.Theorems.Reserved

-- The blocks that `allocPhysAddress` marks, against the range that it is asked for.

namespace RoverOS.Pmm

open MemRegion

variable {s s' : Regions} {r r' : MemRegion} {region : List MemRegion} {entries : List MmapEntry}
  {e : MmapEntry} {a : Access} {order k n i j idx bit b ptr addr bytes : Nat}

-- The blocks of a region.
structure Inside (r : MemRegion) (addr bytes : Nat) : Prop where
  above : r.base ≤ addr
  below : addr + bytes ≤ r.base + r.blockCount * orderMinBlockSize

-- A byte of the range is in block `n`.
def Touches (addr bytes base n : Nat) : Prop :=
  ∃ x, (addr ≤ x ∧ x < addr + bytes) ∧
    base + n * orderMinBlockSize ≤ x ∧ x < base + (n + 1) * orderMinBlockSize

-- What is expected of a call. All bits that are set in addition are those of a clear block of the range.
structure AddressRight (addr bytes : Nat) (s : Regions) : Prop where
  inside {i : Nat} {r : MemRegion} : s.region[i]? = some r → Inside r addr bytes →
    ∃ r', allocPhysAddress addr bytes s = .ok (addr, { s with region := s.region.set i r' }) ∧
      ∀ n, r.leaves.bit n = false → (r'.leaves.bit n = true ↔ Touches addr bytes r.base n)
  outside : (∀ r ∈ s.region, ¬Inside r addr bytes) →
    allocPhysAddress addr bytes s = .ok (memoryAllocationFailed, s)

-- The words that `setBit` marks for block `b` of a region of `count` blocks are in the bitmaps: the one of
-- the block itself, and those of its parents in the orders 1 and 2. In the orders above it is the first.
structure BlockFits (count b : Nat) : Prop where
  leaf   : b / 64 < words count
  first  : b / 128 % 4 < words (count / 2)
  second : b / 256 % 2 < words (count / 4)

-- The block of the first byte, that of the last one, and the block behind the last one of the loop.
def firstBlock (addr base : Nat) : Nat :=
  (addr - base) / orderMinBlockSize

def lastBlock (addr bytes base : Nat) : Nat :=
  (addr + bytes - 1 - base) / orderMinBlockSize

def loopEnd (addr bytes base : Nat) : Nat :=
  firstBlock addr base + blocksFor bytes

-- The loop of `allocPhysAddress` comes to block `b`.
def Visits (addr bytes base b : Nat) : Prop :=
  firstBlock addr base ≤ b ∧ b < loopEnd addr bytes base

-- The mask for block `b` has the bit of block `n`: bits 31 to 63 are marked together.
def MaskHas (b n : Nat) : Prop :=
  b / 64 = n / 64 ∧ (b % 32 = n % 64 ∨ b % 32 = 31 ∧ 31 < n % 64)

-- The blocks that must be marked before for a range of the blocks `f` to `l`, when the loop stops in front of
-- block `e`.
structure MarkedBefore (r : MemRegion) (f l e : Nat) : Prop where
  -- The block of the last byte, when the loop does not come to it.
  missed    : l = e → e % 64 < 32 → r.leaves.bit e = true
  -- In the second half of a word the mask is that of the block 32 before.
  lower n   : n < f → n % 64 < 32 → f ≤ n + 32 → n + 32 < e → r.leaves.bit n = true
  -- A range in the second half of a word that ends before its last block: none of its blocks is marked.
  unmarked n : f ≤ n → n ≤ l → 32 ≤ f % 64 → e ≤ f / 64 * 64 + 63 → r.leaves.bit n = true
  -- Block 31 of a word, and block 63, take all blocks of the second half with them.
  behind n  : l < n → 32 ≤ n % 64 → f ≤ n / 64 * 64 + 31 → n / 64 * 64 + 31 < e → r.leaves.bit n = true
  before n  : n < f → 32 ≤ n % 64 → f ≤ n / 64 * 64 + 63 → n / 64 * 64 + 63 < e → r.leaves.bit n = true

-- The condition for a call to do what is expected.
def AddressFits (addr bytes : Nat) (s : Regions) : Prop :=
  (∀ r ∈ s.region, ¬Inside r addr bytes) ∧ regionAround addr s.region = none ∨
  ∃ (i : Nat) (r : MemRegion), s.region[i]? = some r ∧ Inside r addr bytes ∧ r.base < addr ∧
    (∀ b, Visits addr bytes r.base b → BlockFits r.blockCount b) ∧
    MarkedBefore r (firstBlock addr r.base) (lastBlock addr bytes r.base) (loopEnd addr bytes r.base)

section Marking

variable {f l e : Nat}

theorem exists_mask_iff : (∃ b, (f ≤ b ∧ b < e) ∧ MaskHas b n) ↔
    n % 64 < 32 ∧ (f ≤ n ∧ n < e ∨ f ≤ n + 32 ∧ n + 32 < e) ∨
    32 ≤ n % 64 ∧ (f ≤ n / 64 * 64 + 31 ∧ n / 64 * 64 + 31 < e ∨
      f ≤ n / 64 * 64 + 63 ∧ n / 64 * 64 + 63 < e) := by
  constructor
  case mp =>
    rintro ⟨b, hb, hword, hmask⟩
    omega
  case mpr =>
    rintro (⟨hn, hb | hb⟩ | ⟨hn, hb | hb⟩)
    · exact ⟨n, hb, rfl, by omega⟩
    · exact ⟨n + 32, hb, by omega, by omega⟩
    · exact ⟨n / 64 * 64 + 31, hb, by omega, by omega⟩
    · exact ⟨n / 64 * 64 + 63, hb, by omega, by omega⟩

-- The loop stops at the block of the last byte, or in front of it.
theorem markedBefore_iff (hf : f ≤ l) (hl : l ≤ e) (he : e ≤ l + 1) : MarkedBefore r f l e ↔
    ∀ n, r.leaves.bit n = false → ((∃ b, (f ≤ b ∧ b < e) ∧ MaskHas b n) ↔ f ≤ n ∧ n ≤ l) := by
  simp only [exists_mask_iff]
  constructor
  case mp =>
    intro h n hc
    have clear {p : Prop} (hp : p → r.leaves.bit n = true) : ¬p :=
      fun h => Bool.false_ne_true (hc.symm.trans (hp h))
    have h₁ : ¬(n = e ∧ l = e ∧ e % 64 < 32) := clear (by
      rintro ⟨rfl, hle, hlt⟩
      exact h.missed hle hlt)
    have h₂ : ¬(n < f ∧ n % 64 < 32 ∧ f ≤ n + 32 ∧ n + 32 < e) := clear (by
      rintro ⟨h₁, h₂, h₃, h₄⟩
      exact h.lower n h₁ h₂ h₃ h₄)
    have h₃ : ¬(f ≤ n ∧ n ≤ l ∧ 32 ≤ f % 64 ∧ e ≤ f / 64 * 64 + 63) := clear (by
      rintro ⟨h₁, h₂, h₃, h₄⟩
      exact h.unmarked n h₁ h₂ h₃ h₄)
    have h₄ : ¬(l < n ∧ 32 ≤ n % 64 ∧ f ≤ n / 64 * 64 + 31 ∧ n / 64 * 64 + 31 < e) := clear (by
      rintro ⟨h₁, h₂, h₃, h₄⟩
      exact h.behind n h₁ h₂ h₃ h₄)
    have h₅ : ¬(n < f ∧ 32 ≤ n % 64 ∧ f ≤ n / 64 * 64 + 63 ∧ n / 64 * 64 + 63 < e) := clear (by
      rintro ⟨h₁, h₂, h₃, h₄⟩
      exact h.before n h₁ h₂ h₃ h₄)
    omega
  case mpr =>
    intro h
    have marked {n : Nat} (hn : ¬(_ ↔ _)) : r.leaves.bit n = true :=
      Bool.eq_true_of_not_eq_false fun hc => hn (h n hc)
    exact ⟨fun _ _ => marked (by omega), fun n _ _ _ _ => marked (by omega), fun n _ _ _ _ => marked (by omega),
      fun n _ _ _ _ => marked (by omega), fun n _ _ _ _ => marked (by omega)⟩

variable {base : Nat}

theorem touches_iff (hb : base ≤ addr) (hpos : 1 ≤ bytes) : Touches addr bytes base n ↔
    firstBlock addr base ≤ n ∧ n ≤ lastBlock addr bytes base := by
  unfold firstBlock lastBlock
  constructor
  case mp =>
    rintro ⟨x, ⟨hl, hu⟩, hlo, hhi⟩
    unfold orderMinBlockSize at *
    omega
  case mpr =>
    rintro ⟨hl, hu⟩
    refine ⟨max addr (base + n * orderMinBlockSize), ?_, ?_⟩
    all_goals
      unfold orderMinBlockSize at *
      omega

theorem loopEnd_cases (hb : base ≤ addr) (hpos : 1 ≤ bytes) :
    firstBlock addr base ≤ lastBlock addr bytes base ∧ lastBlock addr bytes base ≤ loopEnd addr bytes base ∧
      loopEnd addr bytes base ≤ lastBlock addr bytes base + 1 := by
  unfold loopEnd firstBlock lastBlock blocksFor orderMinBlockSize
  omega

end Marking

section Fit

theorem setParents_ok_iff (hi : idx ≤ 3) (hb : bit < 64) :
    (∃ r', setParents k idx bit n r = .ok r') ↔
      ∀ j < n, (∀ i ≤ j, r.order[k + i]?.map (·.entryn) ≠ some 0) → InBitmap r (k + j) (wordFrom idx bit j) := by
  rw [setParents_returns_iff]
  constructor
  case mp => exact fun h j hj hne => h _ ((mem_setParentsAccesses_iff hi hb).mpr ⟨j, hj, hne, rfl⟩)
  case mpr =>
    intro h a ha
    obtain ⟨j, hj, hne, rfl⟩ := (mem_setParentsAccesses_iff hi hb).mp ha
    exact h j hj hne

-- What `setBit` needs at order 0.
theorem setLeaf_ok_iff : (∃ r', setBit r 0 idx bit = .ok r') ↔ InBitmap r 0 idx ∧
    ∀ j < r.ordern - 1, (∀ i ≤ j, r.order[1 + i]?.map (·.entryn) ≠ some 0) →
      InBitmap r (1 + j) (wordFrom (u8 ((idx * 64 + bit) / 2) / 64) (u8 ((idx * 64 + bit) / 2) / 64) j) := by
  have hlt : u8 ((idx * 64 + bit) / 2) / 64 ≤ 3 := by
    unfold u8
    omega
  rw [setBit_returns_iff, setBitAccesses, parentOf_left, setChildrenAccesses, List.nil_append, AllIn,
    List.forall_mem_cons, ← setParents_ok_iff hlt (by omega), setParents_returns_iff]
  rfl

theorem wordFrom_second : wordFrom (b / 128 % 4) (b / 128 % 4) 1 = b / 256 % 2 := by
  have hhalf : b / 256 % 2 = b / 128 % 4 / 2 := by omega
  have hlt : b / 128 % 4 < 4 := Nat.mod_lt _ (by decide)
  rw [hhalf]
  generalize b / 128 % 4 = q at hlt
  revert q
  decide

variable (hk : Keeps (fillRegion zeroRegion e) r)
include hk

theorem Keeps.inBitmap_words (hn : k < countOrders (blocksIn e.bytes) maxOrder) :
    InBitmap r k idx ↔ idx < words (blocksIn e.bytes / 2 ^ k) := by
  rw [hk.inBitmap_iff, (sized_fillRegion rfl).inBitmap_iff hn]

theorem Keeps.counted (hs : blocksIn e.bytes < 2 ^ 32) (hn : k < countOrders (blocksIn e.bytes) maxOrder) :
    r.order[k]?.map (·.entryn) ≠ some 0 := by
  have hpos := (lt_countOrders_iff.mp hn).2
  have hle := Nat.div_le_self (blocksIn e.bytes) (2 ^ k)
  have hsmall : blocksIn e.bytes / 2 ^ k < 2 ^ 32 := by omega
  rw [hk.entryn_eq, fillRegion_order rfl hn, Option.map_some, newOrder]
  simp only [u32_of_lt hsmall, ne_eq, Option.some.injEq]
  omega

-- The words of the parents: those of the orders 1 and 2 depend on the block.
theorem blockFits_iff (hs : blocksIn e.bytes < 2 ^ 32) (hb : b < blocksIn e.bytes) :
    (∃ r', setBit r 0 (u32 (b / 64)) (b % 64) = .ok r') ↔ BlockFits (blocksIn e.bytes) b := by
  have heven := @blocksIn_even e.bytes
  have hsum : u32 (b / 64) * 64 + b % 64 = b := by
    rw [u32_of_lt (by omega)]
    exact Nat.div_add_mod' b 64
  have hq : u8 (b / 2) / 64 = b / 128 % 4 := by
    unfold u8
    omega
  have hord : r.ordern = countOrders (blocksIn e.bytes) maxOrder := by
    rw [hk.frame]
    rfl
  have at_order {k : Nat} (hk : k < maxOrder) (hpos : 0 < blocksIn e.bytes / 2 ^ k) :
      k < countOrders (blocksIn e.bytes) maxOrder :=
    lt_countOrders_iff.mpr ⟨hk, hpos⟩
  rw [setLeaf_ok_iff, hsum, hq, u32_of_lt (by omega), hord, hk.inBitmap_words (at_order (by decide) (by omega))]
  constructor
  case mp =>
    rintro ⟨hleaf, hparents⟩
    have parent {j : Nat} (hj : 1 + j < maxOrder) (hpos : 0 < blocksIn e.bytes / 2 ^ (1 + j)) :
        wordFrom (b / 128 % 4) (b / 128 % 4) j < words (blocksIn e.bytes / 2 ^ (1 + j)) := by
      have hat := at_order hj hpos
      refine (hk.inBitmap_words hat).mp (hparents j (by omega) fun i hi => ?_)
      exact hk.counted hs (Nat.lt_of_le_of_lt (Nat.add_le_add_left hi 1) hat)
    refine ⟨by rwa [Nat.pow_zero, Nat.div_one] at hleaf, parent (j := 0) (by decide) (by omega), ?_⟩
    by_cases hfour : 4 ≤ blocksIn e.bytes
    case pos =>
      have hsecond := parent (j := 1) (by decide) (by omega)
      rwa [wordFrom_second] at hsecond
    case neg =>
      have hzero : b / 256 % 2 = 0 := by omega
      rw [hzero]
      exact words_pos
  case mpr =>
    intro h
    refine ⟨by rw [Nat.pow_zero, Nat.div_one]; exact h.leaf, fun j hj _ => ?_⟩
    rw [hk.inBitmap_words (by omega)]
    rcases j with _ | _ | j
    · exact h.first
    · rw [wordFrom_second]
      exact h.second
    · have hword : wordFrom (b / 128 % 4) (b / 128 % 4) (j + 2) = 0 := by
        rw [wordFrom, Nat.div_div_eq_div_mul]
        refine Nat.div_eq_of_lt ?_
        have hpow : 2 ^ 2 ≤ 2 ^ (j + 1 + 1) := Nat.pow_le_pow_right Nat.two_pos (by omega)
        omega
      rw [hword]
      exact words_pos

end Fit

section Loop

def blockAt (ptr base j : Nat) : Nat :=
  orderAddressToBit (nextBlock^[j] ptr) base

theorem blockAt_next {base : Nat} : blockAt (nextBlock ptr) base j = blockAt ptr base (j + 1) := by
  rw [blockAt, blockAt, Function.iterate_succ_apply]

theorem mem_reserveBlocksAccesses : a ∈ reserveBlocksAccesses r ptr n ↔ ∃ j < n,
    a ∈ setBitAccesses r 0 (u32 (blockAt ptr r.base j / 64)) (blockAt ptr r.base j % 64) := by
  induction n generalizing ptr
  case zero => simp [reserveBlocksAccesses]
  case succ n hi =>
    rw [reserveBlocksAccesses, List.mem_append, ← nextBlock, hi]
    simp only [blockAt_next]
    constructor
    case mp =>
      rintro (h | ⟨j, hj, h⟩)
      · exact ⟨0, Nat.succ_pos n, h⟩
      · exact ⟨j + 1, Nat.succ_lt_succ hj, h⟩
    case mpr =>
      rintro ⟨j, hj, h⟩
      rcases j with _ | j
      · exact .inl h
      · exact .inr ⟨j, Nat.lt_of_succ_lt_succ hj, h⟩

theorem reserveBlocks_ok_iff : (∃ r', reserveBlocks ptr n r = .ok r') ↔ ∀ j < n, ∃ r',
    setBit r 0 (u32 (blockAt ptr r.base j / 64)) (blockAt ptr r.base j % 64) = .ok r' := by
  simp only [reserveBlocks_returns_iff, setBit_returns_iff]
  constructor
  case mp => exact fun h j hj a ha => h a (mem_reserveBlocksAccesses.mpr ⟨j, hj, ha⟩)
  case mpr =>
    intro h a ha
    obtain ⟨j, hj, ha⟩ := mem_reserveBlocksAccesses.mp ha
    exact h j hj a ha

theorem nextBlock_iterate (h : ptr + j * orderMinBlockSize < 2 ^ 64) :
    nextBlock^[j] ptr = ptr + j * orderMinBlockSize := by
  induction j
  case zero => simp
  case succ j hi =>
    have hlt : ptr + j * orderMinBlockSize + orderMinBlockSize < 2 ^ 64 := by
      rw [Nat.add_assoc, ← Nat.succ_mul]
      exact h
    rw [Function.iterate_succ_apply', hi (Nat.lt_of_le_of_lt (Nat.le_add_right _ _) hlt), nextBlock,
      u64_of_lt hlt, Nat.add_assoc, ← Nat.succ_mul]

-- The blocks of the loop, for a range that ends below `2 ^ 64`.
theorem blockAt_eq {base : Nat} (hp : base % 0x1000 = 0) (hb : base ≤ addr) (hlt : addr + bytes < 2 ^ 64)
    (hj : j < blocksFor bytes) :
    blockAt (kalign addr) base j = (addr - base) / orderMinBlockSize + j := by
  have hle : base ≤ kalign addr := by
    unfold kalign
    omega
  have hend : kalign addr + j * orderMinBlockSize < 2 ^ 64 := by
    unfold kalign blocksFor orderMinBlockSize at *
    omega
  rw [blockAt, nextBlock_iterate hend, orderAddressToBit, sub64_of_le (Nat.le_trans hle (Nat.le_add_right _ _)) hend]
  unfold kalign orderMinBlockSize at *
  omega

theorem hits_iff (hb : b / 64 < 2 ^ 32) : Hits b n ↔ MaskHas b n := by
  have hmod : b % 64 % 32 = b % 32 := Nat.mod_mod_of_dvd b (by decide)
  rw [Hits, MaskHas, orderGetIdxFromBit, u32_of_lt hb, getLsbD_intBit_iff (Nat.mod_lt n (by decide)), hmod]

end Loop

section Table

-- The regions of a memory map whose entries begin at a page, each in some state that it can reach.
structure Managed (entries : List MmapEntry) (s : Regions) : Prop where
  map    : MemoryMap entries
  page   : ∀ e ∈ entries, e.phys % 0x1000 = 0
  small  : ∀ e ∈ entries, blocksIn e.bytes < 2 ^ 32
  length : s.region.length = entries.length
  region : ∀ {i : Nat} {e r}, entries[i]? = some e → s.region[i]? = some r → Reachable e r
  lock   : s.buddyLock = false

-- What is known of each region.
structure Outline (r : MemRegion) : Prop where
  fits  : ∀ b < r.blockCount, (∃ r', setBit r 0 (u32 (b / 64)) (b % 64) = .ok r') ↔ BlockFits r.blockCount b
  page  : r.base % 0x1000 = 0
  bound : r.base + r.blockCount * orderMinBlockSize ≤ r.limit
  limit : r.limit < 2 ^ 64
  small : r.blockCount < 2 ^ 32
  words : r.leaves.entry.length ≤ max 1 (r.blockCount / 64)

theorem leaves_length : (fillRegion zeroRegion e).leaves.entry.length ≤ max 1 (blocksIn e.bytes / 64) := by
  simp only [fillRegion, zeroRegion, maxOrder, List.replicate, makeOrders, leaves,
    List.getElem?_cons_zero, Option.getD_some]
  split
  case isTrue =>
    simp only [newOrder, List.length_replicate]
    split <;> omega
  case isFalse => exact Nat.zero_le _

theorem Keeps.leaves_length (h : Keeps r r') : r'.leaves.entry.length = r.leaves.entry.length := by
  have hk := congrArg (·[0]?) h.size
  simp only [List.getElem?_map] at hk
  have hsnd := congrArg (Option.map Prod.snd) hk
  rw [Option.map_map, Option.map_map] at hsnd
  rw [leaves, leaves]
  cases hr : r.order[0]? <;> cases hr' : r'.order[0]? <;> simp_all [MemOrder.size]

theorem Managed.entry (h : Managed entries s) (hr : s.region[i]? = some r) :
    ∃ e, entries[i]? = some e ∧ Keeps (fillRegion zeroRegion e) r := by
  have hlt : i < entries.length := by
    rw [← h.length]
    exact (List.getElem?_eq_some_iff.mp hr).1
  exact ⟨_, List.getElem?_eq_getElem hlt, (h.region (List.getElem?_eq_getElem hlt) hr).keeps⟩

theorem Managed.outline (h : Managed entries s) (hr : s.region[i]? = some r) : Outline r := by
  obtain ⟨e, he, hk⟩ := h.entry hr
  have hmem := List.mem_of_getElem? he
  have hbound := h.map.bound e hmem
  have hlimit : r.limit = e.phys + e.bytes := by
    rw [hk.frame]
    exact u64_of_lt hbound
  have hbase : r.base = e.phys := by
    rw [hk.frame]
    rfl
  have hcount : r.blockCount = blocksIn e.bytes := by
    rw [hk.frame]
    rfl
  constructor
  case fits  =>
    intro b hb
    rw [hcount] at hb ⊢
    exact blockFits_iff hk (h.small e hmem) hb
  case page  => exact hbase ▸ h.page e hmem
  case bound =>
    rw [hbase, hcount, hlimit]
    exact Nat.add_le_add_left blocksIn_le _
  case limit => exact hlimit ▸ hbound
  case small => exact hcount ▸ h.small e hmem
  case words =>
    rw [hk.leaves_length, hcount]
    exact leaves_length

theorem Managed.apart (h : Managed entries s) (hr : s.region[i]? = some r) (hr' : s.region[j]? = some r')
    (hij : i ≠ j) : r.limit ≤ r'.base ∨ r'.limit ≤ r.base := by
  obtain ⟨e, he, hk⟩ := h.entry hr
  obtain ⟨e', he', hk'⟩ := h.entry hr'
  have hinit : (initial entries).pmm.region[i]? = some (fillRegion zeroRegion e) := by
    rw [initial, List.getElem?_map, he, Option.map_some]
  have hinit' : (initial entries).pmm.region[j]? = some (fillRegion zeroRegion e') := by
    rw [initial, List.getElem?_map, he', Option.map_some]
  have hap := (inv_initial h.map).table.apart hinit hinit' hij
  rw [hk.frame, hk'.frame]
  exact hap

end Table

section Range

theorem Inside.lt (hin : Inside r addr bytes) (hb : 1 ≤ bytes) (ho : Outline r) : addr < r.limit := by
  have h₁ := hin.below
  have h₂ := ho.bound
  omega

theorem blocksFor_pos (hb : 1 ≤ bytes) : 1 ≤ blocksFor bytes := by
  unfold blocksFor orderMinBlockSize
  omega

-- The loop does not go beyond the blocks of the region.
theorem Inside.visits_lt (hin : Inside r addr bytes) (hv : Visits addr bytes r.base b) : b < r.blockCount := by
  obtain ⟨_, hv⟩ := hv
  have h₁ := hin.above
  have h₂ := hin.below
  unfold loopEnd firstBlock blocksFor orderMinBlockSize at *
  omega

theorem visits_iff {base : Nat} : Visits addr bytes base b ↔
    ∃ j < blocksFor bytes, b = firstBlock addr base + j := by
  unfold Visits loopEnd
  constructor
  · rintro ⟨hle, hlt⟩
    exact ⟨b - firstBlock addr base, by omega, by omega⟩
  · rintro ⟨j, hj, rfl⟩
    omega

variable (hin : Inside r addr bytes) (ho : Outline r)
include hin ho

theorem Inside.blockAt_eq (hj : j < blocksFor bytes) :
    blockAt (kalign addr) r.base j = firstBlock addr r.base + j := by
  have h₁ := hin.below
  have h₂ := ho.bound
  have h₃ := ho.limit
  exact Pmm.blockAt_eq ho.page hin.above (by omega) hj

theorem Inside.word_lt (hv : Visits addr bytes r.base b) : b / 64 < 2 ^ 32 := by
  have hlt := hin.visits_lt hv
  have hs := ho.small
  omega

theorem Inside.reserve_iff : (∃ r', reserveBlocks (kalign addr) (blocksFor bytes) r = .ok r') ↔
    ∀ b, Visits addr bytes r.base b → BlockFits r.blockCount b := by
  rw [reserveBlocks_ok_iff]
  constructor
  case mp =>
    intro h b hv
    obtain ⟨j, hj, rfl⟩ := visits_iff.mp hv
    rw [← ho.fits _ (hin.visits_lt hv), ← hin.blockAt_eq ho hj]
    exact h j hj
  case mpr =>
    intro h j hj
    rw [hin.blockAt_eq ho hj]
    have hv : Visits addr bytes r.base (firstBlock addr r.base + j) :=
      visits_iff.mpr ⟨j, hj, rfl⟩
    exact (ho.fits _ (hin.visits_lt hv)).mpr (h _ hv)

theorem Inside.hits_iff : (∃ b, Visited (kalign addr) (blocksFor bytes) r.base b ∧ Hits b n) ↔
    ∃ b, Visits addr bytes r.base b ∧ MaskHas b n := by
  rw [← Pmm.reaches_iff]
  constructor
  case mp =>
    rintro ⟨j, hj, h⟩
    have hv : Visits addr bytes r.base (firstBlock addr r.base + j) :=
      visits_iff.mpr ⟨j, hj, rfl⟩
    refine ⟨_, hv, (Pmm.hits_iff (hin.word_lt ho hv)).mp ?_⟩
    rw [← hin.blockAt_eq ho hj]
    exact h
  case mpr =>
    rintro ⟨b, hv, h⟩
    obtain ⟨j, hj, rfl⟩ := visits_iff.mp hv
    refine ⟨j, hj, ?_⟩
    have hh := (Pmm.hits_iff (hin.word_lt ho hv)).mpr h
    rw [← hin.blockAt_eq ho hj] at hh
    exact hh

theorem Inside.marks {r' : MemRegion} (h : reserveBlocks (kalign addr) (blocksFor bytes) r = .ok r')
    (hc : r.leaves.bit n = false) :
    r'.leaves.bit n = true ↔ ∃ b, Visits addr bytes r.base b ∧ MaskHas b n := by
  rw [(reserveBlocks_marked h).leaf, hin.hits_iff ho, hc]
  simp

omit ho in
theorem Inside.markedBefore_iff (hb : 1 ≤ bytes) :
    MarkedBefore r (firstBlock addr r.base) (lastBlock addr bytes r.base) (loopEnd addr bytes r.base) ↔
      ∀ n, r.leaves.bit n = false →
        ((∃ b, Visits addr bytes r.base b ∧ MaskHas b n) ↔ Touches addr bytes r.base n) := by
  obtain ⟨hf, hl, he⟩ := loopEnd_cases hin.above hb
  simp only [touches_iff hin.above hb, Visits]
  exact Pmm.markedBefore_iff hf hl he

end Range

section Counter

theorem setBit_leaves_used (h : setBit r 0 idx bit = .ok r') : r'.leaves.used = u32 (r.leaves.used + 1) := by
  obtain ⟨o, w, ho, _, ho'⟩ := setBit_own h
  rw [leaves, leaves, ho, ho']
  rfl

theorem reserveBlocks_used (h : reserveBlocks ptr n r = .ok r') :
    u32 r'.leaves.used = u32 (r.leaves.used + n) := by
  induction n generalizing ptr r
  case zero =>
    cases h
    rfl
  case succ n hi =>
    obtain ⟨r₁, h₁, h⟩ := Except.bind_ok_iff.mp h
    rw [hi h, setBit_leaves_used h₁]
    unfold u32
    omega

-- A loop that has returned was shorter than the counter is wide.
theorem reserveBlocks_length (ho : Outline r) (hz : r.base = 0)
    (h : reserveBlocks 0 (blocksFor bytes) r = .ok r') : blocksFor bytes < 2 ^ 32 := by
  by_contra hge
  obtain ⟨r₁, h₁⟩ := reserveBlocks_ok_iff.mp ⟨r', h⟩ (2 ^ 32 - 1) (by omega)
  have hat : blockAt 0 0 (2 ^ 32 - 1) = 2 ^ 32 - 1 := by
    rw [blockAt, nextBlock_iterate (by decide)]
    decide
  rw [hz, hat] at h₁
  obtain ⟨⟨o, ho', hlt⟩, _⟩ := setLeaf_ok_iff.mp ⟨r₁, h₁⟩
  have hleaves : r.leaves = o := by
    rw [leaves, ho', Option.getD_some]
  have hwords := ho.words
  have hsmall := ho.small
  rw [hleaves] at hwords
  have hidx : u32 ((2 ^ 32 - 1) / 64) = 2 ^ 26 - 1 := by decide
  rw [hidx] at hlt
  omega

-- A loop that returns has changed the region.
theorem reserveBlocks_ne (ho : Outline r) (hz : r.base = 0) (hb : 1 ≤ bytes) :
    reserveBlocks 0 (blocksFor bytes) r ≠ .ok r := by
  intro h
  have hused := reserveBlocks_used h
  have hlen := reserveBlocks_length ho hz h
  have hpos := blocksFor_pos hb
  unfold u32 at hused
  omega

end Counter

section Call

theorem regionAround_none_iff : regionAround addr region = none ↔
    ∀ r ∈ region, ¬(r.base < addr ∧ addr < r.limit) := by
  simp [regionAround, List.findIdx?_eq_none_iff]

theorem regionAround_some (h : regionAround addr region = some i) (hr : region[i]? = some r) :
    r.base < addr ∧ addr < r.limit := by
  obtain ⟨hlt, hat, _⟩ := List.findIdx?_eq_some_iff_getElem.mp h
  rw [(List.getElem?_eq_some_iff.mp hr).2] at hat
  exact decide_eq_true_eq.mp hat

-- At most one region is around an address.
theorem Managed.around (h : Managed entries s) (hr : s.region[i]? = some r) (hb : r.base < addr)
    (hl : addr < r.limit) : regionAround addr s.region = some i := by
  cases hat : regionAround addr s.region
  case none => exact absurd ⟨hb, hl⟩ (regionAround_none_iff.mp hat r (List.mem_of_getElem? hr))
  case some j =>
    obtain ⟨hlt, _⟩ := List.findIdx?_eq_some_iff_getElem.mp hat
    have hr' : s.region[j]? = some s.region[j] := List.getElem?_eq_getElem hlt
    obtain ⟨hb', hl'⟩ := regionAround_some hat hr'
    by_contra hne
    have hij : i ≠ j := fun he => hne (congrArg some he.symm)
    rcases h.apart hr hr' hij with hap | hap <;> omega

theorem set_inj {α : Type} {xs : List α} {x y : α} (hi : i < xs.length) (h : xs.set i x = xs.set i y) :
    x = y := by
  have hat := congrArg (·[i]?) h
  simpa only [List.getElem?_set_self hi, Option.some.injEq] using hat

-- An address at the base of a region is around in none.
theorem Managed.base_lt (h : Managed entries s) (hr : s.region[i]? = some r) (hin : Inside r addr bytes)
    (hb : 1 ≤ bytes) (hok : allocPhysAddress addr bytes s = .ok (addr, s')) : r.base < addr := by
  have ho := h.outline hr
  have hlt := hin.lt hb ho
  by_contra hge
  have heq : addr = r.base := Nat.le_antisymm (Nat.le_of_not_lt hge) hin.above
  rcases allocPhysAddress_ok hok with ⟨_, hfail, _⟩ | ⟨j, x, x', hj, hx, _⟩
  · have hp := ho.page
    rw [← heq, hfail] at hp
    exact absurd hp (by decide)
  · obtain ⟨hb', hl'⟩ := regionAround_some hj hx
    have hij : i ≠ j := by
      rintro rfl
      cases hr.symm.trans hx
      exact hge hb'
    rcases h.apart hr hx hij with hap | hap <;> omega

theorem Managed.fits_inside (h : Managed entries s) (hb : 1 ≤ bytes) (hright : AddressRight addr bytes s)
    (hr : s.region[i]? = some r) (hin : Inside r addr bytes) : AddressFits addr bytes s := by
  obtain ⟨r', hok, hbits⟩ := hright.inside hr hin
  have ho := h.outline hr
  have hbase := h.base_lt hr hin hb hok
  have hlt := (List.getElem?_eq_some_iff.mp hr).1
  have hres : reserveBlocks (kalign addr) (blocksFor bytes) r = .ok r' := by
    have hat := h.around hr hbase (hin.lt hb ho)
    rcases allocPhysAddress_ok hok with ⟨hn, _⟩ | ⟨j, x, x', hj, hx, hres, _, hs⟩
    · rw [hat] at hn
      cases hn
    · cases hat.symm.trans hj
      cases hr.symm.trans hx
      rw [set_inj hlt (congrArg Regions.region hs)]
      exact hres
  refine .inr ⟨i, r, hr, hin, hbase, (hin.reserve_iff ho).mp ⟨r', hres⟩, ?_⟩
  rw [hin.markedBefore_iff hb]
  intro n hc
  rw [← hin.marks ho hres hc]
  exact hbits n hc

theorem Managed.fits_outside (h : Managed entries s) (hb : 1 ≤ bytes) (hright : AddressRight addr bytes s)
    (hout : ∀ r ∈ s.region, ¬Inside r addr bytes) : AddressFits addr bytes s := by
  have hok := hright.outside hout
  rcases allocPhysAddress_ok hok with ⟨hn, _⟩ | ⟨j, x, x', hj, hx, hres, hfail, hs⟩
  · exact .inl ⟨hout, hn⟩
  · have ho := h.outline hx
    have hlt := (List.getElem?_eq_some_iff.mp hx).1
    have hsame : x' = x := by
      have hself : s.region.set j x = s.region := by
        rw [← (List.getElem?_eq_some_iff.mp hx).2, List.set_getElem_self]
      exact set_inj hlt ((congrArg Regions.region hs).symm.trans hself.symm)
    have hzero : x.base = 0 := by
      have hp := ho.page
      have hlow := (regionAround_some hj hx).1
      rw [← hfail, memoryAllocationFailed] at hlow
      omega
    rw [← hfail, hsame] at hres
    exact absurd hres (reserveBlocks_ne ho hzero hb)

-- For every table that a memory map leads to.
theorem allocPhysAddress_right_iff (h : Managed entries s) (hb : 1 ≤ bytes) :
    AddressRight addr bytes s ↔ AddressFits addr bytes s := by
  constructor
  case mp =>
    intro hright
    by_cases hin : ∃ (i : Nat) (r : MemRegion), s.region[i]? = some r ∧ Inside r addr bytes
    case pos =>
      obtain ⟨i, r, hr, hin⟩ := hin
      exact h.fits_inside hb hright hr hin
    case neg =>
      refine h.fits_outside hb hright fun r hr hins => hin ?_
      obtain ⟨i, hi⟩ := List.getElem?_of_mem hr
      exact ⟨i, r, hi, hins⟩
  case mpr =>
    rintro (⟨hout, hn⟩ | ⟨i, r, hr, hin, hbase, hfit, hbefore⟩)
    · exact ⟨fun hr hin => absurd hin (hout _ (List.mem_of_getElem? hr)),
        fun _ => allocPhysAddress_none h.lock hn⟩
    · have ho := h.outline hr
      have hl := hin.lt hb ho
      constructor
      case inside =>
        intro j x hx hinx
        have hij : i = j := by
          by_contra hne
          have hlx := hinx.lt hb (h.outline hx)
          have habove := hinx.above
          rcases h.apart hr hx hne with hap | hap <;> omega
        subst hij
        cases hr.symm.trans hx
        obtain ⟨r', hres⟩ := (hin.reserve_iff ho).mpr hfit
        refine ⟨r', allocPhysAddress_some h.lock (h.around hr hbase hl) hr hres, fun n hc => ?_⟩
        rw [hin.marks ho hres hc]
        exact (hin.markedBefore_iff hb).mp hbefore n hc
      case outside => exact fun hout => absurd hin (hout r (List.mem_of_getElem? hr))

end Call

section Example

theorem managed_lowEntry : Managed [lowEntry] (initial [lowEntry]).pmm where
  map        := memoryMap_lowEntry
  page e he  := by
    cases List.mem_singleton.mp he
    decide
  small e he := by
    cases List.mem_singleton.mp he
    decide
  length     := rfl
  region     := by
    intro i e r he hr
    rw [initial, List.getElem?_map, he, Option.map_some] at hr
    cases hr
    exact .refl _
  lock       := rfl

-- The second block.
theorem allocPhysAddress_right_iff_lowEntry : AddressRight 0x104000 0x4000 (initial [lowEntry]).pmm := by
  have hr : (initial [lowEntry]).pmm.region[0]? = some (fillRegion zeroRegion lowEntry) := rfl
  have hf : firstBlock 0x104000 (fillRegion zeroRegion lowEntry).base = 1 := by decide
  have hl : lastBlock 0x104000 0x4000 (fillRegion zeroRegion lowEntry).base = 1 := by decide
  have he : loopEnd 0x104000 0x4000 (fillRegion zeroRegion lowEntry).base = 2 := by decide
  refine (allocPhysAddress_right_iff managed_lowEntry (by decide)).mpr
    (.inr ⟨0, _, hr, ⟨by decide, by decide⟩, by decide, fun b hv => ?_, ?_⟩)
  · have hb : b = 1 := by
      rw [Visits, hf, he] at hv
      omega
    subst hb
    exact ⟨by decide, by decide, by decide⟩
  · rw [hf, hl, he]
    exact ⟨fun h _ => absurd h (by decide), fun n _ _ _ h => absurd h (by omega),
      fun n _ _ h _ => absurd h (by decide), fun n _ _ _ h => absurd h (by omega),
      fun n _ _ _ h => absurd h (by omega)⟩

-- The first block of a region is refused.
theorem allocPhysAddress_wrong : ¬∀ (entries : List MmapEntry) (s : Regions) (addr bytes : Nat),
    Managed entries s → 1 ≤ bytes → AddressRight addr bytes s := by
  intro hall
  have right := hall [lowEntry] (initial [lowEntry]).pmm 0x100000 0x4000 managed_lowEntry (by decide)
  obtain ⟨r', h, _⟩ := right.inside (i := 0) rfl ⟨by decide, by decide⟩
  have hfail : allocPhysAddress 0x100000 0x4000 (initial [lowEntry]).pmm =
      .ok (memoryAllocationFailed, (initial [lowEntry]).pmm) := rfl
  rw [hfail] at h
  have hptr : memoryAllocationFailed = 0x100000 := congrArg Prod.fst (Except.ok.inj h)
  exact absurd hptr (by decide)

end Example

end RoverOS.Pmm
