import RoverOS.Pmm.Theorems.Init
import RoverOS.Pmm.Theorems.Select

-- The calls of `freePhys` that `freeNPhys` makes.

namespace RoverOS.Pmm

open MemRegion

variable {S : Type} {free : Nat → S → Except Exit S} {s s' : Regions} {t t' : S} {r r' : MemRegion}
  {region : List MemRegion} {addrs log : List Nat} {fuel ptr bytes i n : Nat}

-- The loop of `freeNPhys`, with what it calls for each block as a parameter.
def freeBlocksVia (free : Nat → S → Except Exit S) (ptr i : Nat) : Nat → Nat → S → Except Exit S
  | 0,        _,     _ => .error .halt
  | fuel + 1, bytes, t => do
    let t ← free (u64 (ptr + u32 (orderMinBlockSize * i))) t
    if sub64 bytes orderMinBlockSize = 0 then return t
    freeBlocksVia free ptr (u32 (i + 1)) fuel (sub64 bytes orderMinBlockSize) t

-- `freePhys`, which also writes down its argument.
def loggedFree (ptr : Nat) (t : Regions × List Nat) : Except Exit (Regions × List Nat) := do
  let s ← freePhys ptr t.1
  return (s, t.2 ++ [ptr])

def blockAddresses (ptr n : Nat) : List Nat :=
  (List.range n).map fun i => u64 (ptr + i * orderMinBlockSize)

def callEach (free : Nat → S → Except Exit S) (addrs : List Nat) (t : S) : Except Exit S :=
  addrs.foldlM (fun t a => free a t) t

-- The call returns after it has freed each of its blocks once, in their order.
def FreesRange (ptr bytes : Nat) (s : Regions) : Prop :=
  ∃ fuel s', freeNPhys fuel ptr bytes s = .ok s' ∧
    freeBlocksVia loggedFree ptr 0 fuel bytes (s, []) = .ok (s', blockAddresses ptr (blocksFor bytes))

-- The words that `freePhys` looks at for a block are in the bitmaps.
def FreeFits (p : Nat) (region : List MemRegion) : Prop :=
  ∀ i r, regionHolding p region = some i → region[i]? = some r →
    AllIn r (freeBitAccesses r 0 (orderGetIdxFromBit (orderAddressToBit p r.base)) (u8 (orderAddressToBit p r.base)))

-- Those for each block are, in the state that the calls for the blocks before it have left.
def InBitmaps (addrs : List Nat) (s : Regions) : Prop :=
  ∀ pre p post s', addrs = pre ++ p :: post → callEach freePhys pre s = .ok s' → FreeFits p s'.region

section Loop

theorem freeBlocks_eq : freeBlocks ptr i fuel bytes s = freeBlocksVia freePhys ptr i fuel bytes s := by
  induction fuel generalizing i bytes s
  case zero => rfl
  case succ fuel hi =>
    simp only [freeBlocks, freeBlocksVia, hi]

-- The arguments of the calls, in 32-bit arithmetic.
def callsFrom (ptr : Nat) (i : Nat) : Nat → List Nat
  | 0     => []
  | n + 1 => u64 (ptr + u32 (orderMinBlockSize * i)) :: callsFrom ptr (u32 (i + 1)) n

theorem callEach_cons {a : Nat} : callEach free (a :: addrs) t = .ok t' ↔
    ∃ t₁, free a t = .ok t₁ ∧ callEach free addrs t₁ = .ok t' := by
  rw [callEach, List.foldlM_cons]
  exact Except.bind_ok_iff

theorem sub64_blocks (h : (n + 1) * orderMinBlockSize < 2 ^ 64) :
    sub64 ((n + 1) * orderMinBlockSize) orderMinBlockSize = n * orderMinBlockSize := by
  rw [sub64_of_le (Nat.le_mul_of_pos_left _ (Nat.succ_pos n)) h, Nat.succ_mul, Nat.add_sub_cancel]

-- Whole blocks: the loop ends after as many turns.
theorem freeBlocksVia_blocks (h : (n + 1) * orderMinBlockSize < 2 ^ 64) :
    freeBlocksVia free ptr i fuel ((n + 1) * orderMinBlockSize) t = .ok t' ↔
      n + 1 ≤ fuel ∧ callEach free (callsFrom ptr i (n + 1)) t = .ok t' := by
  induction n generalizing i fuel t
  case zero =>
    cases fuel
    case zero => simp [freeBlocksVia]
    case succ fuel =>
      have hz : sub64 ((0 + 1) * orderMinBlockSize) orderMinBlockSize = 0 := by
        rw [sub64_blocks h, Nat.zero_mul]
      rw [freeBlocksVia, callsFrom, callEach_cons, Except.bind_ok_iff, hz]
      simp [callEach, callsFrom, pure, Except.pure]
  case succ n hi =>
    cases fuel
    case zero => simp [freeBlocksVia]
    case succ fuel =>
      have hlt : (n + 1) * orderMinBlockSize < 2 ^ 64 :=
        Nat.lt_of_le_of_lt (Nat.mul_le_mul_right _ (Nat.le_succ _)) h
      have hne : (n + 1) * orderMinBlockSize ≠ 0 := by
        rw [orderMinBlockSize]
        omega
      rw [freeBlocksVia, callsFrom, callEach_cons, Except.bind_ok_iff]
      simp only [sub64_blocks h, if_neg hne, hi hlt, Nat.add_le_add_iff_right]
      constructor
      · rintro ⟨t₁, h₁, hle, h₂⟩
        exact ⟨hle, t₁, h₁, h₂⟩
      · rintro ⟨hle, t₁, h₁, h₂⟩
        exact ⟨t₁, h₁, hle, h₂⟩

theorem sub64_mod (h : bytes % orderMinBlockSize ≠ 0) :
    sub64 bytes orderMinBlockSize % orderMinBlockSize ≠ 0 := by
  unfold sub64 u64 orderMinBlockSize at *
  omega

-- A part of a block: what remains is never exactly one block.
theorem freeBlocksVia_part (h : bytes % orderMinBlockSize ≠ 0) :
    freeBlocksVia free ptr i fuel bytes t ≠ .ok t' := by
  induction fuel generalizing i bytes t
  case zero => simp [freeBlocksVia]
  case succ fuel hi =>
    intro hok
    obtain ⟨t₁, _, hok⟩ := Except.bind_ok_iff.mp hok
    have hmod := sub64_mod h
    rw [if_neg fun hz => hmod (by rw [hz]; rfl)] at hok
    exact hi hmod hok

theorem loggedFree_ok {a : Nat} {t : Regions × List Nat} : loggedFree a (s, log) = .ok t ↔
    ∃ s₁, freePhys a s = .ok s₁ ∧ t = (s₁, log ++ [a]) := by
  rw [loggedFree, Except.bind_ok_iff]
  constructor
  · rintro ⟨s₁, h₁, h⟩
    cases h
    exact ⟨s₁, h₁, rfl⟩
  · rintro ⟨s₁, h₁, rfl⟩
    exact ⟨s₁, h₁, rfl⟩

theorem callEach_logged {log' : List Nat} : callEach loggedFree addrs (s, log) = .ok (s', log') ↔
    callEach freePhys addrs s = .ok s' ∧ log' = log ++ addrs := by
  induction addrs generalizing s log
  case nil =>
    simp [callEach, pure, Except.pure, eq_comm]
  case cons a as hi =>
    rw [callEach_cons, callEach_cons]
    constructor
    · rintro ⟨t, ht, h⟩
      obtain ⟨s₁, h₁, rfl⟩ := loggedFree_ok.mp ht
      obtain ⟨hrest, rfl⟩ := hi.mp h
      exact ⟨⟨s₁, h₁, hrest⟩, List.append_assoc log [a] as⟩
    · rintro ⟨⟨s₁, h₁, h⟩, rfl⟩
      exact ⟨_, loggedFree_ok.mpr ⟨s₁, h₁, rfl⟩, hi.mpr ⟨h, (List.append_assoc log [a] as).symm⟩⟩

end Loop

section Addresses

theorem callsFrom_eq : callsFrom ptr (u32 i) n =
    (List.range n).map fun j => u64 (ptr + u32 (orderMinBlockSize * u32 (i + j))) := by
  induction n generalizing i
  case zero => rfl
  case succ n hi =>
    rw [callsFrom, u32_succ, hi, List.range_succ_eq_map, List.map_cons, List.map_map]
    congr 2
    funext j
    simp only [Function.comp, Nat.add_assoc, Nat.add_comm 1 j]

-- The offset is a 32-bit number: it starts again at 4 GiB.
theorem callsFrom_blocks_iff (hn : n * orderMinBlockSize ≤ 2 ^ 64) :
    callsFrom ptr 0 n = blockAddresses ptr n ↔ n * orderMinBlockSize ≤ 2 ^ 32 := by
  rw [show (0 : Nat) = u32 0 from rfl, callsFrom_eq, blockAddresses, List.map_inj_left]
  simp only [List.mem_range, Nat.zero_add]
  constructor
  case mp =>
    intro h
    by_contra hlt
    have hwrap := h 0x40000 (by unfold orderMinBlockSize at hlt; omega)
    unfold u64 u32 orderMinBlockSize at hwrap
    omega
  case mpr =>
    intro hle j hj
    unfold u32 orderMinBlockSize at *
    rw [Nat.mod_eq_of_lt (by omega : j < 2 ^ 32), Nat.mul_comm, Nat.mod_eq_of_lt (by omega)]

theorem blocksFor_mul : blocksFor (n * orderMinBlockSize) = n := by
  unfold blocksFor orderMinBlockSize
  omega

theorem aligned_of_mem {a : Nat} (hp : ptr % orderMinBlockSize = 0) (h : a ∈ blockAddresses ptr n) :
    a % 0x1000 = 0 := by
  obtain ⟨j, _, rfl⟩ := List.mem_map.mp h
  unfold u64 orderMinBlockSize at *
  omega

end Addresses

section Calls

theorem freePhys_aligned {a : Nat} (ha : a % 0x1000 = 0) : freePhys a s = .ok s' ↔ s.buddyLock = false ∧
    (regionHolding a s.region = none ∧ s' = { s with buddyLock := true } ∨
      ∃ i r r', regionHolding a s.region = some i ∧ s.region[i]? = some r ∧
        freeBit r 0 (orderGetIdxFromBit (orderAddressToBit a r.base)) (u8 (orderAddressToBit a r.base)) =
          .ok r' ∧ s' = { s with region := s.region.set i r' }) := by
  rw [freePhys, if_neg (not_not_intro ha)]
  constructor
  case mp =>
    intro h
    obtain ⟨_, hl, h⟩ := Except.bind_ok_iff.mp h
    refine ⟨getLock_ok hl, ?_⟩
    split at h
    case h_1 hn =>
      cases h
      exact .inl ⟨hn, rfl⟩
    case h_2 i hi =>
      split at h
      case h_1 => cases h
      case h_2 r hr =>
        obtain ⟨r', hf, h⟩ := Except.bind_ok_iff.mp h
        cases h
        exact .inr ⟨i, r, r', hi, hr, hf, rfl⟩
  case mpr =>
    rintro ⟨hl, ⟨hn, rfl⟩ | ⟨i, r, r', hi, hr, hf, rfl⟩⟩
    · rw [hl, hn]
      rfl
    · rw [hl, hi]
      simp only [hr]
      exact Except.bind_ok_iff.mpr ⟨(), rfl, Except.bind_ok_iff.mpr ⟨r', hf, rfl⟩⟩

theorem freeBit_above {order idx bit : Nat} (h : freeBit r order idx bit = .ok r') : Above 0 r r' := by
  obtain ⟨r₁, h₁, h⟩ := Except.bind_ok_iff.mp h
  split at h
  case h_1 => cases h
  case h_2 =>
    have ha : Above 0 r r₁ := ⟨(modify_above h₁).frame, fun i hi => absurd hi (Nat.not_lt_zero i)⟩
    split at h
    case isTrue  => cases h; exact ha
    case isFalse => exact ha.trans (freeParents_above h) (Nat.zero_le _)

theorem regionHolding_congr {a : Nat} {region' : List MemRegion} (h : outlines region' = outlines region) :
    regionHolding a region' = regionHolding a region := by
  have hd (region : List MemRegion) : regionHolding a region =
      (outlines region).findIdx? fun r => decide (a ≥ r.base ∧ a ≤ r.limit) := by
    rw [regionHolding, outlines, List.findIdx?_map]
    rfl
  rw [hd, hd, h]

theorem freePhys_returns_iff {a : Nat} (ha : a % 0x1000 = 0) :
    (∃ s', freePhys a s = .ok s') ↔ s.buddyLock = false ∧ FreeFits a s.region := by
  constructor
  case mp =>
    rintro ⟨s', h⟩
    obtain ⟨hl, hs⟩ := (freePhys_aligned ha).mp h
    refine ⟨hl, fun j r₁ hat₁ hr₁ => ?_⟩
    rcases hs with ⟨hn, _⟩ | ⟨i, r, r', hat, hr, hf, _⟩
    · cases hn.symm.trans hat₁
    · cases hat.symm.trans hat₁
      cases hr.symm.trans hr₁
      exact freeBit_returns_iff.mp ⟨r', hf⟩
  case mpr =>
    rintro ⟨hl, hfit⟩
    cases hat : regionHolding a s.region
    case none   => exact ⟨_, (freePhys_aligned ha).mpr ⟨hl, .inl ⟨hat, rfl⟩⟩⟩
    case some i =>
      obtain ⟨hlt, _⟩ := List.findIdx?_eq_some_iff_getElem.mp hat
      have hr : s.region[i]? = some s.region[i] := List.getElem?_eq_getElem hlt
      obtain ⟨r', hf⟩ := freeBit_returns_iff.mpr (hfit i _ hat hr)
      exact ⟨_, (freePhys_aligned ha).mpr ⟨hl, .inr ⟨i, _, r', hat, hr, hf, rfl⟩⟩⟩

-- The lock stays taken when there is no region, and the regions are found as before.
theorem freePhys_leaves {a : Nat} (ha : a % 0x1000 = 0) (h : freePhys a s = .ok s') :
    (s'.buddyLock = false ↔ regionHolding a s.region ≠ none) ∧
      ∀ b, regionHolding b s'.region = regionHolding b s.region := by
  obtain ⟨hl, ⟨hn, rfl⟩ | ⟨i, r, r', hat, hr, hf, rfl⟩⟩ := (freePhys_aligned ha).mp h
  · exact ⟨by simp [hn], fun b => rfl⟩
  · refine ⟨by simp [hl, hat], fun b => ?_⟩
    exact regionHolding_congr (outlines_set hr (above_outline (freeBit_above hf)))

theorem inBitmaps_cons {a : Nat} : InBitmaps (a :: addrs) s ↔
    FreeFits a s.region ∧ ∀ s₁, freePhys a s = .ok s₁ → InBitmaps addrs s₁ := by
  constructor
  case mp =>
    intro h
    refine ⟨h [] a addrs s rfl rfl, fun s₁ h₁ pre p post s' he hs => ?_⟩
    exact h (a :: pre) p post s' (by rw [he, List.cons_append]) (callEach_cons.mpr ⟨s₁, h₁, hs⟩)
  case mpr =>
    rintro ⟨hfit, hrest⟩ pre p post s' he hs
    rcases pre with _ | ⟨b, pre⟩
    · cases he
      cases hs
      exact hfit
    · obtain ⟨rfl, rfl⟩ := List.cons.inj he
      obtain ⟨s₁, h₁, hs⟩ := callEach_cons.mp hs
      exact hrest s₁ h₁ pre p post s' rfl hs

-- Every call but the last must find a region, because the lock stays taken otherwise.
theorem callEach_returns_iff (ha : ∀ a ∈ addrs, a % 0x1000 = 0) (hne : addrs ≠ []) :
    (∃ s', callEach freePhys addrs s = .ok s') ↔ s.buddyLock = false ∧
      (∀ a ∈ addrs.dropLast, regionHolding a s.region ≠ none) ∧ InBitmaps addrs s := by
  induction addrs generalizing s
  case nil => exact absurd rfl hne
  case cons a as hi =>
    obtain ⟨hp, has⟩ := List.forall_mem_cons.mp ha
    have hfirst : (∃ s₁, freePhys a s = .ok s₁) ↔ s.buddyLock = false ∧ FreeFits a s.region :=
      freePhys_returns_iff hp
    rw [callEach, List.foldlM_cons, inBitmaps_cons]
    by_cases hnil : as = []
    case pos =>
      subst hnil
      have hlater (s₁ : Regions) : InBitmaps [] s₁ := fun pre p post _ he => by simp at he
      refine (returns_bind hfirst (Q := True) fun s₁ _ => iff_of_true ⟨s₁, rfl⟩ trivial).trans ?_
      simp [hlater]
    case neg =>
      have hlater (s₁ : Regions) (h₁ : freePhys a s = .ok s₁) : (∃ s', callEach freePhys as s₁ = .ok s') ↔
          (regionHolding a s.region ≠ none ∧ ∀ b ∈ as.dropLast, regionHolding b s.region ≠ none) ∧
            ∀ s₁, freePhys a s = .ok s₁ → InBitmaps as s₁ := by
        obtain ⟨hlock, hsame⟩ := freePhys_leaves hp h₁
        have hb : (∀ s₁, freePhys a s = .ok s₁ → InBitmaps as s₁) ↔ InBitmaps as s₁ := by
          simp only [h₁, Except.ok.injEq, forall_eq']
        rw [hi has hnil, hlock, hb, and_assoc]
        simp only [hsame]
      refine (returns_bind hfirst hlater).trans ?_
      rw [List.dropLast_cons_of_ne_nil hnil, List.forall_mem_cons, and_assoc]
      exact and_congr_right fun _ => and_left_comm

end Calls

-- The sizes are whole blocks of 4 GiB at most, the blocks are in regions, except perhaps the last one,
-- and their bits are in the bitmaps.
structure Freeable (ptr bytes : Nat) (s : Regions) : Prop where
  whole   : bytes % orderMinBlockSize = 0
  small   : bytes ≤ 2 ^ 32
  lock    : s.buddyLock = false
  regions : ∀ a ∈ (blockAddresses ptr (blocksFor bytes)).dropLast, regionHolding a s.region ≠ none
  bitmaps : InBitmaps (blockAddresses ptr (blocksFor bytes)) s

theorem freesRange_blocks (hp : ptr % orderMinBlockSize = 0) (hn : (n + 1) * orderMinBlockSize < 2 ^ 64) :
    FreesRange ptr ((n + 1) * orderMinBlockSize) s ↔ (n + 1) * orderMinBlockSize ≤ 2 ^ 32 ∧
      ∃ s', callEach freePhys (blockAddresses ptr (n + 1)) s = .ok s' := by
  have hu : ¬ptr % 0x1000 ≠ 0 := by
    unfold orderMinBlockSize at hp
    omega
  rw [← @callsFrom_blocks_iff ptr _ (Nat.le_of_lt hn)]
  simp only [FreesRange, freeNPhys, if_neg hu, freeBlocks_eq, blocksFor_mul, freeBlocksVia_blocks hn,
    callEach_logged, List.nil_append]
  constructor
  case mp =>
    rintro ⟨fuel, s', ⟨_, h⟩, _, _, hlog⟩
    rw [← hlog] at h
    exact ⟨hlog.symm, s', h⟩
  case mpr =>
    rintro ⟨hlog, s', h⟩
    rw [← hlog] at h ⊢
    exact ⟨n + 1, s', ⟨Nat.le_refl _, h⟩, Nat.le_refl _, h, rfl⟩

-- `freeNPhys` ends, and frees exactly the blocks of its range, just when they are freeable.
theorem freeNPhys_range_iff (hp : ptr % orderMinBlockSize = 0) (hb : 1 ≤ bytes) (hlt : bytes < 2 ^ 64) :
    FreesRange ptr bytes s ↔ Freeable ptr bytes s := by
  by_cases hw : bytes % orderMinBlockSize = 0
  case neg =>
    apply iff_of_false
    · rintro ⟨fuel, s', _, h⟩
      exact freeBlocksVia_part hw h
    · exact fun h => hw h.whole
  case pos =>
    obtain ⟨n, rfl⟩ : ∃ n, bytes = (n + 1) * orderMinBlockSize := by
      refine ⟨bytes / orderMinBlockSize - 1, ?_⟩
      unfold orderMinBlockSize at *
      omega
    have hne : blockAddresses ptr (n + 1) ≠ [] := by
      simp [blockAddresses]
    rw [freesRange_blocks hp hlt, callEach_returns_iff (fun _ => aligned_of_mem hp) hne]
    constructor
    case mp =>
      rintro ⟨hsmall, hl, hr, hm⟩
      exact ⟨hw, hsmall, hl, by rwa [blocksFor_mul], by rwa [blocksFor_mul]⟩
    case mpr =>
      rintro ⟨_, hsmall, hl, hr, hm⟩
      rw [blocksFor_mul] at hr hm
      exact ⟨hsmall, hl, hr, hm⟩

-- Two blocks of a region with all orders.
theorem freeNPhys_range_iff_tenOrders : FreesRange 0x100000 0x8000 (initial [tenOrders]).pmm ∧
    Freeable 0x100000 0x8000 (initial [tenOrders]).pmm := by
  have h : FreesRange 0x100000 0x8000 (initial [tenOrders]).pmm := ⟨2, _, rfl, rfl⟩
  exact ⟨h, (freeNPhys_range_iff (by decide) (by decide) (by decide)).mp h⟩

-- One byte is no whole block, and the call goes on for ever.
theorem freeNPhys_no_range : ¬∀ (ptr bytes : Nat) (s : Regions), ptr % orderMinBlockSize = 0 →
    (∃ r ∈ s.region, r.base ≤ ptr ∧ ptr < r.limit) → 1 ≤ bytes → bytes < 2 ^ 64 → s.buddyLock = false →
    FreesRange ptr bytes s := by
  intro h
  obtain ⟨fuel, s', _, hv⟩ := h 0x100000 1 (initial [tenOrders]).pmm (by decide)
    ⟨_, .head _, by decide⟩ (by decide) (by decide) rfl
  exact freeBlocksVia_part (by decide) hv

end RoverOS.Pmm
