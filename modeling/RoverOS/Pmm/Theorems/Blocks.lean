import RoverOS.Library.Run
import RoverOS.Pmm.Theorems.Leaf

-- Runs of the physical memory manager, with the blocks that are handed out and the ranges that are
-- reserved.

namespace RoverOS.Pmm

open MemRegion

-- An address and a number of bytes.
abbrev Range := Nat × Nat

def Apart (a b : Range) : Prop :=
  ∀ x, ¬((a.1 ≤ x ∧ x < a.1 + a.2) ∧ b.1 ≤ x ∧ x < b.1 + b.2)

structure State where
  pmm      : Regions
  live     : List Range
  reserved : List Range

inductive Call
  | alloc (bytes type : Nat) (flags : BitVec 16)
  | reserve (addr bytes : Nat)
  | free (ptr actual : Nat)

inductive Step : State → Call → State → Prop
  | alloc {s : State} {bytes type ptr actual : Nat} {flags : BitVec 16} {pmm : Regions} :
    allocPhys bytes type flags s.pmm = .ok ((ptr, actual), pmm) →
    Step s (.alloc bytes type flags) { s with
      pmm, live := if ptr = memoryAllocationFailed then s.live else (ptr, actual) :: s.live }
  | reserve {s : State} {addr bytes ret : Nat} {pmm : Regions} :
    allocPhysAddress addr bytes s.pmm = .ok (ret, pmm) →
    Step s (.reserve addr bytes) { s with
      pmm, reserved := if ret = memoryAllocationFailed then s.reserved else (addr, bytes) :: s.reserved }
  | free {s : State} {ptr actual fuel : Nat} {pmm : Regions} :
    (ptr, actual) ∈ s.live → freeNPhys fuel ptr actual s.pmm = .ok pmm →
    Step s (.free ptr actual) { s with pmm, live := s.live.erase (ptr, actual) }

def MemRegion.block (r : MemRegion) (n : Nat) : Range :=
  (r.base + n * orderMinBlockSize, orderMinBlockSize)

-- What the manager promises.
structure Safe (s : State) : Prop where
  live     : s.live.Pairwise Apart
  reserved : ∀ b ∈ s.live, ∀ q ∈ s.reserved, Apart b q
  inside   : ∀ b ∈ s.live, ∃ r ∈ s.pmm.region,
    r.base ≤ b.1 ∧ b.1 + b.2 ≤ r.base + r.blockCount * orderMinBlockSize

-- The calls after which the promise still holds. A request fits the smallest blocks, and the region
-- chosen for it is used up or has one of its first 31 blocks clear.
def AllocAllowed (s : State) (bytes type : Nat) (flags : BitVec 16) : Prop :=
  bytes ≤ orderMinBlockSize ∧
    ∀ i r, bestRegion type (strictFlags type flags) 0 0 none s.pmm.region = .ok (some i) →
      s.pmm.region[i]? = some r →
      r.leaves.used ≥ r.leaves.entryn ∨ ∃ n < 31, r.word.getLsbD n = false

-- A reservation lies in its region, in the blocks that are marked for it, and these are among the
-- first 31; it meets no live block, and the region's counter does not wrap.
def ReserveAllowed (s : State) (addr bytes : Nat) : Prop :=
  ∀ i r, regionAround addr s.pmm.region = some i → s.pmm.region[i]? = some r →
    r.base ≤ kalign addr ∧ addr + bytes ≤ r.limit ∧
    (kalign addr - r.base) / orderMinBlockSize + blocksFor bytes ≤ 31 ∧
    addr + bytes ≤
      (r.block ((kalign addr - r.base) / orderMinBlockSize + blocksFor bytes)).1 ∧
    r.leaves.used + blocksFor bytes < 2 ^ 32 ∧ ∀ b ∈ s.live, Apart b (addr, bytes)

-- The first region that ends at or after the block is the one the block is in.
def FreeAllowed (s : State) (ptr : Nat) : Prop :=
  ∀ i j r, regionHolding ptr s.pmm.region = some i → s.pmm.region[j]? = some r →
    r.base ≤ ptr → ptr < r.limit → i = j

def Allowed (s : State) : Call → Prop
  | .alloc bytes type flags => AllocAllowed s bytes type flags
  | .reserve addr bytes     => ReserveAllowed s addr bytes
  | .free ptr _             => FreeAllowed s ptr

structure WellFormed (r : MemRegion) : Prop where
  bound  : r.base + r.blockCount * orderMinBlockSize ≤ r.limit
  limit  : r.limit < 2 ^ 64
  entryn : r.leaves.entryn ≤ r.blockCount
  small  : r.leaves.entryn < 2 ^ 32
  count  : r.leaves.used < 2 ^ 32
  -- The counter never falls behind the bits, when these have room below 31.
  used   : r.leaves.entryn ≤ 31 → setBits r.word r.leaves.entryn ≤ r.leaves.used

structure Table (region : List MemRegion) : Prop where
  wellFormed : ∀ {i : Nat} {r}, region[i]? = some r → WellFormed r
  apart      : ∀ {i j : Nat} {r r'}, region[i]? = some r → region[j]? = some r' → i ≠ j →
    r.limit ≤ r'.base ∨ r'.limit ≤ r.base

-- `n` is a block of region `i` that can be handed out.
structure IsBlock (region : List MemRegion) (i n : Nat) (r : MemRegion) : Prop where
  get    : region[i]? = some r
  lt     : n < 31
  entryn : n < r.leaves.entryn

structure Inv (s : State) : Prop where
  table : Table s.pmm.region
  nodup : s.live.Nodup
  live  : ∀ b ∈ s.live, ∃ i n r, IsBlock s.pmm.region i n r ∧ r.word.getLsbD n = true ∧ b = r.block n
  clear : ∀ q ∈ s.reserved, ∀ i n r, IsBlock s.pmm.region i n r → r.word.getLsbD n = false →
    Apart (r.block n) q
  apart : ∀ b ∈ s.live, ∀ q ∈ s.reserved, Apart b q

variable {s s' : State} {region : List MemRegion} {r r' : MemRegion} {i j n k : Nat} {a b : Range}

theorem Apart.of_le (h : a.1 + a.2 ≤ b.1 ∨ b.1 + b.2 ≤ a.1) : Apart a b := by
  intro x hx
  omega

theorem IsBlock.lt_limit (t : Table region) (h : IsBlock region i n r) :
    r.base ≤ (r.block n).1 ∧ (r.block n).1 + (r.block n).2 ≤ r.limit := by
  have hb := (t.wellFormed h.get).bound
  have he := (t.wellFormed h.get).entryn
  have hn := h.entryn
  simp only [block, orderMinBlockSize] at hb ⊢
  omega

theorem IsBlock.apart (t : Table region) (h : IsBlock region i n r) (h' : IsBlock region j k r')
    (hne : ¬(i = j ∧ n = k)) : Apart (r.block n) (r'.block k) := by
  apply Apart.of_le
  by_cases hij : i = j
  case pos =>
    subst hij
    cases Option.some.inj (h.get.symm.trans h'.get)
    have hnk : n ≠ k := fun he => hne ⟨rfl, he⟩
    simp only [block, orderMinBlockSize]
    omega
  case neg =>
    have hl := h.lt_limit t
    have hl' := h'.lt_limit t
    cases t.apart h.get h'.get hij <;> omega

theorem Inv.safe (h : Inv s) : Safe s where
  live := by
    refine h.nodup.imp_of_mem fun hb hb' hne => ?_
    have ⟨i, n, r, hn, _, he⟩ := h.live _ hb
    have ⟨j, k, r', hk, _, he'⟩ := h.live _ hb'
    rw [he, he']
    refine hn.apart h.table hk ?_
    rintro ⟨rfl, rfl⟩
    cases Option.some.inj (hn.get.symm.trans hk.get)
    exact hne (he.trans he'.symm)
  reserved := h.apart
  inside b hb := by
    have ⟨i, n, r, hn, _, he⟩ := h.live b hb
    have hen := (h.table.wellFormed hn.get).entryn
    have hlt := hn.entryn
    refine ⟨r, List.mem_of_getElem? hn.get, ?_⟩
    simp only [he, block, orderMinBlockSize]
    omega

-- Region `i` changes from `r` to `r'`, in its orders only.
structure Update (region : List MemRegion) (i : Nat) (r r' : MemRegion) : Prop where
  get    : region[i]? = some r
  frame  : r' = { r with order := r'.order }
  entryn : r'.leaves.entryn = r.leaves.entryn
  count  : r'.leaves.used < 2 ^ 32
  used   : r.leaves.entryn ≤ 31 → setBits r'.word r.leaves.entryn ≤ r'.leaves.used

namespace Update

variable (u : Update region i r r')

include u

theorem cases_get {x : MemRegion} (h : (region.set i r')[j]? = some x) :
    (j = i ∧ x = r') ∨ (j ≠ i ∧ region[j]? = some x) := by
  by_cases hj : j = i
  case pos =>
    have ⟨hlt, _⟩ := List.getElem?_eq_some_iff.mp u.get
    rw [hj, List.getElem?_set_self hlt] at h
    exact .inl ⟨hj, (Option.some.inj h).symm⟩
  case neg =>
    rw [List.getElem?_set_ne (Ne.symm hj)] at h
    exact .inr ⟨hj, h⟩

theorem base : r'.base = r.base := by
  rw [u.frame]

theorem limit : r'.limit = r.limit := by
  rw [u.frame]

theorem block_eq : r'.block n = r.block n := by
  rw [block, block, u.base]

-- A block after the change is a block before it.
theorem isBlock {x : MemRegion} (h : IsBlock (region.set i r') j n x) :
    (j = i ∧ x = r' ∧ IsBlock region i n r) ∨ (j ≠ i ∧ IsBlock region j n x) := by
  have ⟨hg, hlt, he⟩ := h
  cases u.cases_get hg
  case inl hj => exact .inl ⟨hj.left, hj.right, u.get, hlt, u.entryn ▸ hj.right ▸ he⟩
  case inr hj => exact .inr ⟨hj.left, hj.right, hlt, he⟩

theorem isBlock_same (h : IsBlock region i n r) : IsBlock (region.set i r') i n r' := by
  have ⟨hlt, _⟩ := List.getElem?_eq_some_iff.mp u.get
  exact ⟨List.getElem?_set_self hlt, h.lt, u.entryn ▸ h.entryn⟩

omit u in
theorem isBlock_other {x : MemRegion} (h : IsBlock region j n x) (hj : j ≠ i) :
    IsBlock (region.set i r') j n x :=
  ⟨(List.getElem?_set_ne (Ne.symm hj)).trans h.get, h.lt, h.entryn⟩

theorem wellFormed (w : WellFormed r) : WellFormed r' where
  bound  := by rw [u.frame]; exact w.bound
  limit  := u.limit ▸ w.limit
  entryn := by
    rw [u.entryn, u.frame]
    exact w.entryn
  small  := u.entryn ▸ w.small
  count  := u.count
  used   := u.entryn ▸ u.used

theorem table (t : Table region) : Table (region.set i r') where
  wellFormed hj := by
    cases u.cases_get hj
    case inl h => exact h.right ▸ u.wellFormed (t.wellFormed u.get)
    case inr h => exact t.wellFormed h.right
  apart {j k x y} hj hk hne := by
    rcases u.cases_get hj with ⟨rfl, rfl⟩ | ⟨_, hj₀⟩ <;>
      rcases u.cases_get hk with ⟨rfl, rfl⟩ | ⟨_, hk₀⟩
    · exact absurd rfl hne
    · simpa only [u.base, u.limit] using t.apart u.get hk₀ hne
    · simpa only [u.base, u.limit] using t.apart hj₀ u.get hne
    · exact t.apart hj₀ hk₀ hne

end Update

-- Marking more blocks keeps what was there.
theorem Inv.mark (h : Inv s) (u : Update s.pmm.region i r r')
    (hw : ∀ n, r.word.getLsbD n = true → r'.word.getLsbD n = true) (lock : Bool) :
    Inv { s with pmm := { region := s.pmm.region.set i r', buddyLock := lock } } where
  table := u.table h.table
  nodup := h.nodup
  apart := h.apart
  live b hb := by
    have ⟨j, n, x, hn, hset, he⟩ := h.live b hb
    by_cases hj : j = i
    case pos =>
      subst hj
      cases Option.some.inj (hn.get.symm.trans u.get)
      exact ⟨j, n, r', u.isBlock_same hn, hw n hset, he.trans u.block_eq.symm⟩
    case neg => exact ⟨j, n, x, Update.isBlock_other hn hj, hset, he⟩
  clear q hq j n x hn hclear := by
    rcases u.isBlock hn with ⟨_, rfl, hn₀⟩ | ⟨_, hn₀⟩
    · rw [u.block_eq]
      refine h.clear q hq i n r hn₀ ?_
      by_contra hset
      rw [hw n (by simpa using hset)] at hclear
      cases hclear
    · exact h.clear q hq j n x hn₀ hclear

-- A block that was clear and has been marked can be handed out.
theorem Inv.hand_out (h : Inv s) (u : Update s.pmm.region i r r') (hn : IsBlock s.pmm.region i n r)
    (hc : r.word.getLsbD n = false)
    (hw : ∀ k, r'.word.getLsbD k = (r.word.getLsbD k || decide (n = k))) (lock : Bool) :
    Inv { pmm := { region := s.pmm.region.set i r', buddyLock := lock }
          live := r.block n :: s.live, reserved := s.reserved } := by
  have hm := h.mark u (fun k hk => by rw [hw, hk, Bool.true_or]) lock
  refine ⟨hm.table, List.nodup_cons.mpr ⟨?_, h.nodup⟩, ?live, hm.clear, ?apart⟩
  · intro hb
    have ⟨j, k, x, hk, hset, he⟩ := h.live _ hb
    by_cases hjk : i = j ∧ n = k
    case pos =>
      have hx := hk.get
      rw [← hjk.left, hn.get, Option.some.injEq] at hx
      rw [← hx, ← hjk.right, hc] at hset
      cases hset
    case neg =>
      have ha := hn.apart h.table hk hjk
      have hlt : (r.block n).1 < (r.block n).1 + (r.block n).2 := by
        simp only [block, orderMinBlockSize]
        omega
      rw [← he] at ha
      exact ha _ ⟨⟨le_rfl, hlt⟩, le_rfl, hlt⟩
  case live =>
    intro b hb
    cases List.mem_cons.mp hb
    case inl he => exact ⟨i, n, r', u.isBlock_same hn, by simp [hw], he.trans u.block_eq.symm⟩
    case inr hb => exact hm.live b hb
  case apart =>
    intro b hb q hq
    cases List.mem_cons.mp hb
    case inl he => exact he ▸ h.clear q hq i n r hn hc
    case inr hb => exact h.apart b hb q hq

-- A live block can be taken back and cleared.
theorem Inv.take_back (h : Inv s) (u : Update s.pmm.region i r r')
    (hn : IsBlock s.pmm.region i n r) (hb : r.block n ∈ s.live)
    (hw : ∀ k, r'.word.getLsbD k = (r.word.getLsbD k && !decide (n = k))) (lock : Bool) :
    Inv { pmm := { region := s.pmm.region.set i r', buddyLock := lock }
          live := s.live.erase (r.block n), reserved := s.reserved } where
  table := u.table h.table
  nodup := h.nodup.erase _
  apart b hb := h.apart b (List.mem_of_mem_erase hb)
  live b hb' := by
    have ⟨hne, hb'⟩ := h.nodup.mem_erase_iff.mp hb'
    have ⟨j, k, x, hk, hset, he⟩ := h.live b hb'
    by_cases hj : j = i
    case pos =>
      subst hj
      cases Option.some.inj (hk.get.symm.trans u.get)
      have hnk : n ≠ k := by
        rintro rfl
        exact hne he
      exact ⟨j, k, r', u.isBlock_same hk, by simp [hw, hset, hnk], he.trans u.block_eq.symm⟩
    case neg => exact ⟨j, k, x, Update.isBlock_other hk hj, hset, he⟩
  clear q hq j k x hk hclear := by
    rcases u.isBlock hk with ⟨_, rfl, hk₀⟩ | ⟨_, hk₀⟩
    · rw [u.block_eq]
      by_cases hnk : n = k
      case pos => exact hnk ▸ h.apart _ hb q hq
      case neg => exact h.clear q hq i k r hk₀ (by simpa [hw, hnk] using hclear)
    · exact h.clear q hq j k x hk₀ hclear

end RoverOS.Pmm
