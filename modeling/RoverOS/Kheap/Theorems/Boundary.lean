import RoverOS.Kheap.Theorems.Search

-- The pointers that `kmallocAligned` returns, in whatever state the heap is.

open Bytes (Memory)

namespace RoverOS.Kheap

variable {h h' : Kheap} {m : Memory} {s : State} {bs : List Block} {vmalloc : Nat → Nat}
  {a block chunk csz fuel ptr sz x : Nat} {found : Bool}

-- The block has `sz` free bytes from the page boundary on, with room for the header before it and the
-- redzone behind.
structure FitsAligned (m : Memory) (sz block : Nat) : Prop where
  header : kheapBlockDataSz ≤ alignmentOffset m block
  room   : sz + 8 + kheapBlockDataSz + alignmentOffset m block ≤ free m block

-- The block at `ptr`, with its header, its `sz` bytes and its redzone, lies in bytes that were free: those of
-- a block in the heap, or the new chunk.
def Usable (h : Kheap) (chunk bytes ptr sz : Nat) : Prop :=
  (∃ x, Reaches h x ∧ maxAllocPtr h.mem x + 8 + kheapBlockDataSz ≤ ptr ∧
    ptr + sz + 8 ≤ maxTotalPtr h.mem x) ∨
  chunk + kheapBlockDataSz ≤ ptr ∧ ptr + sz + 8 ≤ chunk + bytes

-- What is expected of the pointer.
structure AlignedMemory (vmalloc : Nat → Nat) (h : Kheap) (ptr sz : Nat) : Prop where
  aligned : ptr % 0x1000 = 0
  usable  : Usable h (vmalloc (extendSize (u64 (sz + 8 + kheapBlockDataSz))))
    (extendSize (u64 (sz + 8 + kheapBlockDataSz))) ptr sz

section Search

-- The blocks behind `a`.
inductive ReachesFrom (m : Memory) (a : Nat) : Nat → Prop
  | refl : ReachesFrom m a a
  | next {x : Nat} : ReachesFrom m a x → Kheap.next m x ≠ 0 → ReachesFrom m a (Kheap.next m x)

theorem reachesFrom_start : ReachesFrom h.mem h.startBlock x ↔ Reaches h x := by
  constructor
  · intro hr
    induction hr
    case refl          => exact .start
    case next hn hi    => exact .next hi hn
  · intro hr
    induction hr
    case start         => exact .refl
    case next hn hi    => exact .next hi hn

theorem ReachesFrom.behind (hn : Kheap.next m a ≠ 0) (hr : ReachesFrom m (Kheap.next m a) x) :
    ReachesFrom m a x := by
  induction hr
  case refl       => exact .next .refl hn
  case next hx hi => exact .next hi hx

-- The test of the loop.
structure Passes (m : Memory) (csz block : Nat) : Prop where
  header : kheapBlockDataSz ≤ alignmentOffset m block
  room   : u64 (csz + alignmentOffset m block) ≤ free m block

-- One turn of the loop that comes to an end.
theorem search_aligned_ok (h : search m csz true fuel block = .ok (x, found)) :
    ∃ fuel' < fuel, kheapBlockDataSz ≤ alignmentOffset m block ∧
      (Passes m csz block ∧ x = block ∧ found = true ∨
      ¬Passes m csz block ∧ next m block = 0 ∧ x = block ∧ found = false ∨
      ¬Passes m csz block ∧ next m block ≠ 0 ∧ search m csz true fuel' (next m block) = .ok (x, found)) := by
  induction fuel
  case zero => cases h
  case succ fuel hi =>
    obtain ⟨_, _, h⟩ := Except.bind_ok_iff.mp h
    split_ifs at h with ht hp hf hn
    · obtain ⟨fuel', hlt, hcases⟩ := hi h
      exact ⟨fuel', Nat.lt_succ_of_lt hlt, hcases⟩
    all_goals
      have hle : kheapBlockDataSz ≤ alignmentOffset m block :=
        Nat.le_of_not_lt fun hlt => ht ⟨rfl, hlt⟩
    · cases h
      exact ⟨fuel, Nat.lt_succ_self fuel, hle, .inl ⟨⟨hle, hp.2⟩, rfl, rfl⟩⟩
    · exact absurd rfl hf.2
    · cases h
      exact ⟨fuel, Nat.lt_succ_self fuel, hle, .inr (.inl ⟨fun h => hp ⟨rfl, h.room⟩, hn, rfl, rfl⟩)⟩
    · exact ⟨fuel, Nat.lt_succ_self fuel, hle, .inr (.inr ⟨fun h => hp ⟨rfl, h.room⟩, hn, h⟩)⟩

-- A block that is found passes the test, and lies behind the one where the search began.
theorem search_aligned_found (h : search m csz true fuel block = .ok (x, true)) :
    ReachesFrom m block x ∧ Passes m csz x := by
  induction fuel using Nat.strong_induction_on generalizing block
  case _ fuel hi =>
    obtain ⟨fuel', hlt, _, ⟨hp, rfl, _⟩ | ⟨_, _, _, hf⟩ | ⟨_, hn, h⟩⟩ := search_aligned_ok h
    · exact ⟨.refl, hp⟩
    · cases hf
    · obtain ⟨hr, hp⟩ := hi fuel' hlt h
      exact ⟨hr.behind hn, hp⟩

-- When none is found, no block behind passes the test.
theorem search_aligned_last (h : search m csz true fuel block = .ok (x, false))
    (hr : ReachesFrom m block a) : ¬Passes m csz a := by
  have hall : ∃ fuel, search m csz true fuel a = .ok (x, false) := by
    induction hr
    case refl => exact ⟨fuel, h⟩
    case next y hn hi =>
      obtain ⟨fuel, h⟩ := hi
      obtain ⟨fuel', _, _, ⟨_, _, hf⟩ | ⟨_, hz, _⟩ | ⟨_, _, h⟩⟩ := search_aligned_ok h
      · cases hf
      · exact absurd hz hn
      · exact ⟨fuel', h⟩
  obtain ⟨fuel, h⟩ := hall
  obtain ⟨_, _, _, ⟨_, _, hf⟩ | ⟨hnp, _⟩ | ⟨hnp, _⟩⟩ := search_aligned_ok h
  · cases hf
  · exact hnp
  · exact hnp

end Search

section Pointer

theorem alignmentOffset_le : alignmentOffset m block ≤ 0x1000 :=
  Nat.sub_le _ _

theorem free_lt : free m block < 2 ^ 32 :=
  Bytes.load_lt

-- What the test means, when the sizes do not wrap around.
theorem fitsAligned_iff : FitsAligned m sz block ↔
    sz < 2 ^ 32 ∧ Passes m (u64 (sz + 8 + kheapBlockDataSz)) block := by
  have hfree := @free_lt m block
  have hoff := @alignmentOffset_le m block
  have hsum (h : sz < 2 ^ 32) : u64 (u64 (sz + 8 + kheapBlockDataSz) + alignmentOffset m block) =
      sz + 8 + kheapBlockDataSz + alignmentOffset m block := by
    rw [csz_eq (by omega), kheapBlockDataSz]
    exact u64_of_lt (by omega)
  constructor
  case mp =>
    intro h
    have hroom := h.room
    have hlt : sz < 2 ^ 32 := by omega
    exact ⟨hlt, h.header, (hsum hlt).trans_le hroom⟩
  case mpr =>
    rintro ⟨hlt, h⟩
    exact ⟨h.header, (hsum hlt).symm.trans_le h.room⟩

-- The heap has no room for more than 32 bits can count.
theorem Usable.lt {chunk bytes : Nat} (hu : Usable h chunk (extendSize bytes) ptr sz) : sz < 2 ^ 32 := by
  rcases hu with ⟨x, _, hlo, hhi⟩ | ⟨hlo, hhi⟩
  · have hfree := @free_lt h.mem x
    rw [maxAllocPtr] at hlo
    rw [maxTotalPtr] at hhi
    omega
  · have hsize : extendSize bytes < 2 ^ 32 := u32_lt _
    omega

theorem kmallocInt_aligned_ptr (hpos : 1 ≤ sz) (hk : kmallocInt vmalloc fuel sz true h = .ok (ptr, h')) :
    ∃ x found, search h.mem (u64 (sz + 8 + kheapBlockDataSz)) true fuel h.startBlock = .ok (x, found) ∧
      ptr = if found then maxAllocPtr h.mem x + 8 + alignmentOffset h.mem x
        else vmalloc (extendSize (u64 (sz + 8 + kheapBlockDataSz))) + kheapBlockDataSz := by
  obtain ⟨x, found, hs, hptr⟩ := kmallocInt_ptr hpos hk
  refine ⟨x, found, hs, ?_⟩
  rw [hptr]
  cases found
  case false => rfl
  case true =>
    simp only [splitAligned, maxAllocPtr, blockDataPtr, kheapBlockDataSz, if_true]
    omega

end Pointer

section Live

variable {bytes : Nat}

-- What the heap's bookkeeping has as free is apart from what the callers hold, and in a chunk of the heap.
theorem Holds.usable_free (hs : Holds s bs) (hr : Reaches s.heap x)
    (hlo : maxAllocPtr s.heap.mem x + 8 + kheapBlockDataSz ≤ ptr)
    (hhi : ptr + sz + 8 ≤ maxTotalPtr s.heap.mem x) :
    (∃ c ∈ s.owned, c.fst ≤ blockFromPtr ptr ∧ ptr + sz + 8 ≤ c.snd) ∧
      ∀ y ∈ s.live, y.fst + y.snd ≤ blockFromPtr ptr ∨ ptr + sz + 8 ≤ y.fst := by
  obtain ⟨pre, b, post, hbs, hbx⟩ := hs.chain.exists_of_reaches hr
  subst hbs hbx
  have hb := hs.chain.seg.at
  have hbm : b ∈ pre ++ b :: post := by simp
  have hin := hs.chain.inside hbm
  have hfirst : b.chunk.fst ≤ b.addr := hin.lo
  have hlast : b.fin ≤ b.chunk.snd := hin.hi
  have hu := b.addr_lt_used
  have hused : b.addr + 40 + b.allocated = b.used := rfl
  have hfin : b.used + b.free = b.fin := rfl
  rw [maxAllocPtr, hb.allocated, kheapBlockDataSz] at hlo
  rw [hb.maxTotalPtr] at hhi
  rw [blockFromPtr, kheapBlockDataSz]
  constructor
  case left => exact ⟨b.chunk, hin.owned, by omega, by omega⟩
  case right =>
    intro y hy
    obtain ⟨c, hc, rfl⟩ := List.mem_map.mp (hs.live.subset hy)
    have hcm := List.mem_of_mem_tail hc
    have hcu : c.addr + 40 + c.allocated = c.used := rfl
    have hcf := c.used_le_fin
    simp only [Block.data]
    by_cases he : b = c
    case pos =>
      subst he
      omega
    case neg =>
      have ha := hs.chain.apart_of_ne hbm hcm he
      simp only [Extent.Apart, Block.extent] at ha
      omega

end Live

section Example

end Example

end RoverOS.Kheap
