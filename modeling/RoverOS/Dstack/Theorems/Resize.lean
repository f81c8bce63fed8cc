import RoverOS.Dstack.Memory
import RoverOS.Library.Run

-- What the calls that resize a data stack keep of it.

open Bytes (load load_congr store_outside load_store)
open Run (Steps)

namespace RoverOS.Dstack

open Kmalloc (setRedzone)

section Krealloc

variable {σ : Type} {blocks : Blocks σ} {heap heap' : Heap σ} {ptr c : Chunk} {r : Option Chunk} {sz : Nat}

-- There is room for a new block, and the old one can be freed.
def Moves (blocks : Blocks σ) (ptr : Chunk) (sz : Nat) (chain : σ) : Prop :=
  ∃ nblock chain₁ chain₂, blocks.newBlock sz chain = .ok (nblock, chain₁) ∧
    blocks.kfreeInt ptr chain₁ = .ok chain₂

-- What `krealloc` leaves of the old block in the new one.
structure Keeps (ptr : Chunk) (sz : Nat) (c : Chunk) : Prop where
  size  : c.size = u32 sz
  bytes : ∀ i < ptr.size, i < sz → c.bytes i = ptr.bytes i

theorem Chunk.keeps_self (c : Chunk) : Keeps c c.size c where
  size        := (u32_of_lt (by have := c.small; omega)).symm
  bytes _ _ _ := rfl

theorem Chunk.keeps_resize (h : sz ≤ ptr.size + ptr.free) : Keeps ptr sz (ptr.resize sz h) where
  size         := (u32_of_lt (Nat.lt_of_le_of_lt h ptr.small)).symm
  bytes i _ hi := by
    have hout : ¬(sz ≤ i ∧ i < sz + 8) := by omega
    exact if_neg hout

theorem Chunk.keeps_copy (h : c.size = u32 sz) : Keeps ptr sz (c.copy ptr) where
  size         := h
  bytes _ hi _ := if_pos hi

-- A request of no bytes is one that the old block has room for.
theorem kmallocInt_ok {chain chain' : σ} (h : kmallocInt blocks sz chain = .ok (r, chain')) (hz : sz ≠ 0) :
    ∃ nblock c, blocks.newBlock sz chain = .ok (nblock, chain') ∧ r = some c ∧ c.size = u32 sz := by
  rw [kmallocInt, if_neg hz] at h
  obtain ⟨⟨nblock, chain₁⟩, hn, h⟩ := Except.bind_ok_iff.mp h
  cases h
  exact ⟨nblock, _, hn, rfl, nblock.property⟩

theorem krealloc_ok (h : krealloc blocks ptr sz heap = .ok (r, heap')) :
    heap.lock = false ∧ ptr.Checked ∧ (sz ≤ ptr.size + ptr.free ∨ Moves blocks ptr sz heap.chain) ∧
      ∃ c, r = some c ∧ Keeps ptr sz c := by
  obtain ⟨_, hl, h⟩ := Except.bind_ok_iff.mp h
  split at h
  case isTrue => cases h
  case isFalse hc =>
    refine ⟨getLock_ok hl, not_not.mp hc, ?_⟩
    split at h
    case isTrue hs =>
      cases h
      subst hs
      exact ⟨.inl (Nat.le_add_right _ _), ptr, rfl, ptr.keeps_self⟩
    case isFalse =>
      split at h
      case isTrue hs =>
        cases h
        exact ⟨.inl hs, _, rfl, Chunk.keeps_resize hs⟩
      case isFalse hs =>
        obtain ⟨⟨nptr, chain₁⟩, hm, h⟩ := Except.bind_ok_iff.mp h
        obtain ⟨nblock, c, hn, rfl, hsize⟩ := kmallocInt_ok hm (by omega)
        obtain ⟨chain₂, hf, h⟩ := Except.bind_ok_iff.mp h
        cases h
        exact ⟨.inr ⟨nblock, chain₁, chain₂, hn, hf⟩, _, rfl, Chunk.keeps_copy hsize⟩

theorem krealloc_returns (hl : heap.lock = false) (hc : ptr.Checked)
    (hs : sz ≤ ptr.size + ptr.free ∨ Moves blocks ptr sz heap.chain) :
    ∃ r heap', krealloc blocks ptr sz heap = .ok (r, heap') := by
  rw [krealloc, getLock_of_free hl]
  simp only [bind, Except.bind, if_neg (not_not.mpr hc)]
  by_cases hsame : ptr.size = sz
  case pos => exact ⟨_, _, if_pos hsame⟩
  case neg =>
    rw [if_neg hsame]
    by_cases hroom : sz ≤ ptr.size + ptr.free
    case pos => exact ⟨_, _, dif_pos hroom⟩
    case neg =>
      have hz : sz ≠ 0 := by omega
      obtain ⟨nblock, chain₁, chain₂, hn, hf⟩ := hs.resolve_left hroom
      rw [dif_neg hroom, kmallocInt, if_neg hz]
      simp only [bind, Except.bind, hn, pure, Except.pure, hf]
      exact ⟨_, _, rfl⟩

end Krealloc

namespace Stored

variable {σ : Type} {blocks : Blocks σ} {heap heap' : Heap σ} {s s' s₀ : Stored} {c : Chunk}
variable {data : Word} {sz n initialSize : Nat}

-- The stack is in its memory, and all of that is counted.
structure Bounded (s : Stored) : Prop where
  base_le : s.chunk.base ≤ s.top
  top_le  : s.top ≤ s.chunk.base + s.maxSize
  size    : s.maxSize = s.chunk.size

-- Between two calls, with `n` items on the stack.
structure Holds (n : Nat) (s : Stored) : Prop where
  top  : s.top = s.chunk.base + 8 * n
  le   : 8 * n ≤ s.maxSize
  size : s.maxSize = s.chunk.size
  lock : s.lock = false

theorem Holds.bounded (h : Holds n s) : Bounded s where
  base_le := by rw [h.top]; exact Nat.le_add_right _ _
  top_le  := by rw [h.top]; exact Nat.add_le_add_left h.le _
  size    := h.size

theorem Holds.maxSize_lt (h : Holds n s) : s.chunk.base + s.maxSize + 8 ≤ 2 ^ 64 := by
  rw [h.size]
  exact Nat.le_trans (Nat.le_add_right _ _) s.chunk.fits

theorem Holds.bytesInUse (h : Holds n s) : s.bytesInUse = 8 * n := by
  have := h.maxSize_lt
  have := h.le
  rw [Stored.bytesInUse, h.top, sub64_of_le (by omega) (by omega)]
  omega

theorem Holds.items (h : Holds n s) : s.items = ((List.range n).map fun i => s.item (8 * i)).reverse := by
  rw [Stored.items, h.bytesInUse, Nat.mul_div_cancel_left n (by decide)]

theorem item_congr {offset : Nat}
    (hb : ∀ i, offset ≤ i → i < offset + 8 → s'.chunk.bytes i = s.chunk.bytes i) :
    s'.item offset = s.item offset := by
  rw [item, item, load_congr hb]

-- With the bytes below them unchanged, the items are the ones that they were.
theorem Holds.items_congr (h : Holds n s) (h' : Holds n s')
    (hb : ∀ i < 8 * n, s'.chunk.bytes i = s.chunk.bytes i) : s'.items = s.items := by
  rw [h'.items, h.items]
  refine congrArg List.reverse (List.map_congr_left fun i hi => item_congr fun j _ hj => hb j ?_)
  have := List.mem_range.mp hi
  omega

theorem Holds.unlocked (h : Holds n s) : getLock s.lock = .ok () :=
  getLock_of_free h.lock

theorem Holds.next (h : Holds n s) : u64 (s.bytesInUse + 8) = 8 * n + 8 := by
  have hfits := h.maxSize_lt
  have hle := h.le
  have hnull := s.chunk.not_null
  rw [h.bytesInUse]
  exact u64_of_lt (by omega)

section List

theorem Holds.store (h : Holds n s) (data : Word) (hroom : 8 * n + 8 ≤ s.maxSize) :
    ∃ s', s.store data = .ok s' ∧ Holds (n + 1) s' ∧ s'.items = data :: s.items ∧ s'.maxSize = s.maxSize := by
  have hfits := h.maxSize_lt
  have hsize : s.bytesInUse + 8 ≤ s.chunk.size := by rwa [h.bytesInUse, ← h.size]
  have htop : u64 (s.top + 8) = s.chunk.base + 8 * (n + 1) := by
    rw [h.top, u64_of_lt (by have := s.chunk.not_null; omega)]
    omega
  refine ⟨_, if_pos hsize, ?_⟩
  rw [htop, h.bytesInUse]
  generalize hb : Bytes.store s.chunk.bytes (8 * n) 8 data.toNat = bytes
  have hs : Holds (n + 1) { s with
      chunk := { s.chunk with bytes }
      top   := s.chunk.base + 8 * (n + 1)
      lock  := false } := ⟨rfl, hroom, h.size, rfl⟩
  have ht : Holds n { s with chunk := { s.chunk with bytes } } := ⟨h.top, h.le, h.size, h.lock⟩
  have hold : { s with chunk := { s.chunk with bytes } }.items = s.items := by
    refine h.items_congr ht fun i hi => ?_
    rw [← hb]
    exact store_outside (.inl hi)
  have hnew : BitVec.ofNat 64 (load bytes (8 * n) 8) = data := by
    rw [← hb, load_store data.isLt, BitVec.ofNat_toNat, BitVec.setWidth_eq]
  refine ⟨hs, ?_, rfl⟩
  rw [hs.items, ← hold, ht.items, List.range_succ, List.map_append, List.reverse_append]
  exact congrArg (· :: _) hnew

theorem Holds.toDstack_bytesInUse (h : Holds n s) : s.toDstack.bytesInUse = 8 * n := by
  simp [Dstack.bytesInUse, toDstack, h.items]

theorem growStack_locked (hl : s.lock = true) : growStack blocks sz s heap = .error .halt := by
  rw [growStack, hl]
  rfl

theorem Holds.pushStack_room (h : Holds n s) (hroom : 8 * n + 8 ≤ s.maxSize) :
    pushStack blocks data s heap = (s.store data).map (·, heap) := by
  have hn : ¬u64 (s.bytesInUse + 8) > s.maxSize := by
    rw [h.next]
    exact Nat.not_lt.mpr hroom
  rw [pushStack, h.unlocked, if_neg hn]
  cases s.store data
  case error => rfl
  case ok    => rfl

-- The lock that `growStack` waits for is held by the push that calls it.
theorem Holds.pushStack_full (h : Holds n s) (hfull : 8 * n + 8 > s.maxSize) :
    pushStack blocks data s heap = .error .halt := by
  have hn : u64 (s.bytesInUse + 8) > s.maxSize := by
    rw [h.next]
    exact hfull
  rw [pushStack, h.unlocked, if_pos hn, growStack_locked rfl]
  rfl

-- Onto a stack with room and onto a full one, the push is the one on the list of the items.
theorem Holds.pushStack_toDstack (h : Holds n s) :
    (pushStack blocks data s heap).map (fun r => r.fst.toDstack) = s.toDstack.pushStack data := by
  have hl : getLock s.toDstack.lock = .ok () := h.unlocked
  rw [Dstack.pushStack, hl, h.toDstack_bytesInUse]
  by_cases hroom : 8 * n + 8 > s.maxSize
  case pos =>
    have hroom' : 8 * n + 8 > s.toDstack.maxSize := hroom
    rw [h.pushStack_full hroom]
    simp only [bind, Except.bind, if_pos hroom']
    rfl
  case neg =>
    have hroom' : ¬8 * n + 8 > s.toDstack.maxSize := hroom
    obtain ⟨s', hs, h', hitems, hmax⟩ := h.store data (Nat.not_lt.mp hroom)
    rw [h.pushStack_room (Nat.not_lt.mp hroom), hs]
    simp only [bind, Except.bind, if_neg hroom']
    simp [Except.map, toDstack, hitems, hmax, h'.lock, Dstack.store, pure, Except.pure]

theorem Holds.popStack_zero (h : Holds 0 s) : popStack s = .ok (none, s) := by
  have hbase : s.chunk.base = s.top := h.top.symm
  rw [popStack, h.unlocked]
  simp only [bind, Except.bind, if_pos hbase]
  rfl

theorem Holds.popStack_succ (h : Holds (n + 1) s) :
    popStack s = .ok (some (s.item (8 * n)), { s with top := s.chunk.base + 8 * n }) := by
  have hfits := h.maxSize_lt
  have hle := h.le
  have hbase : s.chunk.base ≠ s.top := by rw [h.top]; omega
  have htop : sub64 s.top 8 = s.chunk.base + 8 * n := by
    rw [h.top, sub64_of_le (by omega) (by omega)]
    omega
  have hn : sub64 s.bytesInUse 8 = 8 * n := by
    rw [h.bytesInUse, sub64_of_le (by omega) (by omega)]
    omega
  rw [popStack, h.unlocked]
  simp only [bind, Except.bind, if_neg hbase, htop, hn]
  rfl

theorem Holds.popped (h : Holds (n + 1) s) :
    Holds n { s with top := s.chunk.base + 8 * n } ∧
      s.items = s.item (8 * n) :: ({ s with top := s.chunk.base + 8 * n } : Stored).items := by
  have hle := h.le
  have hle' : 8 * n ≤ s.maxSize := by omega
  have h' : Holds n { s with top := s.chunk.base + 8 * n } := ⟨rfl, hle', h.size, h.lock⟩
  refine ⟨h', ?_⟩
  rw [h.items, h'.items, List.range_succ, List.map_append, List.reverse_append]
  rfl

theorem Holds.popStack_toDstack (h : Holds n s) :
    (popStack s).map (Prod.map id toDstack) = s.toDstack.popStack := by
  cases n
  case zero =>
    have hitems : s.items = [] := by
      rw [h.items]
      rfl
    rw [h.popStack_zero, Dstack.popStack_nil h.lock hitems]
    rfl
  case succ n =>
    obtain ⟨_, hitems⟩ := h.popped
    rw [h.popStack_succ, Dstack.popStack_cons h.lock hitems]
    rfl

end List

section Resize

theorem Holds.moved (h : Holds n s) (hk : Keeps s.chunk sz c) (hle : 8 * n ≤ sz) (hsz : sz < 2 ^ 32) :
    Holds n (s.moved sz (some c)) ∧ (s.moved sz (some c)).items = s.items := by
  have hsize : c.size = sz := hk.size.trans (u32_of_lt hsz)
  have hfits := c.fits
  have htop : u64 (c.base + s.bytesInUse) = c.base + 8 * n := by
    rw [h.bytesInUse]
    exact u64_of_lt (by omega)
  have hc : Holds n (s.moved sz (some c)) := ⟨htop, hle, hsize.symm, rfl⟩
  have hmax := h.le
  rw [h.size] at hmax
  exact ⟨hc, h.items_congr hc fun i hi => hk.bytes i (by omega) (by omega)⟩

-- The stack can be moved into `sz` bytes exactly when they are enough for its items and fit into
-- `allocated`.
theorem Holds.moved_iff (h : Holds n s) (hk : Keeps s.chunk sz c) :
    (Bounded (s.moved sz (some c)) ∧ (s.moved sz (some c)).items = s.items) ↔ 8 * n ≤ sz ∧ sz < 2 ^ 32 := by
  constructor
  case mp =>
    rintro ⟨hb, _⟩
    have hsz : sz < 2 ^ 32 := by
      have hsize : sz = c.size := hb.size
      have := c.small
      omega
    have hmax := h.maxSize_lt
    have hle := h.le
    have hbase : c.base ≤ u64 (c.base + s.bytesInUse) := hb.base_le
    have htop : u64 (c.base + s.bytesInUse) ≤ c.base + sz := hb.top_le
    rw [h.bytesInUse] at hbase htop
    by_cases hlt : c.base + 8 * n < 2 ^ 64
    case pos =>
      rw [u64_of_lt hlt] at htop
      omega
    case neg =>
      rw [u64] at hbase
      omega
  case mpr =>
    rintro ⟨hle, hsz⟩
    obtain ⟨hh, hi⟩ := h.moved hk hle hsz
    exact ⟨hh.bounded, hi⟩

-- `krealloc` returns a block of `sz` bytes: the heap's lock is free, the block is as the heap left
-- it, and it has the room, or there is room elsewhere.
def Served (blocks : Blocks σ) (ptr : Chunk) (sz : Nat) (heap : Heap σ) : Prop :=
  heap.lock = false ∧ ptr.Checked ∧
    (sz ≤ ptr.size + ptr.free ∨ sz < 2 ^ 32 ∧ Moves blocks ptr sz heap.chain)

theorem resize_ok (hr : s.resize blocks sz heap = .ok (s', heap')) :
    (sz < 2 ^ 32 → Served blocks s.chunk sz heap) ∧ ∃ c, s' = s.moved sz (some c) ∧ Keeps s.chunk sz c := by
  obtain ⟨⟨r, heap₁⟩, hk, hr⟩ := Except.bind_ok_iff.mp hr
  obtain ⟨hl, hc, hs, c, rfl, hkeep⟩ := krealloc_ok hk
  cases hr
  exact ⟨fun hsz => ⟨hl, hc, hs.imp_right fun hm => ⟨hsz, hm⟩⟩, c, rfl, hkeep⟩

theorem Served.returns (hs : Served blocks s.chunk sz heap) :
    ∃ s' heap', s.resize blocks sz heap = .ok (s', heap') := by
  obtain ⟨hl, hc, hs⟩ := hs
  obtain ⟨r, heap', hk⟩ := krealloc_returns hl hc (hs.imp_right And.right)
  refine ⟨s.moved sz r, heap', ?_⟩
  rw [resize, hk]
  rfl

theorem Served.lt (hs : Served blocks s.chunk sz heap) : sz < 2 ^ 32 :=
  hs.right.right.elim (fun hle => Nat.lt_of_le_of_lt hle s.chunk.small) And.left

theorem Holds.resize (h : Holds n s) (hs : Served blocks s.chunk sz heap) (hle : 8 * n ≤ sz)
    (hr : s.resize blocks sz heap = .ok (s', heap')) : Holds n s' ∧ s'.items = s.items ∧ s'.maxSize = sz := by
  obtain ⟨_, c, rfl, hk⟩ := resize_ok hr
  obtain ⟨hh, hi⟩ := h.moved hk hle hs.lt
  exact ⟨hh, hi, rfl⟩

theorem Holds.resize_iff (h : Holds n s) (P : Nat → Prop) :
    (∃ s' heap', s.resize blocks sz heap = .ok (s', heap') ∧ Bounded s' ∧ s'.items = s.items ∧
      P s'.maxSize) ↔ Served blocks s.chunk sz heap ∧ 8 * n ≤ sz ∧ P sz := by
  constructor
  case mp =>
    rintro ⟨s', heap', hr, hb, hi, hp⟩
    obtain ⟨hs, c, rfl, hk⟩ := resize_ok hr
    obtain ⟨hle, hsz⟩ := (h.moved_iff hk).mp ⟨hb, hi⟩
    exact ⟨hs hsz, hle, hp⟩
  case mpr =>
    rintro ⟨hs, hle, hp⟩
    obtain ⟨s', heap', hr⟩ := hs.returns
    obtain ⟨hh, hi, hmax⟩ := h.resize hs hle hr
    exact ⟨s', heap', hr, hh.bounded, hi, hmax ▸ hp⟩

theorem Holds.shrinkStack (h : Holds n s) :
    shrinkStack blocks sz s heap = s.resize blocks (sub64 s.maxSize (max sz s.bytesInUse)) heap := by
  have hmax : (if s.bytesInUse > sz then s.bytesInUse else sz) = max sz s.bytesInUse :=
    (max_def_lt sz s.bytesInUse).symm
  rw [Stored.shrinkStack, h.unlocked]
  simp only [bind, Except.bind, hmax]

theorem Holds.growStack (h : Holds n s) :
    growStack blocks sz s heap = s.resize blocks (u64 (s.maxSize + sz)) heap := by
  rw [Stored.growStack, h.unlocked]
  rfl

end Resize

-- The calls on a stack.
inductive Call
  | push (data : Word)
  | pop
  | shrink (sz : Nat)
  | grow (sz : Nat)

def Call.run (blocks : Blocks σ) (s : Stored) (heap : Heap σ) : Call → Except Exit (Stored × Heap σ)
  | .push data => pushStack blocks data s heap
  | .pop       => do
    let (_, s) ← popStack s
    return (s, heap)
  | .shrink sz => shrinkStack blocks sz s heap
  | .grow sz   => growStack blocks sz s heap

-- Between two calls, others use the heap.
inductive Event (σ : Type)
  | call (call : Call)
  | other (chunk : Chunk) (heap : Heap σ)

-- What others do to a stack's block, with the heap's lock free: the bytes behind its data may
-- become used or free, and may be written to.
structure Spared (c c' : Chunk) : Prop where
  base  : c'.base = c.base
  size  : c'.size = c.size
  bytes : ∀ i < c.size, c'.bytes i = c.bytes i

def Step (blocks : Blocks σ) : Stored × Heap σ → Event σ → Stored × Heap σ → Prop
  | (s, heap), .call c, s'            => c.run blocks s heap = .ok s'
  | (s, heap), .other chunk heap', s' =>
    heap.lock = false ∧ Spared s.chunk chunk ∧ s' = ({ s with chunk }, heap')

-- What is asked of a call: that it returns, and of those that resize, that the items are kept.
def Call.Right (blocks : Blocks σ) (s : Stored) (heap : Heap σ) (call : Call) : Prop :=
  ∃ s' heap', call.run blocks s heap = .ok (s', heap') ∧ Bounded s' ∧
    match call with
    | .push data => s'.items = data :: s.items
    | .pop       => True
    | .shrink sz => s'.items = s.items ∧
      (max sz s.bytesInUse ≤ s.maxSize → s'.maxSize = max sz s.bytesInUse)
    | .grow _    => s'.items = s.items

-- A push needs room. What `shrinkStack` takes off must be what it should leave.
def Call.Fits (blocks : Blocks σ) (s : Stored) (heap : Heap σ) : Call → Prop
  | .push _    => s.bytesInUse + 8 ≤ s.maxSize
  | .pop       => True
  | .shrink sz =>
    let kept := max sz s.bytesInUse
    let size := sub64 s.maxSize kept
    if kept ≤ s.maxSize then heap.lock = false ∧ s.chunk.Checked ∧ s.maxSize = 2 * kept
    else Served blocks s.chunk size heap ∧ s.bytesInUse ≤ size
  | .grow sz   =>
    let size := u64 (s.maxSize + sz)
    Served blocks s.chunk size heap ∧ s.bytesInUse ≤ size

def Event.Fits (blocks : Blocks σ) : Stored × Heap σ → Event σ → Prop
  | (s, heap), .call c => c.Fits blocks s heap
  | _, .other _ _      => True

section Calls

variable {call : Call}

theorem Holds.push_iff (h : Holds n s) :
    (Call.push data).Right blocks s heap ↔ (Call.push data).Fits blocks s heap := by
  rw [Call.Right, Call.Fits, h.bytesInUse]
  by_cases hroom : 8 * n + 8 ≤ s.maxSize
  case pos =>
    obtain ⟨s', hs, h', hitems, _⟩ := h.store data hroom
    have hrun : (Call.push data).run blocks s heap = .ok (s', heap) := by
      rw [Call.run, h.pushStack_room hroom, hs]
      rfl
    exact iff_of_true ⟨s', heap, hrun, h'.bounded, hitems⟩ hroom
  case neg =>
    refine iff_of_false ?_ hroom
    rintro ⟨s', heap', hs, _⟩
    rw [Call.run, h.pushStack_full (Nat.not_le.mp hroom)] at hs
    cases hs

theorem Holds.pop_returns (h : Holds n s) :
    ∃ m s', Call.pop.run blocks s heap = .ok (s', heap) ∧ Holds m s' := by
  cases n
  case zero   => exact ⟨0, s, by rw [Call.run, h.popStack_zero]; rfl, h⟩
  case succ n => exact ⟨n, _, by rw [Call.run, h.popStack_succ]; rfl, h.popped.1⟩

theorem Holds.grow_iff (h : Holds n s) :
    (Call.grow sz).Right blocks s heap ↔ (Call.grow sz).Fits blocks s heap := by
  have hg : (∃ s' heap', s.resize blocks (u64 (s.maxSize + sz)) heap = .ok (s', heap') ∧ Bounded s' ∧
      s'.items = s.items ∧ True) ↔ _ := h.resize_iff fun _ => True
  rw [Call.Right, Call.run, h.growStack, Call.Fits, h.bytesInUse]
  simpa only [and_true] using hg

-- The size that is right is half of the one that there was.
theorem Holds.shrink_iff (h : Holds n s) :
    (Call.shrink sz).Right blocks s heap ↔ (Call.shrink sz).Fits blocks s heap := by
  rw [Call.Right, Call.run, h.shrinkStack, Call.Fits]
  refine (h.resize_iff fun m => max sz s.bytesInUse ≤ s.maxSize → m = max sz s.bytesInUse).trans ?_
  rw [h.bytesInUse]
  have hn : 8 * n ≤ max sz (8 * n) := Nat.le_max_right ..
  generalize max sz (8 * n) = kept at hn
  by_cases hle : kept ≤ s.maxSize
  case pos =>
    have hsize : sub64 s.maxSize kept = s.maxSize - kept :=
      sub64_of_le hle (by have := h.maxSize_lt; omega)
    have hroom : s.maxSize - kept ≤ s.chunk.size + s.chunk.free := by
      rw [h.size]
      omega
    simp only [hsize, Served, hroom, true_or, and_true, hle, true_implies, and_assoc]
    refine and_congr_right fun _ => and_congr_right fun _ => ?_
    omega
  case neg => simp only [hle, if_false, false_implies, and_true]

theorem Holds.right_iff (h : Holds n s) : call.Right blocks s heap ↔ call.Fits blocks s heap := by
  cases call
  case push   => exact h.push_iff
  case shrink => exact h.shrink_iff
  case grow   => exact h.grow_iff
  case pop    =>
    obtain ⟨_, s', hs, h'⟩ := h.pop_returns
    exact iff_of_true ⟨s', heap, hs, h'.bounded, trivial⟩ trivial

-- A call that fits leaves a stack for the next one.
theorem Holds.run (h : Holds n s) (hf : call.Fits blocks s heap)
    (hs : call.run blocks s heap = .ok (s', heap')) : ∃ m, Holds m s' := by
  cases call
  case push data =>
    have hroom : 8 * n + 8 ≤ s.maxSize := by rwa [Call.Fits, h.bytesInUse] at hf
    obtain ⟨s₁, hs₁, h₁, _⟩ := h.store data hroom
    rw [Call.run, h.pushStack_room hroom, hs₁] at hs
    cases hs
    exact ⟨n + 1, h₁⟩
  case pop =>
    obtain ⟨m, s₁, hs₁, h₁⟩ := h.pop_returns
    rw [hs₁] at hs
    cases hs
    exact ⟨m, h₁⟩
  case shrink sz =>
    obtain ⟨s₁, heap₁, hs₁, hb, hi, hmax⟩ := h.shrink_iff.mpr hf
    rw [hs₁] at hs
    cases hs
    rw [Call.run, h.shrinkStack] at hs₁
    have hfit := (h.resize_iff fun _ => True).mp ⟨_, _, hs₁, hb, hi, trivial⟩
    exact ⟨n, (h.resize hfit.left hfit.right.left hs₁).left⟩
  case grow sz =>
    rw [Call.run, h.growStack] at hs
    rw [Call.Fits, h.bytesInUse] at hf
    exact ⟨n, (h.resize hf.left hf.right hs).left⟩

theorem Holds.spared (h : Holds n s) (hc : Spared s.chunk c) : Holds n { s with chunk := c } where
  top  := by rw [hc.base]; exact h.top
  le   := h.le
  size := by rw [hc.size]; exact h.size
  lock := h.lock

theorem createDstack_holds (h : createDstack blocks initialSize heap = .ok (some s, heap'))
    (hsize : s.maxSize = s.chunk.size) : Holds 0 s := by
  obtain ⟨⟨stack, heap₁⟩, _, h⟩ := Except.bind_ok_iff.mp h
  cases stack
  case none => cases h
  case some stack =>
    obtain ⟨⟨base, heap₂⟩, _, h⟩ := Except.bind_ok_iff.mp h
    cases base
    case none =>
      obtain ⟨_, _, h⟩ := Except.bind_ok_iff.mp h
      cases h
    case some chunk =>
      cases h
      exact ⟨rfl, Nat.zero_le _, hsize, rfl⟩

-- After any calls that fit, with others at the heap in between, the calls that keep the items and
-- the bound are those that fit.
theorem resize_keeps_iff {heap₀ heap₁ : Heap σ}
    (h₀ : createDstack blocks initialSize heap₀ = .ok (some s₀, heap₁))
    (hsize : s₀.maxSize = s₀.chunk.size)
    (run : Steps (Step blocks) (Event.Fits blocks) (s₀, heap₁) (s, heap)) (call : Call) :
    call.Right blocks s heap ↔ call.Fits blocks s heap := by
  have hinv : ∃ n, Holds n (s, heap).fst := by
    refine run.invariant (I := fun x => ∃ n, Holds n x.fst) ⟨0, createDstack_holds h₀ hsize⟩ ?_
    rintro ⟨s, heap⟩ e ⟨s', heap'⟩ ⟨n, h⟩ hf hs
    cases e
    case call  => exact h.run hf hs
    case other =>
      obtain ⟨_, hc, hs⟩ := hs
      cases hs
      exact ⟨n, h.spared hc⟩
  obtain ⟨n, h⟩ := hinv
  exact h.right_iff

end Calls

section Examples

def blockAt (next sz : Nat) (h : next ≠ 0 ∧ next + sz + 8 ≤ 0x10000) : Block sz where
  val := {
    base     := next
    size     := sz
    free     := 0x10000 - (next + sz + 8)
    magic    := false
    bytes    := fun _ => 0
    not_null := h.left
    fits     := by omega
    small    := by omega }
  property := (u32_of_lt (by omega : sz < 2 ^ 32)).symm

-- A heap that ends at `0x10000`, with each block behind the one before.
def appended : Blocks Nat where
  newBlock sz next :=
    if h : next ≠ 0 ∧ next + sz + 8 ≤ 0x10000 then .ok (blockAt next sz h, next + sz + 40)
    else .error .halt
  kfreeInt _ next := .ok next

-- A block as `kmallocInt` gives it.
def freshChunk (base size : Nat) (h : base ≠ 0 ∧ base + size + 8 ≤ 0x10000) : Chunk :=
  { (blockAt base size h).val with magic := true, bytes := setRedzone (fun _ => 0) size }

-- A stack made with `size` bytes, behind the block of its structure.
def made (size : Nat) (h : 0x1048 ≠ 0 ∧ 0x1048 + size + 8 ≤ 0x10000) : Stored where
  chunk   := freshChunk 0x1048 size h
  top     := 0x1048
  maxSize := size
  lock    := false

-- Others are in the bytes behind a stack of 16 bytes.
def taken : Stored :=
  let s := made 16 (by decide)
  { s with chunk := { s.chunk with free := 0, fits := by decide, small := by decide } }

def pushed : Stored where
  chunk   := { taken.chunk with bytes := Bytes.store taken.chunk.bytes taken.bytesInUse 8 (5 : Word).toNat }
  top     := u64 (taken.top + 8)
  maxSize := 16
  lock    := false

-- The one item has been moved.
def grown : Stored where
  chunk   := (freshChunk 0x1100 32 (by decide)).copy pushed.chunk
  top     := 0x1108
  maxSize := 32
  lock    := false

-- One item on 16 bytes, and 16 more that are elsewhere. What is taken off then is the half that is
-- left.
theorem resize_keeps_half : ∃ s₀ heap₁ s heap,
    createDstack appended 16 ⟨0x1000, false⟩ = .ok (some s₀, heap₁) ∧
    Steps (Step appended) (Event.Fits appended) (s₀, heap₁) (s, heap) ∧ s.chunk.base ≠ s₀.chunk.base ∧
    s.items = [5] ∧ s.maxSize = 32 ∧ (Call.shrink 16).Right appended s heap := by
  have h₀ : createDstack appended 16 ⟨0x1000, false⟩ =
      .ok (some (made 16 (by decide)), ⟨0x1080, false⟩) := rfl
  have hother : Step appended (made 16 (by decide), ⟨0x1080, false⟩) (.other taken.chunk ⟨0x1100, false⟩)
      (taken, ⟨0x1100, false⟩) := ⟨rfl, ⟨rfl, rfl, fun _ _ => rfl⟩, rfl⟩
  have hpush : Step appended (taken, ⟨0x1100, false⟩) (.call (.push 5)) (pushed, ⟨0x1100, false⟩) := by
    have hroom : ¬u64 (taken.bytesInUse + 8) > taken.maxSize := by decide
    have hstore : taken.store 5 = .ok pushed := if_pos (by decide)
    rw [Step, Call.run, pushStack, if_neg hroom, hstore]
    rfl
  have hchecked : pushed.chunk.Checked := by decide
  have hgrow : Step appended (pushed, ⟨0x1100, false⟩) (.call (.grow 16)) (grown, ⟨0x1148, false⟩) := by
    have hk : krealloc appended pushed.chunk 32 ⟨0x1100, false⟩ =
        .ok (some grown.chunk, ⟨0x1148, false⟩) := by
      rw [krealloc, if_neg (not_not.mpr hchecked), if_neg (by decide), dif_neg (by decide)]
      rfl
    exact congrArg (Except.map (Prod.map (pushed.moved 32) id)) hk
  have hserved : Served appended pushed.chunk 32 ⟨0x1100, false⟩ :=
    ⟨rfl, hchecked, .inr ⟨by decide, _, _, _, rfl, rfl⟩⟩
  have run : Steps (Step appended) (Event.Fits appended) (made 16 (by decide), ⟨0x1080, false⟩)
      (grown, ⟨0x1148, false⟩) := by
    refine .step (.step (.step (.refl _) ?_ hother) ?_ hpush) ?_ hgrow
    · exact trivial
    · exact (by decide : taken.bytesInUse + 8 ≤ 16)
    · exact ⟨hserved, (by decide : pushed.bytesInUse ≤ 32)⟩
  refine ⟨_, _, _, _, h₀, run, by decide, by decide, rfl, ?_⟩
  refine (resize_keeps_iff h₀ rfl run (.shrink 16)).mpr ?_
  have hhalf : max 16 grown.bytesInUse ≤ grown.maxSize ∧
      grown.maxSize = 2 * max 16 grown.bytesInUse := by decide
  rw [Call.Fits, if_pos hhalf.left]
  exact ⟨rfl, by decide, hhalf.right⟩

-- Of 800 bytes 80 are to be kept, and 720 are.
theorem shrink_keeps_rest : ¬∀ (σ : Type) (blocks : Blocks σ) (initialSize : Nat)
    (heap₀ heap₁ heap : Heap σ) (s₀ s : Stored),
    createDstack blocks initialSize heap₀ = .ok (some s₀, heap₁) → s₀.maxSize = s₀.chunk.size →
    Steps (Step blocks) (fun _ _ => True) (s₀, heap₁) (s, heap) →
    ∀ sz, (Call.shrink sz).Right blocks s heap := by
  intro h
  have h₀ : createDstack appended 800 ⟨0x1000, false⟩ =
      .ok (some (made 800 (by decide)), ⟨0x1390, false⟩) := rfl
  have hright := h Nat appended 800 _ _ _ _ _ h₀ rfl (.refl _) 80
  have hfits := ((createDstack_holds h₀ rfl).shrink_iff).mp hright
  simp [Call.Fits, made, freshChunk, blockAt, bytesInUse, sub64, u64] at hfits

end Examples

end Stored
end RoverOS.Dstack
