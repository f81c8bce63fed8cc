import RoverOS.Kheap.Callers
import RoverOS.Kheap.Theorems.Layout

-- What the memory of a block says, and which writes leave it alone.

open Bytes (Memory load store load_congr load_store load_store_of_apart)

namespace RoverOS.Kheap

-- A block in the chain, and the chunk that it is a part of.
structure Block where
  addr      : Nat
  allocated : Nat
  free      : Nat
  border    : Bool
  chunk     : Nat × Nat

-- The end of the block's data and redzone, and of the free bytes behind them.
def Block.used (b : Block) : Nat := b.addr + 40 + b.allocated
def Block.fin (b : Block) : Nat := b.used + b.free

def Block.extent (b : Block) : Extent := ⟨b.addr, b.fin, b.border, b.chunk⟩

structure Header (m : Memory) (b : Block) (p n : Nat) : Prop where
  magic     : magic m b.addr = kheapMagic
  allocated : allocated m b.addr = b.allocated
  free      : free m b.addr = b.free
  border    : chunkBorder m b.addr = b.border
  prev      : prev m b.addr = p
  next      : next m b.addr = n
  redzone   : load m (b.addr + 32 + b.allocated) 8 = kheapRedzoneMagic

variable {m m' : Memory} {b c : Block} {p n a k v : Nat}

theorem Header.congr (h : Header m b p n) (hh : ∀ i, b.addr ≤ i → i < b.addr + 32 → m' i = m i)
    (hr : ∀ i, b.addr + 32 + b.allocated ≤ i → i < b.used → m' i = m i) : Header m' b p n := by
  have field {o w : Nat} (ho : o + w ≤ 32) : load m' (b.addr + o) w = load m (b.addr + o) w :=
    load_congr fun i hl hu => hh i (by omega) (by omega)
  refine ⟨?_, ?_, ?_, ?_, ?_, ?_, ?_⟩
  · exact (field (o := 0) (by decide)).trans h.magic
  · exact (field (by decide)).trans h.allocated
  · exact (field (by decide)).trans h.free
  · rw [← h.border, chunkBorder, chunkBorder, field (by decide)]
  · exact (field (by decide)).trans h.prev
  · exact (field (by decide)).trans h.next
  · refine (load_congr fun i hl hu => hr i hl ?_).trans h.redzone
    rw [Block.used]
    omega

-- A write outside of the header and the redzone.
theorem Header.store (h : Header m b p n) (hh : a + k ≤ b.addr ∨ b.addr + 32 ≤ a)
    (hr : a + k ≤ b.addr + 32 + b.allocated ∨ b.used ≤ a) : Header (store m a k v) b p n :=
  h.congr (fun _ _ _ => Bytes.store_outside (by omega)) fun _ _ _ => Bytes.store_outside (by omega)

theorem Header.store_apart (h : Header m b p n) (ha : a + k ≤ b.addr ∨ b.used ≤ a) :
    Header (Bytes.store m a k v) b p n := by
  have hu : b.addr + 40 + b.allocated = b.used := rfl
  exact h.store (by omega) (by omega)

theorem chunkBorder_store {block : Nat} (ha : a + k ≤ block + 12 ∨ block + 13 ≤ a) :
    chunkBorder (Bytes.store m a k v) block = chunkBorder m block := by
  rw [chunkBorder, chunkBorder, load_store_of_apart (by omega)]

section Set

variable (h : Header m b p n)
include h

theorem Header.setFree (hv : v < 2 ^ 32) :
    Header (setFree m b.addr v) { b with free := v } p n where
  magic     := (load_store_of_apart (by dsimp only; omega)).trans h.magic
  allocated := (load_store_of_apart (by dsimp only; omega)).trans h.allocated
  free      := load_store hv
  border    := (chunkBorder_store (by omega) : _ = chunkBorder m b.addr).trans h.border
  prev      := (load_store_of_apart (by dsimp only; omega)).trans h.prev
  next      := (load_store_of_apart (by dsimp only; omega)).trans h.next
  redzone   := (load_store_of_apart (by dsimp only; omega)).trans h.redzone

theorem Header.setPrev (hv : v < 2 ^ 64) : Header (setPrev m b.addr v) b v n where
  magic     := (load_store_of_apart (by omega)).trans h.magic
  allocated := (load_store_of_apart (by omega)).trans h.allocated
  free      := (load_store_of_apart (by omega)).trans h.free
  border    := (chunkBorder_store (by omega)).trans h.border
  prev      := load_store hv
  next      := (load_store_of_apart (by omega)).trans h.next
  redzone   := (load_store_of_apart (by omega)).trans h.redzone

theorem Header.setNext (hv : v < 2 ^ 64) : Header (setNext m b.addr v) b p v where
  magic     := (load_store_of_apart (by omega)).trans h.magic
  allocated := (load_store_of_apart (by omega)).trans h.allocated
  free      := (load_store_of_apart (by omega)).trans h.free
  border    := (chunkBorder_store (by omega)).trans h.border
  prev      := (load_store_of_apart (by omega)).trans h.prev
  next      := load_store hv
  redzone   := (load_store_of_apart (by omega)).trans h.redzone

end Set

section Chain

-- The address of the first block, or else `q`.
def firstAddr : List Block → Nat → Nat
  | [],     q => q
  | b :: _, _ => b.addr

-- The address of the last block, or else `p`.
def lastAddr : Nat → List Block → Nat
  | p, []      => p
  | _, b :: bs => lastAddr b.addr bs

-- The blocks are linked with each other, to `p` before them and to `q` behind them.
def Seg (m : Memory) : Nat → List Block → Nat → Prop
  | _, [],      _ => True
  | p, b :: bs, q => Header m b p (firstAddr bs q) ∧ Seg m b.addr bs q

variable {bs cs : List Block} {q q' p' : Nat}

theorem firstAddr_append : firstAddr (bs ++ cs) q = firstAddr bs (firstAddr cs q) := by
  cases bs <;> rfl

theorem lastAddr_append : lastAddr p (bs ++ cs) = lastAddr (lastAddr p bs) cs := by
  induction bs generalizing p
  case nil => rfl
  case cons b bs hi => exact hi

theorem seg_append :
    Seg m p (bs ++ cs) q ↔ Seg m p bs (firstAddr cs q) ∧ Seg m (lastAddr p bs) cs q := by
  induction bs generalizing p
  case nil => simp [Seg, lastAddr]
  case cons b bs hi => rw [List.cons_append, Seg, Seg, hi, firstAddr_append, and_assoc, lastAddr]

-- Writes that leave the headers and the redzones alone.
theorem Seg.imp (h : Seg m p bs q)
    (hi : ∀ b ∈ bs, ∀ p n, Header m b p n → Header m' b p n) : Seg m' p bs q := by
  induction bs generalizing p
  case nil => trivial
  case cons b bs hs =>
    exact ⟨hi b (.head _) _ _ h.left, hs h.right fun c hc => hi c (.tail _ hc)⟩

theorem Seg.store_apart (h : Seg m p bs q) (ha : ∀ b ∈ bs, a + k ≤ b.addr ∨ b.used ≤ a) :
    Seg (store m a k v) p bs q :=
  h.imp fun b hb _ _ hh => hh.store_apart (ha b hb)

theorem Seg.header (h : Seg m p bs q) (hb : b ∈ bs) : ∃ p n, Header m b p n := by
  induction bs generalizing p
  case nil => cases hb
  case cons c bs hi =>
    cases hb
    case head    => exact ⟨_, _, h.left⟩
    case tail hb => exact hi h.right hb

theorem Block.used_le_fin : b.used ≤ b.fin := Nat.le_add_right ..

theorem Block.addr_lt_used : b.addr + 32 < b.used := by
  rw [used]
  omega

-- The blocks share nothing, apart from their free bytes.
def Clear (b c : Block) : Prop := b.used ≤ c.addr ∨ c.used ≤ b.addr

theorem Clear.symm (h : Clear b c) : Clear c b := Or.symm h

instance : Std.Symm Clear where
  symm _ _ := Clear.symm

theorem Extent.Apart.clear (h : b.extent.Apart c.extent) : Clear b c :=
  h.imp (le_trans b.used_le_fin) (le_trans c.used_le_fin)

-- A write to the header of another block.
theorem Header.store_header (h : Header m c p n) (ha : Clear b c) (hl : b.addr ≤ a)
    (hu : a + k ≤ b.addr + 32) : Header (Bytes.store m a k v) c p n := by
  have hb := b.addr_lt_used
  exact h.store_apart (ha.imp (by omega) (by omega))

theorem Seg.store_header (h : Seg m p bs q) (ha : ∀ c ∈ bs, Clear b c) (hl : b.addr ≤ a)
    (hu : a + k ≤ b.addr + 32) : Seg (store m a k v) p bs q :=
  h.imp fun c hc _ _ hh => hh.store_header (ha c hc) hl hu

-- The first block gets another predecessor.
theorem Seg.setPrev (h : Seg m p (b :: bs) q) (ha : ∀ c ∈ bs, Clear b c) (hp : p' < 2 ^ 64) :
    Seg (setPrev m b.addr p') p' (b :: bs) q :=
  ⟨h.left.setPrev hp, h.right.store_header ha (by omega) (by omega)⟩

-- The last block gets another successor, or other free bytes.
theorem Seg.setNext (h : Seg m p (bs ++ [b]) q) (ha : ∀ c ∈ bs, Clear b c) (hq : q' < 2 ^ 64) :
    Seg (setNext m b.addr q') p (bs ++ [b]) q' :=
  have ⟨hbs, hb, _⟩ := seg_append.mp h
  seg_append.mpr ⟨hbs.store_header ha (by omega) (by omega), hb.setNext hq, trivial⟩

theorem Seg.setFree (h : Seg m p (bs ++ [b]) q) (ha : ∀ c ∈ bs, Clear b c) (hv : v < 2 ^ 32) :
    Seg (setFree m b.addr v) p (bs ++ [{ b with free := v }]) q :=
  have ⟨hbs, hb, _⟩ := seg_append.mp h
  seg_append.mpr ⟨hbs.store_header ha (by omega) (by omega), hb.setFree hv, trivial⟩

end Chain

end RoverOS.Kheap
