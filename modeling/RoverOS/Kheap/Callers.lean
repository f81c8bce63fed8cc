import RoverOS.Kheap.Basic

-- The heap together with those who call it: what they hold, and the chunks that the heap owns.

open Bytes (Memory)

namespace RoverOS.Kheap

-- The memory that `vmalloc` gives has nothing to do with the heap.
structure Fresh (owned : List (Nat × Nat)) (chunk bytes : Nat) : Prop where
  pos   : 0 < chunk
  le    : chunk + bytes ≤ 2 ^ 64
  apart : ∀ c ∈ owned, c.snd ≤ chunk ∨ chunk + bytes ≤ c.fst

structure State where
  heap  : Kheap
  live  : List (Nat × Nat) -- pointers and sizes
  owned : List (Nat × Nat) -- chunks, from the first byte to the end

-- `chunk` is what `vmalloc` returns, should it be called.
inductive Op
  | kmalloc (sz chunk : Nat)
  | krealloc (ptr sz chunk : Nat)
  | kfree (ptr : Nat)
  | write (addr : Nat) (v : BitVec 8)

-- The heap was extended when the new block begins the chunk.
def grow (owned : List (Nat × Nat)) (sz chunk ptr : Nat) : List (Nat × Nat) :=
  if ptr = blockDataPtr chunk then (chunk, chunk + extendSize (sz + 40)) :: owned else owned

-- `shrinkHeap` gives back the chunk that the block begins.
def shrink (m : Memory) (owned : List (Nat × Nat)) (ptr : Nat) : List (Nat × Nat) :=
  if chunkBorder m (blockFromPtr ptr) then owned.filter (·.fst ≠ blockFromPtr ptr) else owned

section Run

variable (memcpy : Memory → Nat → Nat → Nat → Memory) (fuel : Nat)

def Op.run (s : State) : Op → Except Exit State
  | .kmalloc sz chunk => do
    let (ptr, h) ← kmallocInt (fun _ => chunk) fuel sz false s.heap
    if ptr = 0 then return { s with heap := h }
    return ⟨h, (ptr, sz) :: s.live, grow s.owned sz chunk ptr⟩
  | .krealloc ptr sz chunk => do
    let (nptr, h) ← Kheap.krealloc memcpy (fun _ => chunk) fuel ptr sz s.heap
    if nptr = 0 then return { s with heap := h }
    let live := (nptr, sz) :: s.live.filter (·.fst ≠ ptr)
    if nptr = ptr then return { s with heap := h, live }
    return ⟨h, live, shrink s.heap.mem (grow s.owned sz chunk nptr) ptr⟩
  | .kfree ptr => do
    let h ← kfreeInt ptr s.heap
    return ⟨h, s.live.filter (·.fst ≠ ptr), shrink s.heap.mem s.owned ptr⟩
  | .write addr v =>
    return { s with heap := { s.heap with mem := Function.update s.heap.mem addr v } }

def Step (s : State) (op : Op) (s' : State) : Prop :=
  ∃ fuel, op.run memcpy fuel s = .ok s'

end Run

def initial (heapStart size : Nat) (m : Memory) : State where
  heap  := initKmalloc heapStart size m
  live  := []
  owned := [(heapStart, heapStart + size)]

-- What callers do: `mayGo` says which blocks are freed or moved.
def Allowed (mayGo : Memory → Nat → Prop) (s : State) : Op → Prop
  | .kmalloc sz chunk => sz < 2 ^ 31 ∧ Fresh s.owned chunk (extendSize (sz + 40))
  | .krealloc ptr sz chunk =>
    ptr ∈ s.live.map Prod.fst ∧ sz < 2 ^ 31 ∧ Fresh s.owned chunk (extendSize (sz + 40)) ∧
      (allocated s.heap.mem (blockFromPtr ptr) + free s.heap.mem (blockFromPtr ptr) < sz →
        mayGo s.heap.mem (blockFromPtr ptr))
  | .kfree ptr => ptr ∈ s.live.map Prod.fst ∧ mayGo s.heap.mem (blockFromPtr ptr)
  | .write addr _ =>
    (∃ x ∈ s.live, x.fst ≤ addr ∧ addr < x.fst + x.snd) ∨
      ∀ c ∈ s.owned, addr < c.fst ∨ c.snd ≤ addr

-- The block does not begin a chunk.
def NotBorder (m : Memory) (block : Nat) : Prop :=
  chunkBorder m block = false

-- When the block begins a chunk, no other block is left in it.
def AloneInChunk (m : Memory) (block : Nat) : Prop :=
  chunkBorder m block = true → next m block = 0 ∨ chunkBorder m (next m block) = true

-- `memcpy` writes between `dest` and `dest + len`, and perhaps one byte behind.
def WritesInside (memcpy : Memory → Nat → Nat → Nat → Memory) : Prop :=
  ∀ m dest src len i, i < dest ∨ dest + len < i → memcpy m dest src len i = m i

end RoverOS.Kheap
