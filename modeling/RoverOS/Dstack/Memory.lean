import RoverOS.Dstack.Basic
import RoverOS.Kmalloc.Interface
import RoverOS.Library.Bytes

-- The data stack in memory, with the pointers to its ends, and the heap that its memory is from.
-- Where the heap finds room for a block is a parameter.

open Bytes (Memory load)

namespace RoverOS.Dstack

open Kmalloc (Intact setRedzone)

-- A block of the heap: the data from `base` on, the redzone of 8 bytes behind it, and the free
-- bytes behind that. `allocated` and `free` are `uint32_t`s, and so is their sum.
structure Chunk where
  base     : Nat
  size     : Nat    -- `allocated`
  free     : Nat
  magic    : Bool   -- `magic` is `KHEAP_MAGIC`
  bytes    : Memory -- from `base` on
  not_null : base ≠ 0
  fits     : base + size + 8 + free ≤ 2 ^ 64
  small    : size + free < 2 ^ 32

namespace Chunk

-- `checkMagic` and `checkRedzone`
def Checked (c : Chunk) : Prop :=
  c.magic ∧ Intact c.bytes c.size

instance (c : Chunk) : Decidable c.Checked :=
  inferInstanceAs (Decidable (_ ∧ _))

-- The border between the data and the free bytes is moved, and the redzone with it.
def resize (c : Chunk) (sz : Nat) (h : sz ≤ c.size + c.free) : Chunk where
  base     := c.base
  size     := sz
  free     := c.size + c.free - sz
  magic    := c.magic
  bytes    := setRedzone c.bytes sz
  not_null := c.not_null
  fits     := by have := c.fits; omega
  small    := by have := c.small; omega

-- `memcpy(nptr,ptr,block->allocated)`
def copy (nptr ptr : Chunk) : Chunk :=
  { nptr with bytes := fun i => if i < ptr.size then ptr.bytes i else nptr.bytes i }

end Chunk

-- What `kmallocInt` has found, or `extendHeap` has made, for a request of `sz` bytes.
-- `allocated` is a `uint32_t`.
abbrev Block (sz : Nat) := { c : Chunk // c.size = u32 sz }

-- What the heap does with its chain of blocks.
structure Blocks (σ : Type) where
  newBlock (sz : Nat) : σ → Except Exit (Block sz × σ)
  kfreeInt : Chunk → σ → Except Exit σ

structure Heap (σ : Type) where
  chain : σ
  lock  : Bool -- `kmallocLock`

section Heap

variable {σ : Type} (blocks : Blocks σ)

-- `NULL` is only returned for a request of no bytes.
def kmallocInt (sz : Nat) (chain : σ) : Except Exit (Option Chunk × σ) :=
  if sz = 0 then .ok (none, chain) else do
    let (⟨nblock, _⟩, chain) ← blocks.newBlock sz chain
    return (some { nblock with magic := true, bytes := setRedzone nblock.bytes nblock.size }, chain)

def kmalloc (sz : Nat) (heap : Heap σ) : Except Exit (Option Chunk × Heap σ) := do
  getLock heap.lock
  let (ptr, chain) ← kmallocInt blocks sz heap.chain
  return (ptr, { heap with chain })

def kfree (ptr : Chunk) (heap : Heap σ) : Except Exit (Heap σ) := do
  getLock heap.lock
  let chain ← blocks.kfreeInt ptr heap.chain
  return { heap with chain }

-- When the size stays the same, the function returns without `FREE_LOCK`.
def krealloc (ptr : Chunk) (sz : Nat) (heap : Heap σ) : Except Exit (Option Chunk × Heap σ) := do
  getLock heap.lock
  if ¬ptr.Checked then .error .halt else
    if ptr.size = sz then return (some ptr, { heap with lock := true })
    if h : sz ≤ ptr.size + ptr.free then return (some (ptr.resize sz h), heap)
    let (nptr, chain) ← kmallocInt blocks sz heap.chain
    match nptr with
    | none      => return (none, { heap with chain })
    | some nptr =>
      let chain ← blocks.kfreeInt ptr chain
      return (some (nptr.copy ptr), { heap with chain })

end Heap

-- The structure `dstack`, with the memory that `base` points to.
structure Stored where
  chunk   : Chunk
  top     : Nat
  maxSize : Nat
  lock    : Bool

namespace Stored

-- `sizeof(dstack)`
def sizeofDstack : Nat := 32

-- `DSTACK_BYTES_IN_USE`
def bytesInUse (s : Stored) : Nat :=
  sub64 s.top s.chunk.base

section Calls

variable {σ : Type} (blocks : Blocks σ)

def createDstack (initialSize : Nat) (heap : Heap σ) : Except Exit (Option Stored × Heap σ) := do
  let (stack, heap) ← kmalloc blocks sizeofDstack heap
  match stack with
  | none       => return (none, heap)
  | some stack =>
    let (base, heap) ← kmalloc blocks initialSize heap
    match base with
    | none       =>
      let heap ← kfree blocks stack heap
      return (none, heap)
    | some chunk => return (some { chunk, top := chunk.base, maxSize := initialSize, lock := false }, heap)

-- What the stack is after `krealloc` has moved it.
def moved (s : Stored) (maxSize : Nat) : Option Chunk → Stored
  | none       => { s with lock := false }
  | some chunk => { chunk, top := u64 (chunk.base + s.bytesInUse), maxSize, lock := false }

-- What `shrinkStack` and `growStack` do with the new size.
def resize (size : Nat) (s : Stored) (heap : Heap σ) : Except Exit (Stored × Heap σ) := do
  let (nptr, heap) ← krealloc blocks s.chunk size heap
  return (s.moved size nptr, heap)

-- The size that is kept is taken off the size that there was.
def shrinkStack (sz : Nat) (s : Stored) (heap : Heap σ) : Except Exit (Stored × Heap σ) := do
  getLock s.lock
  let inUse := s.bytesInUse
  let shrinkSize := sub64 s.maxSize (if inUse > sz then inUse else sz)
  s.resize blocks shrinkSize heap

def growStack (sz : Nat) (s : Stored) (heap : Heap σ) : Except Exit (Stored × Heap σ) := do
  getLock s.lock
  s.resize blocks (u64 (s.maxSize + sz)) heap

-- A store behind the chunk is one outside of it.
def store (s : Stored) (data : Word) : Except Exit Stored :=
  if s.bytesInUse + 8 ≤ s.chunk.size then
    .ok { s with
      chunk := { s.chunk with bytes := Bytes.store s.chunk.bytes s.bytesInUse 8 data.toNat }
      top   := u64 (s.top + 8)
      lock  := false }
  else .error .fault

-- `growStack` is called with the lock held.
def pushStack (data : Word) (s : Stored) (heap : Heap σ) : Except Exit (Stored × Heap σ) := do
  getLock s.lock
  if u64 (s.bytesInUse + 8) > s.maxSize then
    let (s, heap) ← { s with lock := true }.growStack blocks (8 * 10) heap
    let s ← { s with maxSize := u64 (s.maxSize + 8 * 10) }.store data
    return (s, heap)
  else
    let s ← s.store data
    return (s, heap)

end Calls

-- The 8 bytes from `base + offset` on.
def item (s : Stored) (offset : Nat) : Word :=
  BitVec.ofNat 64 (load s.chunk.bytes offset 8)

def popStack (s : Stored) : Except Exit (Option Word × Stored) := do
  getLock s.lock
  if s.chunk.base = s.top then return (none, s)
  return (some (s.item (sub64 s.bytesInUse 8)), { s with top := sub64 s.top 8 })

-- The items, the top first.
def items (s : Stored) : List Word :=
  ((List.range (s.bytesInUse / 8)).map fun i => s.item (8 * i)).reverse

def toDstack (s : Stored) : Dstack where
  items   := s.items
  maxSize := s.maxSize
  lock    := s.lock

end Stored
end RoverOS.Dstack
