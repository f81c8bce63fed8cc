import RoverOS.Basic

-- The kernel's heap as its callers see it: `kmalloc`, `kfree` and `krealloc` for requests of less
-- than 2 GB, with the chain of blocks and its sizes hidden.

open Function (update)

namespace RoverOS.Kmalloc

-- A pointer that is not `NULL`.
abbrev Ptr := Nat

-- The memory from a pointer on.
abbrev Bytes := Nat → BitVec 8

-- The repository has two versions of `memcpy`, which do not agree: what the bytes from `dest` on
-- are after `memcpy(dest,src,len)` is a parameter.
abbrev Memcpy := Bytes → Bytes → Nat → Bytes

structure Heap where
  mem    : Ptr → Bytes
  blocks : Ptr → Option Nat -- the sizes of the blocks in use
  free   : Ptr → Nat        -- the free bytes behind a block
  next   : Ptr              -- the next new block
  lock   : Bool             -- `kmallocLock`

def redzoneMagic : Word := 0xABCDEFFEDCABCAFE

def redzone (i : Nat) : BitVec 8 := (redzoneMagic >>> (8 * i)).setWidth 8

-- A block of `sz` bytes with its redzone behind it.
def setRedzone (b : Bytes) (sz : Nat) : Bytes :=
  fun i => if sz ≤ i ∧ i < sz + 8 then redzone (i - sz) else b i

def Intact (b : Bytes) (sz : Nat) : Prop :=
  ∀ i < 8, b (sz + i) = redzone i

instance (b : Bytes) (sz : Nat) : Decidable (Intact b sz) :=
  inferInstanceAs (Decidable (∀ i < 8, _))

def maxRequest : Nat := 2 ^ 31

-- What a new block contains is left over from the one before it.
def kmalloc (sz : Nat) (h : Heap) : Except Exit (Option Ptr × Heap) := do
  getLock h.lock
  if sz = 0 then return (none, h)
  if maxRequest ≤ sz then .error .halt else
    let ptr := h.next
    return (some ptr, { h with
      mem    := update h.mem ptr (setRedzone (h.mem ptr) sz)
      blocks := update h.blocks ptr (some sz)
      next   := ptr + 1 })

-- `checkMagic` and `checkRedzone` of the block at `ptr`. There is no block below `NULL`.
def checkBlock (h : Heap) : Option Ptr → Except Exit (Ptr × Nat)
  | none     => .error .fault
  | some ptr =>
    match h.blocks ptr with
    | none    => .error .halt
    | some sz => if Intact (h.mem ptr) sz then .ok (ptr, sz) else .error .halt

def kfree (ptr : Option Ptr) (h : Heap) : Except Exit Heap := do
  getLock h.lock
  let (ptr, _) ← checkBlock h ptr
  return { h with blocks := update h.blocks ptr none }

-- When the size stays the same, the function returns without `FREE_LOCK`.
def krealloc (memcpy : Memcpy) (ptr : Option Ptr) (sz : Nat) (h : Heap) :
    Except Exit (Option Ptr × Heap) := do
  getLock h.lock
  let (p, allocated) ← checkBlock h ptr
  if allocated = sz then return (ptr, { h with lock := true })
  if sz ≤ allocated + h.free p then
    return (ptr, { h with
      mem    := update h.mem p (setRedzone (h.mem p) sz)
      blocks := update h.blocks p (some sz)
      free   := update h.free p (allocated + h.free p - sz) })
  let (nptr, h) ← kmalloc sz h
  match nptr with
  | none      => return (none, h)
  | some nptr =>
    let h := { h with mem := update h.mem nptr (memcpy (h.mem nptr) (h.mem p) allocated) }
    return (some nptr, ← kfree ptr h)

end RoverOS.Kmalloc
