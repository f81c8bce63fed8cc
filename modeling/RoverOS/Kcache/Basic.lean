import RoverOS.Pmm.Basic

-- The slab allocator, `kcache.c`. A slab is memory for objects of one size, with a bitmap of the
-- buffers in use.

namespace RoverOS

open Pmm (intBit)

structure Kslab where
  references  : Nat -- `uint16_t`
  size        : Nat
  bufferCount : Nat -- `uint32_t`
  phys        : Nat
  virt        : Nat
  bitmap      : List Word
  lock        : Bool

-- The slabs are linked from the newest to the oldest.
structure Kcache where
  flags   : Word
  objSize : Nat
  type    : Nat
  slabs   : List Kslab
  lock    : Bool

namespace Kcache

def validFlags : Word := 0x0F
def flagNoMap : Word := 1 <<< 3

abbrev NoMap (cache : Kcache) : Prop := cache.flags &&& flagNoMap ≠ 0#64

-- What the memory managers answer when the cache asks them: `allocPhys` gives an address and a size,
-- and `vmallocPhys` the address that such a block is mapped to, or `NULL`.
structure Managers where
  allocPhys   : Nat → Nat → BitVec 16 → Nat × Nat
  vmallocPhys : Nat → Nat → Nat

-- The bitmap gets a word for every 64 buffers, rounded down.
def carveSlab (cache : Kcache) (virt phys slabsz : Nat) : Kslab :=
  let bufferCount := u32 (slabsz / cache.objSize)
  let n := if bufferCount / 64 = 0 then 1 else bufferCount / 64
  { references := 0, size := slabsz, bufferCount, phys, virt, bitmap := List.replicate n 0#64, lock := false }

def newSlabPhys (managers : Managers) (cache : Kcache) (phys physSz : Nat) : Option Kslab :=
  if cache.NoMap then some (cache.carveSlab 0 phys physSz)
  else
    let virt := managers.vmallocPhys phys physSz
    if virt = 0 then none else some (cache.carveSlab virt phys physSz)

def newSlab (managers : Managers) (cache : Kcache) (count : Nat) : Option Kslab :=
  let flags := if cache.type = Pmm.memoryTypeAny then 0 else Pmm.orderFlagStrictMatch
  let (phys, sz) := managers.allocPhys (u64 (cache.objSize * count)) cache.type flags
  if phys = Pmm.memoryAllocationFailed then none else cache.newSlabPhys managers phys sz

def fillCacheDetails (objSize type : Nat) (flags : Word) : Kcache :=
  { flags := flags &&& validFlags, objSize, type, slabs := [], lock := false }

-- `ptr` is the page that `kmallocAligned` gives.
def createVMarkerCache (objSize type : Nat) (flags : Word) (ptr : Nat) : Kcache :=
  let cache := fillCacheDetails objSize type flags
  { cache with slabs := [cache.carveSlab ptr 0 0x1000] }

-- The loop over the buffers from `checked` on: a word of the bitmap and a bit in it.
def findBuffer (bitmap : List Word) (checked b : Nat) : Nat → Except Exit (Option (Nat × Nat))
  | 0     => .ok none
  | n + 1 =>
    let i := checked / 64
    let b := if b = 64 then 0 else b
    match bitmap[i]? with
    | none   => .error .fault
    | some w =>
      if w &&& intBit b ≠ 0#64 then findBuffer bitmap (checked + 1) (b + 1) n else .ok (some (i, b))

-- `none` when no buffer is marked as used.
def allocateBuffer (objSize : Nat) (slab : Kslab) : Except Exit (Option Nat × Kslab) := do
  getLock slab.lock
  if slab.bufferCount = slab.references then return (none, slab)
  match ← findBuffer slab.bitmap 0 0 slab.bufferCount with
  | none        => return (none, slab)
  | some (i, b) =>
    let ptr := u64 (u32 (i * 64 + b) * objSize + slab.virt)
    return (some ptr, { slab with
      bitmap     := slab.bitmap.modify i (· ||| intBit b)
      references := u16 (slab.references + 1) })

abbrev HasRoom (slab : Kslab) : Prop := slab.bufferCount > slab.references

-- The first slab with room gives the buffer. `none` when there is no such slab.
def allocChosen (objSize : Nat) : List Kslab → Except Exit (Option (Option Nat × List Kslab))
  | []            => .ok none
  | slab :: slabs =>
    if HasRoom slab then do
      let (ptr, slab) ← allocateBuffer objSize slab
      return some (ptr, slab :: slabs)
    else do
      let r ← allocChosen objSize slabs
      return r.map fun (ptr, slabs) => (ptr, slab :: slabs)

def kcacheAlloc (managers : Managers) (cache : Kcache) : Except Exit (Option Nat × Kcache) := do
  getLock cache.lock
  match ← allocChosen cache.objSize cache.slabs with
  | some (ptr, slabs) => return (ptr, { cache with slabs })
  | none              =>
    match cache.newSlab managers 10 with
    | none      => return (none, cache)
    | some slab =>
      let (ptr, slab) ← allocateBuffer cache.objSize slab
      return (ptr, { cache with slabs := slab :: cache.slabs })

def kcacheGrow (managers : Managers) (cache : Kcache) : Except Exit Kcache :=
  match cache.newSlab managers 10 with
  | none      => .error .halt
  | some slab => .ok { cache with slabs := slab :: cache.slabs }

end Kcache
end RoverOS
