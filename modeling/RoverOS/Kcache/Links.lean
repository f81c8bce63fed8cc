import RoverOS.Kcache.Basic
import RoverOS.Kmalloc.Interface

-- The slabs of a cache in memory, with the links that the list of them is made of.

open Function (update)

namespace RoverOS.Kcache

open Kmalloc (Ptr kmalloc)

-- A `kslab` with its links, of which `none` is `NULL`.
structure SlabNode where
  slab : Kslab
  prev : Option Ptr
  next : Option Ptr

-- A cache whose list of slabs begins at `slabs`, and the slabs that are in memory.
structure LinkedCache where
  flags   : Word
  objSize : Nat
  type    : Nat
  slabs   : Option Ptr
  lock    : Bool
  nodes   : Ptr → Option SlabNode
  heap    : Kmalloc.Heap

def sizeofKslab : Nat := 72

namespace LinkedCache

-- The cache with a list in place of its links.
def withList (s : LinkedCache) (slabs : List Kslab) : Kcache where
  flags   := s.flags
  objSize := s.objSize
  type    := s.type
  slabs   := slabs
  lock    := s.lock

-- `carveSlab` takes the slab and its bitmap from the heap.
def place (slab : Kslab) (s : LinkedCache) : Except Exit (Option Ptr × LinkedCache) := do
  let (ptr, heap) ← kmalloc sizeofKslab s.heap
  match ptr with
  | none     => return (none, { s with heap })
  | some ptr =>
    let (bitmap, heap) ← kmalloc (8 * slab.bitmap.length) heap
    match bitmap with
    | none   => .error .fault
    | some _ => return (some ptr, { s with
        heap, nodes := update s.nodes ptr (some { slab, prev := none, next := none }) })

def newSlab (managers : Managers) (count : Nat) (s : LinkedCache) :
    Except Exit (Option Ptr × LinkedCache) :=
  match (s.withList []).newSlab managers count with
  | none      => .ok (none, s)
  | some slab => s.place slab

def modifyNode (ptr : Ptr) (f : SlabNode → SlabNode) (s : LinkedCache) : Except Exit LinkedCache :=
  match s.nodes ptr with
  | none      => .error .fault
  | some node => .ok { s with nodes := update s.nodes ptr (some (f node)) }

def allocateBuffer (chosen : Ptr) (s : LinkedCache) : Except Exit (Option Nat × LinkedCache) :=
  match s.nodes chosen with
  | none      => .error .fault
  | some node => do
    let (ptr, slab) ← Kcache.allocateBuffer s.objSize node.slab
    return (ptr, { s with nodes := update s.nodes chosen (some { node with slab }) })

-- The loop of `kcacheAlloc` over the slabs from `chosen` on.
def findRoom (nodes : Ptr → Option SlabNode) : Nat → Option Ptr → Except Exit (Option Ptr)
  | 0,        _           => .error .halt
  | _ + 1,    none        => .ok none
  | fuel + 1, some chosen =>
    match nodes chosen with
    | none      => .error .fault
    | some node => if HasRoom node.slab then .ok (some chosen) else findRoom nodes fuel node.next

-- The slab that was in front is linked back to the new one.
def kcacheAlloc (fuel : Nat) (managers : Managers) (s : LinkedCache) :
    Except Exit (Option Nat × LinkedCache) := do
  getLock s.lock
  match ← findRoom s.nodes fuel s.slabs with
  | some chosen => s.allocateBuffer chosen
  | none        =>
    let (chosen, s) ← s.newSlab managers 10
    match chosen with
    | none        => return (none, s)
    | some chosen =>
      let next := s.slabs
      let s ← s.modifyNode chosen fun node => { node with next }
      let s := { s with slabs := some chosen }
      let s ← match next with
        | none      => pure s
        | some next => s.modifyNode next fun node => { node with prev := some chosen }
      s.allocateBuffer chosen

-- Here it is not.
def kcacheGrow (managers : Managers) (s : LinkedCache) : Except Exit LinkedCache := do
  let (slab, s) ← s.newSlab managers 10
  match slab with
  | none      => .error .halt
  | some slab =>
    let s ← s.modifyNode slab fun node => { node with next := s.slabs }
    return { s with slabs := some slab }

-- A cache without slabs, as `fillCacheDetails` leaves it.
def fillCacheDetails (objSize type : Nat) (flags : Word) (heap : Kmalloc.Heap) : LinkedCache where
  flags   := flags &&& validFlags
  objSize := objSize
  type    := type
  slabs   := none
  lock    := false
  nodes _ := none
  heap    := heap

def createVMarkerCache (objSize type : Nat) (flags : Word) (ptr : Nat) (heap : Kmalloc.Heap) :
    Except Exit LinkedCache := do
  let s := fillCacheDetails objSize type flags heap
  let (slabs, s) ← s.place ((s.withList []).carveSlab ptr 0 0x1000)
  if slabs = none then .error .halt
  return { s with slabs }

end LinkedCache
end RoverOS.Kcache
