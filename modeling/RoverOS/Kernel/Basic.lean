import RoverOS.Kcache.Basic
import RoverOS.Kheap.Basic
import RoverOS.Vmm.Basic

-- The kernel's allocators as they call each other: `kmalloc.c`, `vmm.c`, `kcache.c`, `dstack.c` and
-- `paging.c`, with the locks that they take.

open Bytes (Memory)

namespace RoverOS

open Paging
open Vmm (formFlags pageBytes pagesFor framesFrom)

-- A call stops at a lock that is held, and it matters whether this is `kmallocLock`.
inductive Stop
  | reentered
  | exit (e : Exit)

structure Kernel where
  heap        : Kheap
  kmallocLock : Bool
  pmm         : Pmm.Regions
  tables      : Radix.Tables Word Index Word
  pageFrames  : Dstack
  physStack   : Dstack
  pageBase    : Nat -- `pageFrames->base`
  physBase    : Nat -- `physStack->base`
  vmem        : List VMarker
  space       : PageSpace
  markerCache : Kcache

namespace Kernel

def lift {α : Type} (x : Except Exit α) : Except Stop α :=
  x.mapError .exit

-- The functions on the way back to the heap and to `vmallocPhys`.
structure Callees where
  kmalloc     : Nat → Kernel → Except Stop (Nat × Kernel)
  krealloc    : Nat → Nat → Kernel → Except Stop (Nat × Kernel)
  vmallocPhys : Word → Nat → Word → Word → Kernel → Except Stop (Word × Kernel)

section Locks

def getKmallocLock (k : Kernel) : Except Stop Kernel :=
  if k.kmallocLock then .error .reentered else .ok { k with kmallocLock := true }

def freeKmallocLock (k : Kernel) : Kernel :=
  { k with kmallocLock := false }

-- One of the two stacks of frames.
inductive Frames
  | phys
  | page

def stack (k : Kernel) : Frames → Dstack
  | .phys => k.physStack
  | .page => k.pageFrames

def setStack (k : Kernel) (stack : Dstack) : Frames → Kernel
  | .phys => { k with physStack := stack }
  | .page => { k with pageFrames := stack }

def base (k : Kernel) : Frames → Nat
  | .phys => k.physBase
  | .page => k.pageBase

end Locks

section Chain

variable (heapEnd : Word) (memcpy : Memory → Nat → Nat → Nat → Memory) (fuel : Nat) (c : Callees)

def growStack (f : Frames) (sz : Nat) (k : Kernel) : Except Stop Kernel := do
  lift (getLock (k.stack f).lock)
  let (nptr, k) ← c.krealloc (k.base f) ((k.stack f).maxSize + sz) k
  if nptr = 0 then return k
  return k.setStack { k.stack f with maxSize := (k.stack f).maxSize + sz } f

def pushStack (f : Frames) (data : Word) (k : Kernel) : Except Stop Kernel := do
  lift (getLock (k.stack f).lock)
  if (k.stack f).bytesInUse + 8 > (k.stack f).maxSize then
    let k ← growStack c f (8 * 10) (k.setStack { k.stack f with lock := true } f)
    let stack := k.stack f
    return k.setStack ({ stack with maxSize := stack.maxSize + 8 * 10 }.store data) f
  else
    return k.setStack ((k.stack f).store data) f

def pushFrames (f : Frames) (frames : List Word) (k : Kernel) : Except Stop Kernel :=
  frames.foldlM (fun k data => pushStack c f data k) k

def popStack (f : Frames) (k : Kernel) : Except Stop (Option Word × Kernel) := do
  let (item, stack) ← lift (k.stack f).popStack
  return (item, k.setStack stack f)

def allocPhys (bytes type : Nat) (flags : BitVec 16) (k : Kernel) : Except Stop ((Nat × Nat) × Kernel) := do
  let (block, pmm) ← lift (Pmm.allocPhys bytes type flags k.pmm)
  return (block, { k with pmm })

-- `sizeof(kslab)`
def sizeofKslab : Nat := 72

-- The slab and its bitmap are on the heap.
def carveSlab (virt phys slabsz : Nat) (k : Kernel) : Except Stop (Option Kslab × Kernel) := do
  let (ptr, k) ← c.kmalloc sizeofKslab k
  if ptr = 0 then return (none, k)
  let slab := k.markerCache.carveSlab virt phys slabsz
  let (_, k) ← c.kmalloc (8 * slab.bitmap.length) k
  return (some slab, k)

def newSlabPhys (phys physSz : Nat) (k : Kernel) : Except Stop (Option Kslab × Kernel) :=
  if k.markerCache.NoMap then carveSlab c 0 phys physSz k
  else do
    let (virt, k) ← c.vmallocPhys (BitVec.ofNat 64 phys) physSz Vmm.vtypeHeap (Vmm.vflagMake ||| Vmm.vflagWrite) k
    if virt = 0#64 then return (none, k)
    carveSlab c virt.toNat phys physSz k

def newSlab (count : Nat) (k : Kernel) : Except Stop (Option Kslab × Kernel) := do
  let cache := k.markerCache
  let flags := if cache.type = Pmm.memoryTypeAny then 0 else Pmm.orderFlagStrictMatch
  let ((phys, sz), k) ← allocPhys (u64 (cache.objSize * count)) cache.type flags k
  if phys = Pmm.memoryAllocationFailed then return (none, k)
  let (slab, k) ← newSlabPhys c phys sz k
  match slab with
  | some slab => return (some slab, k)
  | none      =>
    let pmm ← lift (Pmm.freeNPhys fuel phys sz k.pmm)
    return (none, { k with pmm })

-- `kcacheAlloc(markerCache,0)`
def kcacheAlloc (k : Kernel) : Except Stop (Option Nat × Kernel) := do
  lift (getLock k.markerCache.lock)
  let k := { k with markerCache := { k.markerCache with lock := true } }
  let unlock (k : Kernel) (slabs : List Kslab) : Kernel :=
    { k with markerCache := { k.markerCache with slabs, lock := false } }
  match ← lift (Kcache.allocChosen k.markerCache.objSize k.markerCache.slabs) with
  | some (ptr, slabs) => return (ptr, unlock k slabs)
  | none              =>
    let (slab, k) ← newSlab fuel c 10 k
    match slab with
    | none      => return (none, unlock k k.markerCache.slabs)
    | some slab =>
      let (ptr, slab) ← lift (Kcache.allocateBuffer k.markerCache.objSize slab)
      return (ptr, unlock k (slab :: k.markerCache.slabs))

-- `allocMarker` writes to the marker whether or not it has got one.
def allocMarker (head : VMarker) (next : List VMarker) (bytes : Nat) (type flags : Word) (k : Kernel) :
    Except Stop (VMarker × Kernel) := do
  let (ptr, k) ← kcacheAlloc fuel c k
  match ptr with
  | none   => .error (.exit .fault)
  | some _ =>
    let (marker, vmem) := Vmm.allocMarker heapEnd head next bytes type flags
    return (marker, { k with vmem })

def growPageStack (k : Kernel) : Except Stop Kernel := do
  let ((phys, sz), k) ← allocPhys (0x1000 * 100) Pmm.memoryTypeAny 0 k
  if phys = Pmm.memoryAllocationFailed then .error (.exit .halt) else
    let phys := BitVec.ofNat 64 phys
    let (v, k) ← c.vmallocPhys phys sz Vmm.vtypeData (Vmm.vflagMake ||| Vmm.vflagWrite) k
    if v = 0#64 then .error (.exit .halt) else
      pushFrames c .page (framesFrom phys (sz / 0x1000 + 1)) k

def fetchFrame : Nat → Kernel → Except Stop (Word × Kernel)
  | 0,        _ => .error (.exit .halt)
  | fuel + 1, k => do
    let (frame, k) ← popStack .page k
    match frame with
    | some frame => return (frame, k)
    | none       => fetchFrame fuel (← growPageStack c k)

def newPagetable (k : Kernel) : Except Stop (Word × Kernel) := do
  let count ← lift (k.stack .page).stackCount
  let k ← (if count < 20 then growPageStack c k else .ok k)
  fetchFrame c fuel k

def setEntry (k : Kernel) (tbl : Word) (n : Index) (entry : Word) : Kernel :=
  { k with tables := k.tables.set tbl n entry }

def orEntry (k : Kernel) (tbl : Word) (n : Index) (bits : Word) : Kernel :=
  k.setEntry tbl n (k.tables tbl n ||| bits)

def linkTable (make : Prop) [Decidable make] (tbl : Word) (n : Index) (k : Kernel) : Except Stop Kernel :=
  if tableBase (k.tables tbl n) = 0#64 then
    if make then do
      let (frame, k') ← newPagetable fuel c k
      if k'.tables tbl n = k.tables tbl n then .ok (k'.orEntry tbl n frame) else .error (.exit .unsequenced)
    else .error (.exit .refused)
  else .ok k

def mapPage (phys virt flags : Word) (k : Kernel) : Except Stop Kernel :=
  if isUnaligned phys ≠ 0#64 ∨ isUnaligned virt ≠ 0#64 then .error (.exit .refused) else do
    let make := Has flags pageFlagMake
    let pml := k.space.pml4e
    let pmln := pmlEntry virt
    let k ← linkTable fuel c make pml pmln k
    let pdpe := tableBase (k.tables pml pmln)
    let pdpen := pdpeEntry virt
    let k ← linkTable fuel c make pdpe pdpen k
    let pde := tableBase (k.tables pdpe pdpen)
    let pden := pdeEntry virt
    let k ← linkTable fuel c make pde pden k
    let pte := tableBase (k.tables pde pden)
    let k := k.orEntry pml pmln (tableFlags flags)
    let k := k.orEntry pdpe pdpen (tableFlags flags)
    let k := k.orEntry pde pden (tableFlags flags)
    return k.setEntry pte (pteEntry virt) (pgflags flags ||| phys)

-- A page that is refused is skipped, unless it had to be made.
def mapFrom (phys virt flags : Word) (b : Nat) : Nat → Kernel → Except Stop Kernel
  | 0,     k => .ok k
  | n + 1, k =>
    let off := BitVec.ofNat 64 (u32 (b * 0x1000))
    match mapPage fuel c (phys + off) (virt + off) flags k with
    | .ok k                   => mapFrom phys virt flags (b + 1) n k
    | .error (.exit .refused) =>
      if Has flags pageFlagMake then .error (.exit .halt) else mapFrom phys virt flags (b + 1) n k
    | .error e                => .error e

def mapPages (phys virt flags : Word) (pages : Nat) (k : Kernel) : Except Stop Kernel :=
  if isUnaligned phys ≠ 0#64 ∨ isUnaligned virt ≠ 0#64 then .ok k
  else mapFrom fuel c phys virt flags 0 pages k

-- `NULL` when the task has no markers.
def vmallocPhys (phys : Word) (bytes : Nat) (type flags : Word) (k : Kernel) : Except Stop (Word × Kernel) :=
  match k.vmem with
  | []           => .ok (0#64, k)
  | head :: next => do
    let (marker, k) ← allocMarker heapEnd fuel c head next bytes type flags k
    let virt := marker.base
    let k ← mapPages fuel c phys virt (formFlags flags) (pagesFor bytes) k
    return (virt, k)

def extendStack (k : Kernel) : Except Stop Kernel := do
  let ((ptr, sz), k) ← allocPhys (0x1000 * 10) Pmm.memoryTypeAny 0 k
  if ptr = Pmm.memoryAllocationFailed then .error (.exit .halt) else
    pushFrames c .phys (framesFrom (BitVec.ofNat 64 ptr) ((sz + 0xFFF) / 0x1000)) k

def getPhysmem : Nat → Kernel → Except Stop (Word × Kernel)
  | 0,        _ => .error (.exit .halt)
  | fuel + 1, k => do
    let (addr, k) ← popStack .phys k
    match addr with
    | some addr => return (addr, k)
    | none      => getPhysmem fuel (← extendStack c k)

def backPages (virt flags : Word) (i : Nat) : Nat → Kernel → Except Stop Kernel
  | 0,     k => .ok k
  | n + 1, k => do
    let (phys, k) ← getPhysmem c fuel k
    if phys = Vmm.memoryAllocationFailed then .error (.exit .halt) else
      match mapPage fuel c phys (virt + pageBytes i) (formFlags flags) k with
      | .ok k                   => backPages virt flags (i + 1) n k
      | .error (.exit .refused) => backPages virt flags (i + 1) n k
      | .error e                => .error e

def vmalloc (bytes : Nat) (type flags : Word) (k : Kernel) : Except Stop (Word × Kernel) :=
  match k.vmem with
  | []           => .ok (0#64, k)
  | head :: next => do
    let (marker, k) ← allocMarker heapEnd fuel c head next bytes type flags k
    let virt := marker.base
    let k ← backPages fuel c virt flags 0 (pagesFor bytes + 1) k
    return (virt, k)

def extendHeap (min : Nat) (k : Kernel) : Except Stop (Nat × Kernel) := do
  let flags := Vmm.vflagWrite ||| Vmm.vflagKernel ||| Vmm.vflagMake
  let (virt, k) ← vmalloc heapEnd fuel c (Kheap.extendSize min) Vmm.vtypeHeap flags k
  let (nblock, mem) ← lift (Kheap.extendHeap (fun _ => virt.toNat) min k.heap.mem)
  return (nblock, { k with heap := { k.heap with mem } })

def newBlock (sz : Nat) (align : Bool) (k : Kernel) : Except Stop (Nat × Kernel) := do
  let csz := u64 (sz + 8 + Kheap.kheapBlockDataSz)
  let mem := k.heap.mem
  let (block, found) ← lift (Kheap.search mem csz align fuel k.heap.startBlock)
  lift (Kheap.checkRedzone mem block)
  let setMem (k : Kernel) (mem : Memory) : Kernel := { k with heap := { k.heap with mem } }
  if align ∧ found then
    let (nblock, mem) := Kheap.splitAligned mem block sz
    return (nblock, setMem k mem)
  if found then
    let (nblock, mem) := Kheap.split mem block sz
    return (nblock, setMem k mem)
  let (nblock, k) ← extendHeap heapEnd fuel c csz k
  let (nblock, mem) ← lift (Kheap.appendChunk k.heap.mem block nblock sz)
  return (nblock, setMem k mem)

def kmallocInt (sz : Nat) (align : Bool) (k : Kernel) : Except Stop (Nat × Kernel) :=
  if sz = 0 then .ok (0, k) else do
    let (nblock, k) ← newBlock heapEnd fuel c sz align k
    let mem := Kheap.setRedzone k.heap.mem nblock
    let mem := Kheap.setMagic mem nblock Kheap.kheapMagic
    return (Kheap.blockDataPtr nblock, { k with heap := { k.heap with mem } })

def kmallocWrapper (sz : Nat) (align : Bool) (k : Kernel) : Except Stop (Nat × Kernel) := do
  let k ← k.getKmallocLock
  let (ptr, k) ← kmallocInt heapEnd fuel c sz align k
  if ptr = 0 then return (0, k.freeKmallocLock)
  return (ptr, k.freeKmallocLock)

def kfree (ptr : Nat) (k : Kernel) : Except Stop Kernel := do
  let k ← k.getKmallocLock
  let heap ← lift (Kheap.kfreeInt ptr k.heap)
  return { k with heap }.freeKmallocLock

-- When the size stays the same, there is no `FREE_LOCK`.
def krealloc (ptr sz : Nat) (k : Kernel) : Except Stop (Nat × Kernel) := do
  let k ← k.getKmallocLock
  let block := Kheap.blockFromPtr ptr
  let mem := k.heap.mem
  lift (Kheap.checkMagic mem block)
  lift (Kheap.checkRedzone mem block)
  if Kheap.allocated mem block = sz then return (ptr, k)
  if sz ≤ u32 (Kheap.allocated mem block + Kheap.free mem block) then
    return (ptr, { k with heap := { k.heap with mem := Kheap.resize mem block sz } }.freeKmallocLock)
  let (nptr, k) ← kmallocInt heapEnd fuel c sz false k
  if nptr = 0 then return (0, k.freeKmallocLock)
  let mem := memcpy k.heap.mem nptr ptr (Kheap.allocated k.heap.mem block)
  let heap ← lift (Kheap.kfreeInt ptr { k.heap with mem })
  return (nptr, { k with heap }.freeKmallocLock)

end Chain

-- The functions as they are after `n` returns to the heap or to `vmallocPhys`.
def callees (heapEnd : Word) (memcpy : Memory → Nat → Nat → Nat → Memory) (fuel : Nat) : Nat → Callees
  | 0     => ⟨fun _ _ => .error (.exit .halt), fun _ _ _ => .error (.exit .halt),
    fun _ _ _ _ _ => .error (.exit .halt)⟩
  | n + 1 =>
    let c := callees heapEnd memcpy fuel n
    ⟨fun sz => kmallocWrapper heapEnd fuel c sz false, krealloc heapEnd memcpy fuel c,
      vmallocPhys heapEnd fuel c⟩

-- What the kernel asks of its heap. `kmalloc` and `kmallocAligned` are `kmallocWrapper`.
inductive Request
  | kmalloc (sz : Nat) (align : Bool)
  | kfree (ptr : Nat)
  | krealloc (ptr sz : Nat)

def run (heapEnd : Word) (memcpy : Memory → Nat → Nat → Nat → Memory) (fuel n : Nat) (k : Kernel) :
    Request → Except Stop Kernel
  | .kmalloc sz align => do
    let (_, k) ← kmallocWrapper heapEnd fuel (callees heapEnd memcpy fuel n) sz align k
    return k
  | .kfree ptr => kfree ptr k
  | .krealloc ptr sz => do
    let (_, k) ← krealloc heapEnd memcpy fuel (callees heapEnd memcpy fuel n) ptr sz k
    return k

end Kernel
end RoverOS
