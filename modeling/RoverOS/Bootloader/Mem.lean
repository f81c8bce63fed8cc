import RoverOS.Paging.Theorems.Walk
import RoverOS.Bootloader.Mmap

-- The part of the bootloader's `mem.c` that allocates memory and builds the page tables. The macros
-- that `bootMem.h` shares with `paging.h` are taken from there.

namespace RoverOS.Bootloader

open Paging

def pageAlign : Word := 0xFFFFFFFFFFFFF000

def kalign (addr : Word) : Word := addr &&& pageAlign

-- The entries of the frame at a page-aligned address.
abbrev Tables := Radix.Tables Word Index Word

-- The firmware's library is not part of the repository: what the tables are after
-- `clearMem(ptr,sz)` is a parameter.
abbrev ClearMem := Word → Nat → Tables → Tables

structure Clears (clearMem : ClearMem) : Prop where
  same  : ∀ {ptr sz m}, 0x1000 ≤ sz → ∀ i, clearMem ptr sz m ptr i = 0#64
  other : ∀ {ptr sz m a}, a.toNat + 0x1000 ≤ ptr.toNat ∨ ptr.toNat + sz ≤ a.toNat →
    clearMem ptr sz m a = m a

-- All entries that lie in the range become zero.
def clearRange : ClearMem := fun ptr sz m a i =>
  if ptr.toNat ≤ a.toNat + 8 * i.toNat ∧ a.toNat + 8 * i.toNat + 8 ≤ ptr.toNat + sz then 0#64
  else m a i

theorem clearRange_clears : Clears clearRange where
  same {ptr sz m} h i := by
    have hi := i.isLt
    exact if_pos ⟨by omega, by omega⟩
  other {ptr sz m a} h := by
    funext i
    have hi := i.isLt
    exact if_neg fun hin => by omega

-- What a block of the firmware's pool was asked for.
inductive BlockUse
  | tables   -- a chunk of `pgAlloc`
  | allocMap -- the array `allocMap` itself
  | recorded -- memory from `allocMem`, with an entry in `allocMap`
  | temp     -- memory from `allocMem` without one
  deriving DecidableEq, Repr

structure Block where
  ptr  : Word
  size : Nat
  use  : BlockUse
  deriving DecidableEq, Repr

structure Boot where
  tables       : Tables
  pml          : Word
  bumpBase     : Word
  bumpPtr      : Word
  bumpSize     : Word
  allocMap     : Nat → MmapEntry
  allocMapPtr  : Word
  mapMax       : Nat
  mapPtr       : Nat
  allocEntries : Nat
  blocks       : List Block -- the blocks of the pool that are in use
  pool         : List Word  -- what `allocPool` answers to the requests to come

namespace Boot

def setEntry (s : Boot) (tbl : Word) (n : Index) (entry : Word) : Boot :=
  { s with tables := s.tables.set tbl n entry }

def orEntry (s : Boot) (tbl : Word) (n : Index) (bits : Word) : Boot :=
  s.setEntry tbl n (s.tables tbl n ||| bits)

end Boot

-- The globals before `initMem`; memory and the pool are the firmware's.
def Boot.start (tables : Tables) (allocMap : Nat → MmapEntry) (pool : List Word) : Boot where
  tables       := tables
  pml          := 0
  bumpBase     := 0
  bumpPtr      := 0
  bumpSize     := 0
  allocMap     := allocMap
  allocMapPtr  := 0
  mapMax       := 0
  mapPtr       := 0
  allocEntries := 0
  blocks       := []
  pool         := pool

-- `NULL`, or a new block.
def allocPool (sz : Nat) (use : BlockUse) (s : Boot) : Word × Boot :=
  match s.pool with
  | []          => (0#64, s)
  | ptr :: pool =>
    if ptr = 0#64 then (0#64, { s with pool })
    else (ptr, { s with pool, blocks := { ptr, size := sz, use } :: s.blocks })

-- What the loader gives back with `freePool` is temporary memory.
def freePool (ptr : Word) (s : Boot) : Boot :=
  { s with blocks := s.blocks.filter fun b => ¬(b.ptr = ptr ∧ b.use = .temp) }

-- `pgAlloc`, `initMem` and the growth of `allocMap` do not ask whether the pool has anything left. If
-- not, they write to memory that is not the loader's.
def allocTable (sz : Nat) (use : BlockUse) (s : Boot) : Except Exit (Word × Boot) :=
  let (ptr, s) := allocPool sz use s
  if ptr = 0#64 then .error .fault else .ok (ptr, s)

def bumpChunk : Nat := 0x400000

def sizeofMmapEntry : Nat := 48

def zeroEntry : MmapEntry :=
  { magic := 0, flags := 0, type := 0, phys := 0, virt := 0, bytes := 0 }

-- Tables are cut from chunks of 4 MB.
def growBump (s : Boot) : Except Exit Boot :=
  if s.bumpPtr = s.bumpSize then do
    let (base, s) ← allocTable (bumpChunk + 0x1000) .tables s
    return { s with
      bumpBase := kalign base + pageSz
      bumpSize := BitVec.ofNat 64 bumpChunk
      bumpPtr  := 0 }
  else .ok s

section Paging

variable (clearMem : ClearMem)

def pgAlloc (s : Boot) : Except Exit (Word × Boot) := do
  let s ← growBump s
  let ptr := s.bumpBase + s.bumpPtr
  return (ptr, { s with
    tables  := clearMem ptr 0x1000 s.tables
    bumpPtr := s.bumpPtr + 0x1000 })

-- `if(TABLE_BASE(tbl[n]) == 0x0){tbl[n] |= TABLE_BASE(pgAlloc());}`. C does not say whether `tbl[n]`
-- is read before or after the call, so the call must not have changed it.
def linkTable (tbl : Word) (n : Index) (s : Boot) : Except Exit Boot :=
  if tableBase (s.tables tbl n) = 0#64 then do
    let (ptr, s') ← pgAlloc clearMem s
    if s'.tables tbl n = s.tables tbl n then .ok (s'.orEntry tbl n (tableBase ptr))
    else .error .unsequenced
  else .ok s

-- The flags that the upper levels get.
def upperFlags (write : Bool) : Word :=
  if write then pgPresent ||| pgWrite else pgPresent

def leafFlags (write execute : Bool) : Word :=
  if execute then upperFlags write else upperFlags write ||| pgNx

-- Always `EFI_SUCCESS`.
def mapPage (phys virt : Word) (write execute : Bool) (s : Boot) : Except Exit Boot := do
  let phys := kalign phys
  let virt := kalign virt
  let pmln := pmlEntry virt
  let s ← linkTable clearMem s.pml pmln s
  let pdpe := tableBase (s.tables s.pml pmln)
  let pdpen := pdpeEntry virt
  let s ← linkTable clearMem pdpe pdpen s
  let pde := tableBase (s.tables pdpe pdpen)
  let pden := pdeEntry virt
  let s ← linkTable clearMem pde pden s
  let pte := tableBase (s.tables pde pden)
  let s := s.orEntry s.pml pmln (upperFlags write)
  let s := s.orEntry pdpe pdpen (upperFlags write)
  let s := s.orEntry pde pden (upperFlags write)
  return s.setEntry pte (pteEntry virt) (leafFlags write execute ||| phys)

-- The loop counts pages in 32 bits, and so does `i*PAGE_SZ`.
def mapFrom (phys virt : Word) (write execute : Bool) (i : Nat) : Nat → Boot → Except Exit Boot
  | 0,     s => .ok s
  | n + 1, s => do
    let off := BitVec.ofNat 64 (u32 (i * 0x1000))
    let s ← mapPage clearMem (phys + off) (virt + off) write execute s
    mapFrom phys virt write execute (i + 1) n s

def mapPages (phys virt : Word) (n : Nat) (write execute : Bool) (s : Boot) : Except Exit Boot :=
  mapFrom clearMem phys virt write execute 0 (if n = 0 then 1 else n) s

-- A descriptor's pages, as a `uint32_t`.
def descPages (desc : Descriptor) : Nat :=
  u32 (desc.bytes / 0x1000)

-- Memory that is reserved, unaccepted or unusable is not mapped.
def idMapDesc (desc : Descriptor) (s : Boot) : Except Exit Boot :=
  if desc.type = .reservedMemoryType ∨ desc.type = .unusableMemory ∨
    desc.type = .unacceptedMemoryType then .ok s
  else
    let phys := BitVec.ofNat 64 desc.physicalStart
    mapPages clearMem phys phys (descPages desc) true false s

-- The last descriptor is not looked at.
def idMapMem : List Descriptor → Boot → Except Exit Boot
  | [],            s => .ok s
  | [_],           s => .ok s
  | desc :: descs, s => do
    let s ← idMapDesc clearMem desc s
    idMapMem descs s

-- `initMem` up to `idMapMem`. The entries beyond the first ones are what `reallocPool` will find.
def initPml (s : Boot) : Except Exit Boot := do
  let mapMax := 40
  let (ptr, s) ← allocTable (sizeofMmapEntry * mapMax) .allocMap s
  let s := { s with
    mapMax
    allocMapPtr := ptr
    allocMap    := fun i => if i < mapMax then zeroEntry else s.allocMap i
    tables      := clearMem ptr (sizeofMmapEntry * mapMax) s.tables }
  let (pml, s) ← pgAlloc clearMem s
  return { s with pml }

def initMem (descs : List Descriptor) (s : Boot) : Except Exit Boot := do
  let s ← initPml clearMem s
  idMapMem clearMem descs s

-- `reallocPool` frees the old array when it has copied it.
def growAllocMap (s : Boot) : Except Exit Boot := do
  let old : Block := { ptr := s.allocMapPtr, size := sizeofMmapEntry * s.mapMax, use := .allocMap }
  let mapMax := s.mapMax + 20
  let (ptr, s) ← allocTable (sizeofMmapEntry * mapMax) .allocMap s
  return { s with blocks := s.blocks.erase old, allocMapPtr := ptr, mapMax }

def flagAlign : Nat := 1 <<< 0

-- The entry of `allocMap` for a new block at `bptr`.
def recordAlloc (bptr ptr : Word) (sz : Nat) (virt : Word) (type : Nat) (align : Bool) (s : Boot) :
    Except Exit Boot :=
  let old := s.allocMap s.mapPtr
  let entry := { old with
    bytes := sz
    phys  := bptr.toNat
    type  := type
    virt  := (if virt = 0#64 then ptr else virt).toNat
    magic := MmapEntry.magicNumber
    flags := if align then old.flags ||| flagAlign else old.flags }
  let s := { s with
    allocMap     := Function.update s.allocMap s.mapPtr entry
    allocEntries := s.allocEntries + 1
    mapPtr       := s.mapPtr + 1 }
  if s.mapPtr = s.mapMax then growAllocMap s else .ok s

-- `allocMem` up to the entry in `allocMap`: the block, what the caller gets of it, and the size that was
-- asked for. `clearMap` is what becomes of `allocMap` where the memory that is cleared reaches it.
def allocBlock (clearMap : Word → Nat → Boot → Boot) (sz : Nat) (temp align clear : Bool) (s : Boot) :
    Except Exit ((Word × Word × Nat) × Boot) :=
  let sz := if align then u64 (sz + 0x1000) else sz
  let (bptr, s) := allocPool sz (if temp then .temp else .recorded) s
  if bptr = 0#64 then .error .halt else
    let ptr := if align then kalign bptr + pageSz else bptr
    let s := if clear then clearMap ptr sz { s with tables := clearMem ptr sz s.tables } else s
    .ok ((bptr, ptr, sz), s)

def allocMemWith (clearMap : Word → Nat → Boot → Boot) (sz : Nat) (virt : Word) (type : Nat)
    (temp align clear : Bool) (s : Boot) : Except Exit (Word × Boot) := do
  let ((bptr, ptr, sz), s) ← allocBlock clearMem clearMap sz temp align clear s
  if temp then return (ptr, s)
  let s ← recordAlloc bptr ptr sz virt type align s
  return (ptr, s)

-- With `allocMap` out of reach.
def allocMem (sz : Nat) (virt : Word) (type : Nat) (temp align clear : Bool) (s : Boot) :
    Except Exit (Word × Boot) :=
  allocMemWith clearMem (fun _ _ s => s) sz virt type temp align clear s

-- The four entries on the way to a page, if all of them are present.
structure Trace where
  pml  : Word
  pdpe : Word
  pde  : Word
  pte  : Word
  deriving DecidableEq, Repr

-- With `efi` false; the four entries are what it prints when nothing stops it.
def testPath (s : Boot) (addr : Word) : Option Trace :=
  let addr := kalign addr
  let pml := s.tables s.pml (pmlEntry addr)
  if pml &&& pgPresent = 0#64 then none else
    let pdpe := s.tables (tableBase pml) (pdpeEntry addr)
    if pdpe &&& pgPresent = 0#64 then none else
      let pde := s.tables (tableBase pdpe) (pdeEntry addr)
      if pde &&& pgPresent = 0#64 then none else
        let pte := s.tables (tableBase pde) (pteEntry addr)
        if pte &&& pgPresent = 0#64 then none else some { pml, pdpe, pde, pte }

end Paging
end RoverOS.Bootloader
