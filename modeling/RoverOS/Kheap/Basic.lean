import RoverOS.Basic
import RoverOS.Library.Bytes

-- The kernel's heap, `kmalloc.c`, without its debug blocks. Addresses are natural numbers: the heap
-- does not reach around the end of the address space.

open Bytes (Memory load store)

namespace RoverOS

-- The heap's memory and its first block.
structure Kheap where
  mem        : Memory
  startBlock : Nat

namespace Kheap

def kheapMagic : Nat := 0xFEEF
def kheapRedzoneMagic : Nat := 0xABCDEFFEDCABCAFE

-- `sizeof(kheapBlock)`
def kheapBlockDataSz : Nat := 32

section Fields

variable (m : Memory) (block : Nat)

def magic : Nat := load m block 2
def allocated : Nat := load m (block + 4) 4
def free : Nat := load m (block + 8) 4
def chunkBorder : Bool := load m (block + 12) 1 ≠ 0
def prev : Nat := load m (block + 16) 8
def next : Nat := load m (block + 24) 8

def setMagic (v : Nat) : Memory := store m block 2 v
def setAllocated (v : Nat) : Memory := store m (block + 4) 4 v
def setFree (v : Nat) : Memory := store m (block + 8) 4 v
def setChunkBorder (v : Bool) : Memory := store m (block + 12) 1 v.toNat
def setPrev (v : Nat) : Memory := store m (block + 16) 8 v
def setNext (v : Nat) : Memory := store m (block + 24) 8 v

def redzoneOffset : Nat := block + (kheapBlockDataSz + allocated m block)
def maxAllocPtr : Nat := block + allocated m block + kheapBlockDataSz
def maxTotalPtr : Nat := block + free m block + 8 + allocated m block + kheapBlockDataSz
def alignmentOffset : Nat := 0x1000 - (maxAllocPtr m block + 8) % 0x1000
def newUnalignedBlock : Nat := maxAllocPtr m block + 8

def redzone : Nat := load m (redzoneOffset m block) 8
def setRedzone : Memory := store m (redzoneOffset m block) 8 kheapRedzoneMagic

def checkMagic : Except Exit Unit :=
  if magic m block = kheapMagic then .ok () else .error .halt

def checkRedzone : Except Exit Unit :=
  if redzone m block = kheapRedzoneMagic then .ok () else .error .halt

end Fields

def freeData (basePtr maxPtr sz : Nat) : Nat :=
  sub64 (sub64 maxPtr basePtr) (u64 (kheapBlockDataSz + 8 + sz))

def blockFromPtr (ptr : Nat) : Nat := ptr - kheapBlockDataSz
def blockDataPtr (block : Nat) : Nat := block + kheapBlockDataSz

def initKmalloc (heapStart size : Nat) (m : Memory) : Kheap :=
  let m := setMagic m heapStart kheapMagic
  let m := setAllocated m heapStart 0
  let m := setFree m heapStart (freeData heapStart (heapStart + size) 0)
  let m := setChunkBorder m heapStart false
  let m := setPrev m heapStart 0
  let m := setNext m heapStart 0
  { mem := setRedzone m heapStart, startBlock := heapStart }

-- `pages` is a `uint32_t`.
def extendSize (min : Nat) : Nat :=
  u32 ((u32 (min / 0x1000) + 5) * 0x1000)

-- The new chunk's magic and redzone are written by the caller.
def extendHeap (vmalloc : Nat → Nat) (min : Nat) (m : Memory) : Except Exit (Nat × Memory) :=
  let min := extendSize min
  let nblock := vmalloc min
  if nblock = 0 then .error .halt else
    let m := setAllocated m nblock 0
    let m := setFree m nblock (sub64 min (kheapBlockDataSz + 8))
    let m := setChunkBorder m nblock true
    let m := setPrev m nblock 0
    .ok (nblock, setNext m nblock 0)

-- The loop of `kmallocInt`: the block that can be split, or else the last one.
def search (m : Memory) (csz : Nat) (align : Bool) : Nat → Nat → Except Exit (Nat × Bool)
  | 0,        _     => .error .halt
  | fuel + 1, block => do
    checkMagic m block
    if align ∧ alignmentOffset m block < kheapBlockDataSz then
      search m csz align fuel block
    else if align ∧ u64 (csz + alignmentOffset m block) ≤ free m block then
      return (block, true)
    else if csz ≤ free m block ∧ ¬align then
      return (block, true)
    else if next m block = 0 then
      return (block, false)
    else
      search m csz align fuel (next m block)

-- The block does not become the next one of `block`.
def splitAligned (m : Memory) (block sz : Nat) : Nat × Memory :=
  let basePtr := maxAllocPtr m block + 8
  let alignedPtr := basePtr + alignmentOffset m block
  let maxPtr := maxTotalPtr m block
  let nblock := alignedPtr - kheapBlockDataSz
  let m := setFree m nblock (freeData nblock maxPtr sz)
  let m := setAllocated m nblock sz
  let m := setPrev m nblock block
  let m := setNext m nblock (next m block)
  let m := if next m block ≠ 0 then setPrev m (next m nblock) nblock else m
  (nblock, setFree m block (freeData block nblock (allocated m block)))

def split (m : Memory) (block sz : Nat) : Nat × Memory :=
  let nblock := newUnalignedBlock m block
  let m := setAllocated m nblock sz
  let m := setFree m nblock (freeData nblock (maxTotalPtr m block) sz)
  let m := setChunkBorder m nblock false
  let m := setPrev m nblock block
  let m := setNext m nblock (next m block)
  let m := setNext m block nblock
  let m := setFree m block 0
  (nblock, if next m nblock ≠ 0 then setPrev m (next m nblock) nblock else m)

def appendChunk (m : Memory) (block nblock sz : Nat) : Except Exit (Nat × Memory) :=
  if sz ≤ free m nblock then
    let m := setAllocated m nblock sz
    let m := setFree m nblock (sub64 (free m nblock) sz)
    let m := setNext m block nblock
    let m := setPrev m nblock block
    .ok (nblock, setChunkBorder m nblock true)
  else .error .halt

def newBlock (vmalloc : Nat → Nat) (fuel sz : Nat) (align : Bool) (h : Kheap) :
    Except Exit (Nat × Memory) := do
  let csz := u64 (sz + 8 + kheapBlockDataSz)
  let (block, found) ← search h.mem csz align fuel h.startBlock
  checkRedzone h.mem block
  if align ∧ found then return splitAligned h.mem block sz
  if found then return split h.mem block sz
  let (nblock, m) ← extendHeap vmalloc csz h.mem
  appendChunk m block nblock sz

-- `NULL` is 0.
def kmallocInt (vmalloc : Nat → Nat) (fuel sz : Nat) (align : Bool) (h : Kheap) :
    Except Exit (Nat × Kheap) :=
  if sz = 0 then .ok (0, h) else do
    let (nblock, m) ← newBlock vmalloc fuel sz align h
    let m := setRedzone m nblock
    let m := setMagic m nblock kheapMagic
    return (blockDataPtr nblock, { h with mem := m })

-- `vmFree` of a chunk does nothing, so `shrinkHeap` changes nothing.
def kfreeInt (ptr : Nat) (h : Kheap) : Except Exit Kheap := do
  let block := blockFromPtr ptr
  let m := h.mem
  checkMagic m block
  checkRedzone m block
  let pblock := prev m block
  let m := if chunkBorder m block then m else
    setFree m pblock (free m pblock +
      (kheapBlockDataSz + allocated m block + free m block + 8))
  let m := setNext m pblock (next m block)
  let m := if next m block ≠ 0 then setPrev m (next m block) (prev m block) else m
  return { h with mem := setMagic m block 0 }

-- `block->allocated += diff; block->free -= diff` or the other way round, in 32 bits.
def resize (m : Memory) (block sz : Nat) : Memory :=
  let m := if allocated m block < sz then
      let diff := sz - allocated m block
      let m := setFree m block (u32 (free m block + 2 ^ 32 - u32 diff))
      setAllocated m block (allocated m block + diff)
    else
      let diff := allocated m block - sz
      let m := setFree m block (free m block + diff)
      setAllocated m block (u32 (allocated m block + 2 ^ 32 - u32 diff))
  setRedzone m block

section Realloc

-- `memcpy m dest src len` is the memory after the call.
variable (memcpy : Memory → Nat → Nat → Nat → Memory) (vmalloc : Nat → Nat)

-- `krealloc` between `GET_LOCK` and `FREE_LOCK`.
def krealloc (fuel ptr sz : Nat) (h : Kheap) : Except Exit (Nat × Kheap) := do
  let block := blockFromPtr ptr
  checkMagic h.mem block
  checkRedzone h.mem block
  if allocated h.mem block = sz then return (ptr, h)
  if sz ≤ u32 (allocated h.mem block + free h.mem block) then
    return (ptr, { h with mem := resize h.mem block sz })
  let (nptr, h) ← kmallocInt vmalloc fuel sz false h
  if nptr = 0 then return (0, h)
  let h := { h with mem := memcpy h.mem nptr ptr (allocated h.mem block) }
  let h ← kfreeInt ptr h
  return (nptr, h)

end Realloc

end Kheap
end RoverOS
