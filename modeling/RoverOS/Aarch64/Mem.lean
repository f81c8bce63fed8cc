import RoverOS.Mmap.Basic

-- The memory of the AArch64 bootloader, `aarch64/mem.c`: a map of the memory there is, each entry with
-- an offset up to which it is used, and a map of what was allocated.

open Function (update)

namespace RoverOS.Aarch64

-- `magic` and `offset` are a union.
abbrev offset (e : MmapEntry) : Nat := e.magic

def typeBoot : Nat := 0xC

structure Loader where
  base         : Nat
  max          : Nat
  cursor       : Nat
  mmap         : Nat → MmapEntry
  amap         : Nat → MmapEntry
  mmapEntries  : Nat
  allocEntries : Nat

-- Both maps are written where the cursor is.
def addMmapEntry (phys virt len type : Nat) (s : Loader) : Loader :=
  { s with
    mmap   := update s.mmap s.cursor { s.mmap s.cursor with magic := 0, type, phys, virt, bytes := len }
    cursor := s.cursor + 1 }

def addAllocation (phys virt sz type : Nat) (s : Loader) : Loader :=
  { s with
    amap         := update s.amap s.cursor { s.amap s.cursor with phys, virt, bytes := sz, type }
    cursor       := s.cursor + 1
    allocEntries := s.allocEntries + 1 }

def initAllocmmap (s : Loader) : Loader :=
  { s with
    mmapEntries  := s.cursor
    amap         := update s.amap 0 { s.amap 0 with
      phys := s.base, virt := s.base, bytes := s.max, type := typeBoot }
    allocEntries := 1
    cursor       := 1 }

-- The loop of `allocMem` over the entries from `i` on. The address is made of the size, not of the offset.
def allocFrom (sz type virt : Nat) (map : Bool) (s : Loader) (i : Nat) : Nat → Nat × Loader
  | 0     => (0, s)
  | n + 1 =>
    let e := s.mmap i
    if e.type ≠ MmapEntry.typeFree then allocFrom sz type virt map s (i + 1) n
    else if u64 (offset e + sz) ≥ e.bytes then allocFrom sz type virt map s (i + 1) n
    else
      let addr := u64 (e.phys + sz)
      let s := { s with mmap := update s.mmap i { e with magic := u64 (offset e + sz) } }
      let va := if map = true ∧ virt ≠ 1 then virt else addr
      (addr, addAllocation addr va sz type s)

-- `sz` is rounded up in 64-bit arithmetic.
def pageSize (sz : Nat) : Nat :=
  if sz % 0x1000 ≠ 0 then u64 (sz + 0x1000) - u64 (sz + 0x1000) % 0x1000 else sz

-- 0 is `NULL`.
def allocMem (sz type virt : Nat) (map : Bool) (s : Loader) : Nat × Loader :=
  allocFrom (pageSize sz) type virt map s 0 s.mmapEntries

end RoverOS.Aarch64
