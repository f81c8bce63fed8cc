import RoverOS.Mmap.Basic

-- The part of the bootloader's `mem.c` that turns the firmware's memory map into the kernel's.

namespace RoverOS.Bootloader

inductive EfiMemoryType
  | reservedMemoryType
  | loaderCode
  | loaderData
  | bootServicesCode
  | bootServicesData
  | runtimeServicesCode
  | runtimeServicesData
  | conventionalMemory
  | unusableMemory
  | acpiReclaimMemory
  | acpiMemoryNVS
  | memoryMappedIO
  | memoryMappedIOPortSpace
  | palCode
  | persistentMemory
  | unacceptedMemoryType
  | unknown (n : Nat) -- `EfiMaxMemoryType`, and the types of vendors
  deriving DecidableEq, Repr

structure Descriptor where
  type          : EfiMemoryType
  physicalStart : Nat
  virtualStart  : Nat
  numberOfPages : Nat
  deriving DecidableEq, Repr

def efiPageSize : Nat := 0x1000

-- `desc->NumberOfPages*EFI_PAGE_SIZE`
def Descriptor.bytes (desc : Descriptor) : Nat :=
  u64 (desc.numberOfPages * efiPageSize)

open MmapEntry in
def convertMmapType : EfiMemoryType → Nat
  | .reservedMemoryType                                                    => typeResv
  | .loaderCode | .loaderData | .bootServicesCode | .bootServicesData
  | .conventionalMemory                                                    => typeFree
  | .runtimeServicesCode | .runtimeServicesData                            => typeUefi
  | .acpiReclaimMemory | .acpiMemoryNVS                                    => typeAcpi
  | EfiMemoryType.memoryMappedIO | .memoryMappedIOPortSpace                => typeMmio
  | .unusableMemory | .palCode | .persistentMemory | .unacceptedMemoryType
  | .unknown _                                                             => typeOther

-- A request to map pages to themselves.
structure MapRequest where
  phys    : Nat
  pages   : Nat
  write   : Bool
  execute : Bool
  deriving DecidableEq, Repr

-- The array `kmmap`, the index of its last entry, and the mappings that were asked for.
structure Kmmap where
  entry : Nat → MmapEntry
  mp    : Nat
  maps  : List MapRequest

namespace Kmmap

-- `allocMem` clears the array.
def empty : Kmmap where
  entry _ := { magic := 0, flags := 0, type := 0, phys := 0, virt := 0, bytes := 0 }
  mp      := 0
  maps    := []

def set (k : Kmmap) (i : Nat) (e : MmapEntry) : Kmmap :=
  { k with entry := Function.update k.entry i e }

end Kmmap

def writeKmmapEntry (k : Kmmap) (mp : Nat) (desc : Descriptor) : Kmmap :=
  k.set mp { k.entry mp with
    type  := convertMmapType desc.type
    phys  := desc.physicalStart
    virt  := desc.virtualStart
    bytes := desc.bytes
    magic := MmapEntry.magicNumber }

-- The pages of the loader itself are mapped again, its code to be executed.
def mapLoader (k : Kmmap) (desc : Descriptor) : Kmmap :=
  let request write execute : MapRequest :=
    { phys := desc.physicalStart, pages := desc.bytes / 0x1000 % 2 ^ 32, write, execute }
  let k := if desc.type = .loaderCode then { k with maps := request false true :: k.maps } else k
  if desc.type = .loaderData then { k with maps := request true false :: k.maps } else k

-- Whether `mergeDescToMMAP` merges `desc` because of the entry `e`.
def mergesDesc (e : MmapEntry) (desc : Descriptor) : Prop :=
  ¬e.type ≠ convertMmapType desc.type ∧ ¬e.phys > desc.physicalStart ∧
    ¬u64 (e.phys + e.bytes + desc.bytes) < u64 (desc.physicalStart + desc.bytes)

instance (e : MmapEntry) (desc : Descriptor) : Decidable (mergesDesc e desc) :=
  inferInstanceAs (Decidable (_ ∧ _))

-- The search looks at the entries below `mp`, but the entry that grows is always the last.
def mergeDescToMMAP (k : Kmmap) (desc : Descriptor) : Bool × Kmmap :=
  let k := mapLoader k desc
  if (List.range k.mp).any fun z => mergesDesc (k.entry z) desc then
    let last := k.entry k.mp
    (true, k.set k.mp { last with bytes := u64 (last.bytes + desc.bytes) })
  else (false, k)

def addDescriptors : List Descriptor → Kmmap → Kmmap
  | [],            k => k
  | desc :: descs, k =>
    match mergeDescToMMAP k desc with
    | (true, k)  => addDescriptors descs k
    | (false, k) =>
      let k := { k with mp := k.mp + 1 }
      addDescriptors descs (writeKmmapEntry k k.mp desc)

-- The two overlap tests of `mergeKmmapEntry`.
def overlaps (e z : MmapEntry) : Prop :=
  (u64 (e.phys + e.bytes) ≥ z.phys ∧ e.phys < z.phys) ∨
    (u64 (z.phys + z.bytes) ≥ e.phys ∧ z.phys < e.phys)

instance (e z : MmapEntry) : Decidable (overlaps e z) :=
  inferInstanceAs (Decidable (_ ∨ _))

-- The first entry below `mp` that `kmmap[c]` is merged with; it gets the bytes of the last entry.
def mergeKmmapEntry (k : Kmmap) (c : Nat) : Kmmap :=
  let entry := k.entry c
  if entry.type = MmapEntry.typeIgnore then k else
    match (List.range k.mp).find? fun z =>
      z ≠ c ∧ (k.entry z).type = entry.type ∧ overlaps entry (k.entry z) with
    | none   => k
    | some z =>
      let e := k.entry z
      let e := { e with
        bytes := u64 (entry.bytes + (k.entry k.mp).bytes)
        phys  := if e.phys < entry.phys then e.phys else entry.phys }
      (k.set z e).set c { entry with type := MmapEntry.typeIgnore }

def mergeEntries (c : Nat) : Nat → Kmmap → Kmmap
  | 0,     k => k
  | n + 1, k => mergeEntries (c + 1) n (mergeKmmapEntry k c)

-- `kinf.mem.entries` is `mp`, so the last entry is not handed over. The loops that only print are
-- left out.
def initMMAP (desc : Descriptor) (descs : List Descriptor) : Kmmap :=
  let k := mapLoader (writeKmmapEntry .empty 0 desc) desc
  let k := addDescriptors descs k
  mergeEntries 0 k.mp k

end RoverOS.Bootloader
