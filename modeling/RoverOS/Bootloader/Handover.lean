import RoverOS.Bootloader.Mem

-- A run of the bootloader, from `initMem` to the memory information that it hands over.

namespace RoverOS.Bootloader

-- What the parts of the loader outside of `mem.c` ask of it.
inductive BootCall
  | allocMem (sz : Nat) (virt : Word) (type : Nat) (temp align clear : Bool)
  | freePool (ptr : Word)
  | mapPage  (phys virt : Word) (write execute : Bool)
  | mapPages (phys virt : Word) (n : Nat) (write execute : Bool)
  deriving DecidableEq, Repr

-- `kinf.mem`
structure MemInfo where
  ptr      : Word
  entries  : Nat
  aptr     : Word
  aentries : Nat
  deriving DecidableEq, Repr

variable (clearMem : ClearMem)

def exec : BootCall → Boot → Except Exit Boot
  | .allocMem sz virt type temp align clear, s => do
    let (_, s) ← allocMem clearMem sz virt type temp align clear s
    return s
  | .freePool ptr,                           s => .ok (freePool ptr s)
  | .mapPage phys virt write execute,        s => mapPage clearMem phys virt write execute s
  | .mapPages phys virt n write execute,     s => mapPages clearMem phys virt n write execute s

def execAll : List BootCall → Boot → Except Exit Boot
  | [],            s => .ok s
  | call :: calls, s => do
    let s ← exec clearMem call s
    execAll calls s

-- The mappings that `initMMAP` asks for on its way.
def mapLoaders : List MapRequest → Boot → Except Exit Boot
  | [],        s => .ok s
  | r :: maps, s => do
    let phys := BitVec.ofNat 64 r.phys
    let s ← mapPages clearMem phys phys r.pages r.write r.execute s
    mapLoaders maps s

-- `initMMAP`, with the memory for `kmmap` and what it leaves in `kinf`. The firmware's map has `n`
-- entries when the size of `kmmap` is computed.
def handOver (n : Nat) (desc : Descriptor) (descs : List Descriptor) (s : Boot) :
    Except Exit (MemInfo × Boot) := do
  let sz := u64 (sizeofMmapEntry * (n + s.allocEntries * 2 + 5))
  let (kmmap, s) ← allocMem clearMem sz 0 MmapEntry.typeOther true true true s
  let k := initMMAP desc descs
  let s ← mapLoaders clearMem k.maps.reverse s
  return ({
    ptr      := kmmap
    entries  := u32 k.mp
    aptr     := s.allocMapPtr
    aentries := u32 s.allocEntries }, s)

-- The firmware's map at the start, the calls, and the firmware's map at the end.
def boot (before : List Descriptor) (calls : List BootCall) (n : Nat) (desc : Descriptor)
    (descs : List Descriptor) (s : Boot) : Except Exit (MemInfo × Boot) := do
  let s ← initMem clearMem before s
  let s ← execAll clearMem calls s
  handOver clearMem n desc descs s

end RoverOS.Bootloader
