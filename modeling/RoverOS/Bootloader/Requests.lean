import RoverOS.Bootloader.Mem
import RoverOS.Library.Bytes

-- Calls of `allocMem`, one after the other, with what they clear of `allocMap`.

namespace RoverOS.Bootloader

open Paging

section Clear

variable (lo hi : Nat)

-- A field of `n` bytes at `a`, when the memory from `lo` to `hi` has become zero.
def clearField (a n v : Nat) : Nat :=
  if max lo a < min hi (a + n) then
    Bytes.load (fun i => if lo ≤ i ∧ i < hi then 0#8 else Bytes.store (fun _ => 0#8) a n v i) a n
  else v

-- The fields are where C puts them in an entry at `a`.
def clearEntry (a : Nat) (e : MmapEntry) : MmapEntry where
  magic := clearField lo hi a 8 e.magic
  flags := clearField lo hi (a + 8) 1 e.flags
  type  := clearField lo hi (a + 16) 8 e.type
  phys  := clearField lo hi (a + 24) 8 e.phys
  virt  := clearField lo hi (a + 32) 8 e.virt
  bytes := clearField lo hi (a + 40) 8 e.bytes

end Clear

namespace Boot

-- The address of an entry of `allocMap`.
def entryAddr (s : Boot) (i : Nat) : Nat :=
  s.allocMapPtr.toNat + sizeofMmapEntry * i

-- `clearMem(ptr,sz)` where it reaches `allocMap`.
def clearAllocMap (ptr : Word) (sz : Nat) (s : Boot) : Boot :=
  { s with allocMap := fun i =>
      if i < s.mapMax then clearEntry ptr.toNat (ptr.toNat + sz) (s.entryAddr i) (s.allocMap i)
      else s.allocMap i }

end Boot

-- The arguments of a call. `type` is a `uint8_t`.
structure Request where
  sz    : Word
  virt  : Word
  type  : BitVec 8
  temp  : Bool
  align : Bool
  clear : Bool
  deriving DecidableEq, Repr

namespace Request

def alloc (clearMem : ClearMem) (r : Request) (s : Boot) : Except Exit (Word × Boot) :=
  allocMemWith clearMem Boot.clearAllocMap r.sz.toNat r.virt r.type.toNat r.temp r.align r.clear s

-- What the pool is asked for.
def size (r : Request) : Nat := if r.align then u64 (r.sz.toNat + 0x1000) else r.sz.toNat

-- What the caller gets of the pool's block at `bptr`.
def ptr (r : Request) (bptr : Word) : Word := if r.align then kalign bptr + pageSz else bptr

end Request

-- What `allocPool` answers.
def Answers (s : Boot) (ptr : Word) : Prop :=
  s.pool.head? = some ptr ∧ ptr ≠ 0#64

-- No byte that a call clears is one of an entry that is recorded.
def Request.Spares (r : Request) (s : Boot) : Prop :=
  r.clear = true → ∀ bptr, Answers s bptr → ∀ x, (r.ptr bptr).toNat ≤ x → x < (r.ptr bptr).toNat + r.size →
    ∀ i < s.allocEntries, x < s.entryAddr i ∨ s.entryAddr i + sizeofMmapEntry ≤ x

-- The requests with the addresses that they got.
def allocAll (clearMem : ClearMem) : List Request → Boot → Except Exit (List (Request × Word) × Boot)
  | [],      s => .ok ([], s)
  | r :: rs, s => do
    let (ptr, s) ← r.alloc clearMem s
    let (granted, s) ← allocAll clearMem rs s
    return ((r, ptr) :: granted, s)

def AllSpare (clearMem : ClearMem) : List Request → Boot → Prop
  | [],      _ => True
  | r :: rs, s => r.Spares s ∧ ∀ p s', r.alloc clearMem s = .ok (p, s') → AllSpare clearMem rs s'

-- The ones that are recorded.
def kept (granted : List (Request × Word)) : List (Request × Word) :=
  granted.filter fun g => !g.1.temp

end RoverOS.Bootloader
