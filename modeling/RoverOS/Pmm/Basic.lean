import RoverOS.Mmap.Basic

-- The physical memory manager, `pmm.c`: regions of memory, each with a bitmap for every order of
-- blocks.

namespace RoverOS.Pmm

def maxOrder : Nat := 10
def orderMinBlockSize : Nat := 0x4000

-- `(0x1<<o)*ORDER_MIN_BLOCK_SIZE`
def orderBlockSize (o : Nat) : Nat := 2 ^ o * orderMinBlockSize

def memoryTypeAny : Nat := 0x0
def memoryType1MB : Nat := 0x1
def memoryTypeLow : Nat := 0x2
def memoryTypeHgh : Nat := 0x3
def memoryTypeIsa : Nat := 0x4

def memoryAllocationFailed : Nat := 0xFFF

def regionFlagComplete : Nat := 1 <<< 0
def orderFlagStrictMatch : BitVec 16 := 1 <<< 0

def orderIsRightBlock (blk : Nat) : Prop := (blk + 2) % 2 &&& 1 ≠ 0

instance (blk : Nat) : Decidable (orderIsRightBlock blk) :=
  inferInstanceAs (Decidable (_ ≠ _))

def orderGetParentBitLbit (lblk idx : Nat) : Nat := (idx * 64 + lblk) >>> 1
def orderGetIdxFromBit (bit : Nat) : Nat := bit / 64
def orderAddressToBit (addr base : Nat) : Nat := sub64 addr base / orderMinBlockSize
def orderGetChildNum (order pbit : Nat) : Nat := u64 (pbit <<< order)

def orderCalculateAbsAddress (order bit base : Nat) : Nat :=
  u64 (orderGetChildNum order bit * orderMinBlockSize + base)

-- `addr&PAGE_ALIGN`
def kalign (addr : Nat) : Nat := addr - addr % 0x1000

-- `1<<n` is an `int`: the machine shifts it by `n` modulo 32, and it is extended with its sign.
def intBit (n : Nat) : Word :=
  ((1 : BitVec 32) <<< (n % 32)).signExtend 64

structure MemOrder where
  entryn : Nat       -- `uint32_t`
  used   : Nat       -- `uint32_t`
  entry  : List Word -- empty when it is `NULL`
  deriving DecidableEq, Repr

structure MemRegion where
  type       : Nat
  flags      : Nat
  base       : Nat
  limit      : Nat
  blockCount : Nat
  ordern     : Nat
  order      : List MemOrder -- `MAXORDER` of them
  deriving DecidableEq, Repr

structure Regions where
  region    : List MemRegion
  buddyLock : Bool := false
  deriving DecidableEq, Repr

def MemOrder.write (o : MemOrder) (idx : Nat) (w : Word) (n : Nat) : MemOrder :=
  { o with entry := o.entry.set idx w, used := u32 (o.used + n) }

namespace MemRegion

-- `r->order[order].entry[idx] = f(r->order[order].entry[idx])` and `r->order[order].used += n`
def modify (r : MemRegion) (order idx : Nat) (f : Word → Word) (n : Nat) :
    Except Exit MemRegion :=
  match r.order[order]? with
  | none   => .error .fault
  | some o =>
    match o.entry[idx]? with
    | none   => .error .fault
    | some w => .ok { r with order := r.order.set order (o.write idx (f w) n) }

end MemRegion

-- The first loop of `setBit`, which marks the children: the mask is made of the index, not the bit.
def setChildren (childBaseIdx childBaseBit i : Nat) : Nat → MemRegion → Except Exit MemRegion
  | 0,     r => .ok r
  | n + 1, r => do
    let r ← r.modify i childBaseIdx (· ||| intBit childBaseIdx) 2
    let bit := orderGetParentBitLbit childBaseBit childBaseIdx
    let idx := orderGetIdxFromBit bit
    setChildren idx (bit % 64) (i + 1) n r

-- The second loop, which marks the parents; `bit` is a `uint8_t`.
def setParents (order idx bit : Nat) : Nat → MemRegion → Except Exit MemRegion
  | 0,     r => .ok r
  | n + 1, r => do
    if (r.order[order]?.map (·.entryn)) = some 0 then return r
    let r ← r.modify order idx (· ||| intBit bit) 1
    let bit := u8 (orderGetParentBitLbit bit idx)
    let idx := orderGetIdxFromBit bit
    setParents (order + 1) idx (bit % 64) n r

def setBit (r : MemRegion) (order idx bit : Nat) : Except Exit MemRegion := do
  let childBaseBit := orderGetChildNum order bit
  let childBaseBit := if orderIsRightBlock childBaseBit then childBaseBit - 1 else childBaseBit
  let childBaseIdx := orderGetIdxFromBit childBaseBit
  let r ← setChildren childBaseIdx (childBaseBit / 64) 0 order r
  let r ← r.modify order idx (· ||| intBit bit) 1
  let bit := if orderIsRightBlock bit then bit - 1 else bit
  let bit := u8 (orderGetParentBitLbit bit idx)
  let idx := orderGetIdxFromBit bit
  setParents (order + 1) idx (bit / 64) (r.ordern - (order + 1)) r

-- The loop of `freeBit` goes up to `MAXORDER`, whatever orders the region has.
def freeParents (order parentIdx parentBit : Nat) : Nat → MemRegion → Except Exit MemRegion
  | 0,     r => .ok r
  | n + 1, r => do
    let parentBit := u8 (orderGetParentBitLbit parentBit parentIdx)
    let parentIdx := orderGetIdxFromBit parentBit
    let parentBit := parentBit % 64
    let r ← r.modify order parentIdx (· &&& ~~~intBit parentBit) 0
    match r.order[order]?.bind (·.entry[parentIdx]?) with
    | none   => .error .fault
    | some w =>
      if w &&& intBit (parentBit + 1) ≠ 0#64 then .ok r
      else freeParents (order + 1) parentIdx parentBit n r

-- `test` in `freeBit`: the bit beside a left block, and a right block's own bit.
def freeTest (bit : Nat) : Nat :=
  let lbit := if orderIsRightBlock bit then bit else u8 (bit + 255)
  if orderIsRightBlock bit then lbit else u8 (bit + 1)

def freeBit (r : MemRegion) (order idx bit : Nat) : Except Exit MemRegion := do
  let r ← r.modify order idx (· &&& ~~~intBit bit) 0
  match r.order[order]?.bind (·.entry[idx]?) with
  | none   => .error .fault
  | some w =>
    if w &&& intBit (freeTest bit) ≠ 0#64 then .ok r
    else freeParents (order + 1) (u8 idx) bit (maxOrder - (order + 1)) r

-- The words of a bitmap from `idx` on: the first one that is not full.
def findWord (entry : List Word) (idx : Nat) : Nat → Except Exit (Option (Nat × Word))
  | 0     => .ok none
  | n + 1 =>
    match entry[idx]? with
    | none   => .error .fault
    | some w => if w = 0xFFFFFFFFFFFFFFFF then findWord entry (idx + 1) n else .ok (some (idx, w))

-- The first bit of a word that is clear, or the number of bits that were looked at.
def findBit (w : Word) (bit : Nat) : Nat → Nat
  | 0     => bit
  | n + 1 => if w &&& intBit bit = 0#64 then bit else findBit w (bit + 1) n

-- The address is made of the bit alone, without the index of its word.
def allocRegion (r : MemRegion) (order : Nat) : Except Exit (Nat × MemRegion) := do
  match r.order[order]? with
  | none        => .error .fault
  | some morder =>
    if morder.used ≥ morder.entryn then return (memoryAllocationFailed, r)
    match ← findWord morder.entry 0 ((morder.entryn + 63) / 64) with
    | none          => return (memoryAllocationFailed, r)
    | some (idx, w) =>
      let bit := findBit w 0 (min 64 (morder.entryn - idx * 64))
      let r ← setBit r order idx bit
      return (orderCalculateAbsAddress order bit r.base, r)

-- The shift adds up: the sizes are those of the orders 0, 0, 1, 3, 6, 10, and so on.
def orderFor (bytes sz order : Nat) : Nat → Nat
  | 0     => order
  | n + 1 => if sz ≥ bytes then order else orderFor bytes (u64 (sz <<< order)) (order + 1) n

def hasStrict (flags : BitVec 16) : Prop := flags &&& orderFlagStrictMatch ≠ 0

instance (flags : BitVec 16) : Decidable (hasStrict flags) :=
  inferInstanceAs (Decidable (_ ≠ _))

def strictFlags (type : Nat) (flags : BitVec 16) : BitVec 16 :=
  let flags := if hasStrict flags ∧ type = memoryTypeAny then flags &&& ~~~orderFlagStrictMatch else flags
  if type = memoryType1MB then flags ||| orderFlagStrictMatch else flags

-- `flags&REGION_FLAG_COMPLETE == 0x0` compares first, so it is never true.
def isIncomplete (r : MemRegion) : Prop := r.flags &&& (if regionFlagComplete = 0 then 1 else 0) ≠ 0

instance (r : MemRegion) : Decidable (isIncomplete r) :=
  inferInstanceAs (Decidable (_ ≠ _))

-- The loop of `allocPhys` over the regions from `i` on, with the best region so far.
def bestRegion (type : Nat) (flags : BitVec 16) (order i : Nat) (best : Option Nat) :
    List MemRegion → Except Exit (Option Nat)
  | []      => .ok best
  | r :: rs =>
    let next best := bestRegion type flags order (i + 1) best rs
    if isIncomplete r then next best
    else if type ≠ memoryType1MB ∧ r.type = memoryType1MB then next best
    else if hasStrict flags ∧ r.type ≠ type then next best
    else
      match r.order[order]? with
      | none   => .error .fault
      | some o =>
        if o.entry = [] then next best
        else if r.type = type then next (some i)
        else if best = none then next (some i)
        else if r.type > memoryType1MB ∧ r.type < memoryTypeIsa then
          if i = 3 then .ok best else next (some i)
        else next best

-- The address, or `MEMORY_ALLOCATION_FAILED`, comes with `*actual`.
def allocPhys (bytes type : Nat) (flags : BitVec 16) (s : Regions) :
    Except Exit ((Nat × Nat) × Regions) := do
  getLock s.buddyLock
  let order := orderFor bytes orderMinBlockSize 0 maxOrder
  if order > maxOrder then return ((memoryAllocationFailed, 0), s)
  let flags := strictFlags type flags
  match ← bestRegion type flags order 0 none s.region with
  | none     => .error .halt
  | some use =>
    match s.region[use]? with
    | none   => .error .fault
    | some r =>
      let (ptr, r) ← allocRegion r order
      return ((ptr, orderBlockSize order), { s with region := s.region.set use r })

-- `bytes` is rounded up to `n` blocks.
def reserveBlocks (ptr : Nat) : Nat → MemRegion → Except Exit MemRegion
  | 0,     r => .ok r
  | n + 1, r => do
    let bit := orderAddressToBit ptr r.base
    let idx := u32 (orderGetIdxFromBit bit)
    let r ← setBit r 0 idx (bit % 64)
    reserveBlocks (u64 (ptr + orderMinBlockSize)) n r

def blocksFor (bytes : Nat) : Nat :=
  (bytes + (orderMinBlockSize - 1)) / orderMinBlockSize

def regionAround (addr : Nat) (region : List MemRegion) : Option Nat :=
  region.findIdx? fun r => decide (r.base < addr ∧ r.limit > addr)

def allocPhysAddress (addr bytes : Nat) (s : Regions) : Except Exit (Nat × Regions) := do
  getLock s.buddyLock
  match regionAround addr s.region with
  | none    => return (memoryAllocationFailed, s)
  | some rn =>
    match s.region[rn]? with
    | none   => .error .fault
    | some r =>
      let r ← reserveBlocks (kalign addr) (blocksFor bytes) r
      return (addr, { s with region := s.region.set rn r })

-- The limit of a region is taken to be in it.
def regionHolding (ptr : Nat) (region : List MemRegion) : Option Nat :=
  region.findIdx? fun r => decide (ptr ≥ r.base ∧ ptr ≤ r.limit)

-- When no region holds `ptr`, the lock stays taken.
def freePhys (ptr : Nat) (s : Regions) : Except Exit Regions :=
  if ptr % 0x1000 ≠ 0 then .ok s else do
    getLock s.buddyLock
    match regionHolding ptr s.region with
    | none   => return { s with buddyLock := true }
    | some i =>
      match s.region[i]? with
      | none     => .error .fault
      | some reg =>
        let bit := orderAddressToBit ptr reg.base
        let reg ← freeBit reg 0 (orderGetIdxFromBit bit) (u8 bit)
        return { s with region := s.region.set i reg }

-- The loop ends only when `bytes` is exactly one block, and otherwise goes on modulo `2 ^ 64`.
def freeBlocks (ptr i : Nat) : Nat → Nat → Regions → Except Exit Regions
  | 0,        _,     _ => .error .halt
  | fuel + 1, bytes, s => do
    let s ← freePhys (u64 (ptr + u32 (orderMinBlockSize * i))) s
    if sub64 bytes orderMinBlockSize = 0 then return s
    freeBlocks ptr (u32 (i + 1)) fuel (sub64 bytes orderMinBlockSize) s

def freeNPhys (fuel ptr bytes : Nat) (s : Regions) : Except Exit Regions :=
  if ptr % 0x1000 ≠ 0 then .ok s else freeBlocks ptr 0 fuel bytes s

def setRegionType (ent : MmapEntry) : Nat :=
  if ent.phys < 0x100000 then memoryType1MB
  else if ent.phys < 0x100000000 then memoryTypeLow
  else memoryTypeHgh

def newOrder (blc : Nat) : MemOrder :=
  let alloc := if blc / 64 = 0 then 1 else blc / 64
  { entryn := u32 blc, used := 0, entry := List.replicate alloc 0#64 }

-- The loop of `createRegion` over the orders: each has half the blocks, until none is left.
def makeOrders : Nat → List MemOrder → List MemOrder
  | _,   []      => []
  | blc, o :: os => (if blc > 0 then newOrder blc else o) :: makeOrders (blc / 2) os

def countOrders (blc : Nat) : Nat → Nat
  | 0     => 0
  | n + 1 => if blc > 0 then countOrders (blc / 2) n + 1 else 0

-- Only an even number of blocks is used.
def blocksIn (bytes : Nat) : Nat :=
  let blockCount := bytes / orderMinBlockSize
  if blockCount % 2 ≠ 0 then blockCount - 1 else blockCount

def fillRegion (old : MemRegion) (entry : MmapEntry) : MemRegion where
  type       := setRegionType entry
  flags      := old.flags ||| regionFlagComplete
  base       := entry.phys
  limit      := u64 (entry.phys + entry.bytes)
  blockCount := blocksIn entry.bytes
  ordern     := countOrders (blocksIn entry.bytes) maxOrder
  order      := makeOrders (blocksIn entry.bytes) old.order

-- The allocations of the bootloader that lie in the new region are reserved.
def reserveAll (entry : MmapEntry) : List MmapEntry → Regions → Except Exit Regions
  | [],           s => .ok s
  | a :: amap, s => do
    if a.phys < entry.phys ∨ u64 (a.phys + a.bytes) > u64 (entry.phys + entry.bytes) then
      reserveAll entry amap s
    else
      let (_, s) ← allocPhysAddress a.phys a.bytes s
      reserveAll entry amap s

def createRegion (rn : Nat) (entry : MmapEntry) (amap : List MmapEntry) (s : Regions) :
    Except Exit Regions :=
  match s.region[rn]? with
  | none     => .error .fault
  | some old => reserveAll entry amap { s with region := s.region.set rn (fillRegion old entry) }

-- A region of the table as `memset` leaves it.
def zeroRegion : MemRegion where
  type       := 0
  flags      := 0
  base       := 0
  limit      := 0
  blockCount := 0
  ordern     := 0
  order      := List.replicate maxOrder { entryn := 0, used := 0, entry := [] }

end RoverOS.Pmm
