import RoverOS.Pmm.Basic

-- The accesses `order[o].entry[i]` of the functions on the bitmaps, in the order in which they are made.
-- What is behind the end of a bitmap is not known, so a function whose next step depends on it is
-- followed up to there.

namespace RoverOS.Pmm

-- The order, and the index of the word.
abbrev Access := Nat × Nat

def setChildrenAccesses (childBaseIdx childBaseBit i : Nat) : Nat → List Access
  | 0     => []
  | n + 1 =>
    let bit := orderGetParentBitLbit childBaseBit childBaseIdx
    (i, childBaseIdx) :: setChildrenAccesses (orderGetIdxFromBit bit) (bit % 64) (i + 1) n

def setParentsAccesses (r : MemRegion) (order idx bit : Nat) : Nat → List Access
  | 0     => []
  | n + 1 =>
    if (r.order[order]?.map (·.entryn)) = some 0 then []
    else
      let bit := u8 (orderGetParentBitLbit bit idx)
      (order, idx) :: setParentsAccesses r (order + 1) (orderGetIdxFromBit bit) (bit % 64) n

def setBitAccesses (r : MemRegion) (order idx bit : Nat) : List Access :=
  let childBaseBit := orderGetChildNum order bit
  let childBaseBit := if orderIsRightBlock childBaseBit then childBaseBit - 1 else childBaseBit
  let left := if orderIsRightBlock bit then bit - 1 else bit
  let parent := u8 (orderGetParentBitLbit left idx)
  setChildrenAccesses (orderGetIdxFromBit childBaseBit) (childBaseBit / 64) 0 order ++ (order, idx) ::
    setParentsAccesses r (order + 1) (orderGetIdxFromBit parent) (parent / 64) (r.ordern - (order + 1))

-- A word as it is after the bit of a block was cleared.
def clearedWord (r : MemRegion) (order idx bit : Nat) : Option Word :=
  (r.order[order]?.bind (·.entry[idx]?)).map (· &&& ~~~intBit bit)

def freeParentsAccesses (r : MemRegion) (order parentIdx parentBit : Nat) : Nat → List Access
  | 0     => []
  | n + 1 =>
    let parentBit := u8 (orderGetParentBitLbit parentBit parentIdx)
    let parentIdx := orderGetIdxFromBit parentBit
    let parentBit := parentBit % 64
    (order, parentIdx) :: match clearedWord r order parentIdx parentBit with
      | none   => []
      | some w =>
        if w &&& intBit (parentBit + 1) ≠ 0#64 then []
        else freeParentsAccesses r (order + 1) parentIdx parentBit n

def freeBitAccesses (r : MemRegion) (order idx bit : Nat) : List Access :=
  (order, idx) :: match clearedWord r order idx bit with
    | none   => []
    | some w =>
      if w &&& intBit (freeTest bit) ≠ 0#64 then []
      else freeParentsAccesses r (order + 1) (u8 idx) bit (maxOrder - (order + 1))

def findWordAccesses (order : Nat) (entry : List Word) (idx : Nat) : Nat → List Access
  | 0     => []
  | n + 1 =>
    (order, idx) :: match entry[idx]? with
      | none   => []
      | some w => if w = 0xFFFFFFFFFFFFFFFF then findWordAccesses order entry (idx + 1) n else []

def allocRegionAccesses (r : MemRegion) (order : Nat) : List Access :=
  match r.order[order]? with
  | none        => []
  | some morder =>
    if morder.used ≥ morder.entryn then []
    else
      findWordAccesses order morder.entry 0 ((morder.entryn + 63) / 64) ++
        match findWord morder.entry 0 ((morder.entryn + 63) / 64) with
        | .ok (some (idx, w)) =>
          setBitAccesses r order idx (findBit w 0 (min 64 (morder.entryn - idx * 64)))
        | _                   => []

def reserveBlocksAccesses (r : MemRegion) (ptr : Nat) : Nat → List Access
  | 0     => []
  | n + 1 =>
    let bit := orderAddressToBit ptr r.base
    setBitAccesses r 0 (u32 (orderGetIdxFromBit bit)) (bit % 64) ++
      reserveBlocksAccesses r (u64 (ptr + orderMinBlockSize)) n

end RoverOS.Pmm
