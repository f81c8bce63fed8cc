import RoverOS.Pmm.Basic

-- `initPMM`: three loops over the memory map that count the regions, create the first one and number
-- the others.

namespace RoverOS.Pmm

def mmapFlagParsed : Nat := 1 <<< 1

def isFree (e : MmapEntry) : Prop :=
  e.type = MmapEntry.typeFree

instance (e : MmapEntry) : Decidable (isFree e) :=
  inferInstanceAs (Decidable (_ = _))

def isParsed (e : MmapEntry) : Prop :=
  e.flags &&& mmapFlagParsed ≠ 0

instance (e : MmapEntry) : Decidable (isParsed e) :=
  inferInstanceAs (Decidable (_ ≠ _))

-- `regionCount`
def countRegions : List MmapEntry → Nat
  | []      => 0
  | e :: es =>
    if ¬isFree e then countRegions es
    else if e.bytes / orderMinBlockSize = 0 then countRegions es
    else countRegions es + 1

-- A call of `createRegion`: the number of the region, and the position of the entry in the map.
abbrev RegionCall := Nat × Nat

-- The first free entry above 1 MB. The number is that of the free entries up to this one.
def firstRegion (frn i : Nat) : List MmapEntry → Option RegionCall
  | []      => none
  | e :: es =>
    if ¬isFree e then firstRegion frn (i + 1) es
    else
      let frn := u32 (frn + 1)
      let rt := setRegionType e
      if rt ≠ memoryTypeLow ∧ rt ≠ memoryTypeHgh then firstRegion frn (i + 1) es
      else some (frn, i)

def markParsed (e : MmapEntry) : MmapEntry :=
  { e with flags := e.flags ||| mmapFlagParsed }

-- The last loop. `shouldInit` decides nothing, so the type that is read for it is left out.
def laterRegions (rn i : Nat) : List MmapEntry → List RegionCall
  | []      => []
  | e :: es =>
    if ¬isFree e then laterRegions rn (i + 1) es
    else if isParsed e then laterRegions rn (i + 1) es
    else (rn, i) :: laterRegions (u32 (rn + 1)) (i + 1) es

-- The entries when the last loop looks at them.
def entriesAfter (first : Option RegionCall) (entries : List MmapEntry) : List MmapEntry :=
  match first with
  | none        => entries
  | some (_, i) => entries.modify i markParsed

def regionCalls (entries : List MmapEntry) : List RegionCall :=
  let first := firstRegion 0 0 entries
  first.toList ++ laterRegions 0 0 (entriesAfter first entries)

def createRegions (entries amap : List MmapEntry) : List RegionCall → Regions → Except Exit Regions
  | [],               s => .ok s
  | (rn, i) :: calls, s =>
    match entries[i]? with
    | none   => .error .fault
    | some e => do
      let s ← createRegion rn e amap s
      createRegions entries amap calls s

structure PhysRequest where
  bytes : Nat
  type  : Nat
  flags : BitVec 16
  deriving DecidableEq, Repr

def allocAll : List PhysRequest → Regions → Except Exit Regions
  | [],      s => .ok s
  | r :: rs, s => do
    let (_, s) ← allocPhys r.bytes r.type r.flags s
    allocAll rs s

-- `initSLAB` and `initVmalloc` make the requests for memory. `kmalloc` is taken to have room for the
-- table.
def initPMM (entries amap : List MmapEntry) (requests : List PhysRequest) : Except Exit Regions := do
  let s : Regions := { region := List.replicate (countRegions entries) zeroRegion }
  let first := firstRegion 0 0 entries
  let s ← createRegions entries amap first.toList s
  let s ← allocAll requests s
  let entries := entriesAfter first entries
  createRegions entries amap (laterRegions 0 0 entries) s

end RoverOS.Pmm
