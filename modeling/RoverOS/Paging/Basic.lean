import RoverOS.Library.Radix
import RoverOS.Dstack.Basic

-- The kernel's page tables: `paging.h`, and the part of `paging.c` that does not fill its pool of
-- frames.

namespace RoverOS

-- An index into the 512 entries of a table.
abbrev Index := BitVec 9

structure PageSpace where
  pml4e : Word

structure VMarker where
  base  : Word
  pages : Nat -- `uint32_t`
  flags : Word
  type  : Word

-- The kernel's virtual memory: the page tables' memory (the entries of the frame at a page-aligned
-- address), the two stacks of frames, the current task's markers and space, and the blocks with
-- which the physical allocator will answer further requests.
structure Vm where
  tables     : Radix.Tables Word Index Word
  pageFrames : Dstack
  physStack  : Dstack
  vmem       : List VMarker
  space      : PageSpace
  blocks     : List (Word × Nat)

namespace Paging

def pgPresent : Word := 1 <<< 0
def pgWrite   : Word := 1 <<< 1
def pgUser    : Word := 1 <<< 2
def pgPwt     : Word := 1 <<< 3
def pgPcd     : Word := 1 <<< 4
def pgPat     : Word := 1 <<< 12
def pgNx      : Word := 1 <<< 63
def pgUc      : Word := pgPwt ||| pgPat ||| pgPcd
def pgWc      : Word := pgPwt
def pgWb      : Word := pgPat
def pgWp      : Word := 0#64
def pgWt      : Word := pgPat ||| pgPwt

def pageSz     : Word := 0x1000
def selectMask : Word := 0x1FF
def baseMask   : Word := 0x000FFFFFFFFFF000

def pmlEntry (vaddr : Word) : Index := ((vaddr >>> 39) &&& selectMask).setWidth 9
def pdpeEntry (vaddr : Word) : Index := ((vaddr >>> 30) &&& selectMask).setWidth 9
def pdeEntry (vaddr : Word) : Index := ((vaddr >>> 21) &&& selectMask).setWidth 9
def pteEntry (vaddr : Word) : Index := ((vaddr >>> 12) &&& selectMask).setWidth 9

def tableBase (entry : Word) : Word := entry &&& baseMask

def isUnaligned (addr : Word) : Word := addr &&& 0xFFF

def pageFlagUc      : Word := 1 <<< 0
def pageFlagWc      : Word := 1 <<< 1
def pageFlagWb      : Word := 1 <<< 2
def pageFlagWp      : Word := 1 <<< 3
def pageFlagWt      : Word := 1 <<< 4
def pageFlagWrite   : Word := 1 <<< 5
def pageFlagUser    : Word := 1 <<< 6
def pageFlagExecute : Word := 1 <<< 7
def pageFlagMake    : Word := 1 <<< 8

-- `flags & flag`, as the condition of an `if`.
abbrev Has (flags flag : Word) : Prop := flags &&& flag ≠ 0#64

-- The flags that all four levels get.
def tableFlags (flags : Word) : Word :=
  if Has flags pageFlagWrite then pgPresent ||| pgWrite else pgPresent

-- The cache type: the first of the five flags that is set decides.
def cacheFlags (flags : Word) : Word :=
  if Has flags 0x1F then
    if Has flags pageFlagUc then pgUc
    else if Has flags pageFlagWc then pgWc
    else if Has flags pageFlagWb then pgWb
    else if Has flags pageFlagWp then pgWp
    else if Has flags pageFlagWt then pgWt
    else 0#64
  else 0#64

-- `pgflags` at the end of `mapPage`.
def pgflags (flags : Word) : Word :=
  tableFlags flags
    ||| (if Has flags pageFlagUser then pgUser else 0#64)
    ||| (if Has flags pageFlagExecute then 0#64 else pgNx)
    ||| cacheFlags flags

end Paging

namespace Vm

def setEntry (s : Vm) (tbl : Word) (n : Index) (entry : Word) : Vm :=
  { s with tables := s.tables.set tbl n entry }

def orEntry (s : Vm) (tbl : Word) (n : Index) (bits : Word) : Vm :=
  s.setEntry tbl n (s.tables tbl n ||| bits)

variable {s : Vm} {tbl e bits : Word} {n : Index}

@[simp]
theorem setEntry_tables : (s.setEntry tbl n e).tables = s.tables.set tbl n e :=
  rfl

@[simp]
theorem orEntry_tables :
    (s.orEntry tbl n bits).tables = s.tables.set tbl n (s.tables tbl n ||| bits) :=
  rfl

@[simp]
theorem setEntry_pageFrames : (s.setEntry tbl n e).pageFrames = s.pageFrames :=
  rfl

@[simp]
theorem orEntry_pageFrames : (s.orEntry tbl n bits).pageFrames = s.pageFrames :=
  rfl

end Vm

namespace Paging

-- `if(TABLE_BASE(tbl[n]) == 0x0){if(!make){return false;} tbl[n] |= newPagetable();}`. C does not
-- say whether `tbl[n]` is read before or after the call, so the call must not have changed it.
def linkTable (newPagetable : Vm → Except Exit (Word × Vm)) (make : Prop) [Decidable make]
    (tbl : Word) (n : Index) (s : Vm) : Except Exit Vm :=
  if tableBase (s.tables tbl n) = 0#64 then
    if make then do
      let (frame, s') ← newPagetable s
      if s'.tables tbl n = s.tables tbl n then .ok (s'.orEntry tbl n frame) else .error .unsequenced
    else .error .refused
  else .ok s

-- The frames of new tables come from `newPagetable`, which calls back to `mapPage` when its pool
-- runs low (see `Vmm`).
def mapPage (newPagetable : Vm → Except Exit (Word × Vm)) (space : PageSpace)
    (phys virt flags : Word) (s : Vm) : Except Exit Vm :=
  if isUnaligned phys ≠ 0#64 ∨ isUnaligned virt ≠ 0#64 then .error .refused else do
    let make := Has flags pageFlagMake
    let pmln := pmlEntry virt
    let s ← linkTable newPagetable make space.pml4e pmln s
    let pdpe := tableBase (s.tables space.pml4e pmln)
    let pdpen := pdpeEntry virt
    let s ← linkTable newPagetable make pdpe pdpen s
    let pde := tableBase (s.tables pdpe pdpen)
    let pden := pdeEntry virt
    let s ← linkTable newPagetable make pde pden s
    let pte := tableBase (s.tables pde pden)
    let s := s.orEntry space.pml4e pmln (tableFlags flags)
    let s := s.orEntry pdpe pdpen (tableFlags flags)
    let s := s.orEntry pde pden (tableFlags flags)
    return s.setEntry pte (pteEntry virt) (pgflags flags ||| phys)

-- A page that is refused stops the kernel when it had to be made, and is skipped otherwise.
def mapPages (newPagetable : Vm → Except Exit (Word × Vm)) (space : PageSpace)
    (phys virt flags : Word) (pages : Nat) (s : Vm) : Except Exit Vm :=
  if isUnaligned phys ≠ 0#64 ∨ isUnaligned virt ≠ 0#64 then .ok s else go 0 pages s
where
  go (b : Nat) : Nat → Vm → Except Exit Vm
    | 0,     s => .ok s
    | n + 1, s =>
      let off := BitVec.ofNat 64 (u32 (b * 0x1000))
      match mapPage newPagetable space (phys + off) (virt + off) flags s with
      | .ok s           => go (b + 1) n s
      | .error .refused => if Has flags pageFlagMake then .error .halt else go (b + 1) n s
      | .error e        => .error e

def virtToPhysInt (s : Vm) (space : PageSpace) (virt : Word) : Word :=
  let pdpe := tableBase (s.tables space.pml4e (pmlEntry virt))
  if pdpe = 0#64 then 0#64 else
    let pde := tableBase (s.tables pdpe (pdpeEntry virt))
    if pde = 0#64 then 0#64 else
      let pt := tableBase (s.tables pde (pdeEntry virt))
      if pt = 0#64 then 0#64 else tableBase (s.tables pt (pteEntry virt))

-- The leaf entry for `virt`; the printing that `print` asks for is left out.
def getPageInfo (s : Vm) (cr3 virt : Word) : Word :=
  let pdpe := tableBase (s.tables cr3 (pmlEntry virt))
  if pdpe = 0#64 then 0#64 else
    let pde := tableBase (s.tables pdpe (pdpeEntry virt))
    if pde = 0#64 then 0#64 else
      let pte := tableBase (s.tables pde (pdeEntry virt))
      if pte = 0#64 then 0#64 else s.tables pte (pteEntry virt)

end Paging
end RoverOS
