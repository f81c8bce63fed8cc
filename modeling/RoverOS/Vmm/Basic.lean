import RoverOS.Paging.Basic
import RoverOS.Bootloader.Mem

-- The virtual allocator, `vmm.c`, and the part of `paging.c` that fills the pool of frames for new
-- page tables. The two call each other, so the calls are bounded by fuel. At the end, what `initPMM` does
-- to the virtual memory before the first allocation.

namespace RoverOS.Vmm

open Paging

def vtypeHeap : Word := 1
def vtypeData : Word := 3

def vflagWrite  : Word := 1 <<< 0
def vflagExec   : Word := 1 <<< 1
def vflagUser   : Word := 1 <<< 2
def vflagUc     : Word := 1 <<< 3
def vflagMake   : Word := 1 <<< 4
def vflagWt     : Word := 1 <<< 5
def vflagKernel : Word := 1 <<< 6
def vflagWc     : Word := 1 <<< 7

def minAddrLow : Word := 0x100000

def memoryAllocationFailed : Word := 0xFFF

def formFlags (flags : Word) : Word :=
  (if Has flags vflagWrite then pageFlagWrite else 0#64)
    ||| (if Has flags vflagExec then pageFlagExecute else 0#64)
    ||| (if Has flags vflagUser then pageFlagUser else 0#64)
    ||| (if Has flags vflagUc then pageFlagUc else 0#64)
    ||| (if Has flags vflagMake then pageFlagMake else 0#64)
    ||| (if Has flags vflagWt then pageFlagWt else 0#64)
    ||| (if Has flags vflagWc then pageFlagWc else 0#64)

-- `heapEnd` is the address that the linker gives to `__heapEnd`.
def prefferedMinAddress (heapEnd mtype flags : Word) : Word :=
  if Has flags vflagKernel then
    if mtype = vtypeHeap then heapEnd else minAddrLow
  else minAddrLow

-- A number of pages as an offset: the product is computed in 32 bits.
def pageBytes (pages : Nat) : Word :=
  BitVec.ofNat 64 (u32 (pages * 0x1000))

def vmarkerEnd (vm : VMarker) : Word :=
  vm.base + pageBytes vm.pages

-- `uint32_t pages = bytes/PAGE_SZ; if(!pages){pages = 1;}`
def pagesFor (bytes : Nat) : Nat :=
  if u32 (bytes / 0x1000) = 0 then 1 else u32 (bytes / 0x1000)

-- The search of `allocMarker` for a gap, and the marker it makes with `mk` and links in.
def placeMarker (minAddr sz : Word) (mk : Word → VMarker) :
    VMarker → List VMarker → VMarker × List VMarker
  | head, [] =>
    let marker := mk (vmarkerEnd head)
    (marker, [head, marker])
  | head, n :: rest =>
    if minAddr < n.base ∨ head.base ≤ minAddr ∨ n.base - vmarkerEnd head < sz then
      let (marker, vmem) := placeMarker minAddr sz mk n rest
      (marker, head :: vmem)
    else
      let marker := mk (vmarkerEnd head + pageSz)
      (marker, head :: marker :: n :: rest)

-- `kcacheAlloc` gives a new `vMarker`; the list behind `head` comes back with it linked in.
def allocMarker (heapEnd : Word) (head : VMarker) (next : List VMarker) (bytes : Nat)
    (type flags : Word) : VMarker × List VMarker :=
  let pages := pagesFor bytes
  let minAddr := prefferedMinAddress heapEnd type flags
  placeMarker minAddr (pageBytes pages) (fun base => { base, pages, flags, type }) head next

-- Both callers of `allocPhys` stop the kernel when it fails.
def allocPhys (s : Vm) : Except Exit ((Word × Nat) × Vm) :=
  match s.blocks with
  | []              => .error .halt
  | block :: blocks => .ok (block, { s with blocks })

def framesFrom (phys : Word) (n : Nat) : List Word :=
  (List.range n).map fun i => phys + BitVec.ofNat 64 (i * 0x1000)

def pushFrames (frames : List Word) (stack : Dstack) : Except Exit Dstack :=
  frames.foldlM Dstack.pushStack stack

def extendStack (s : Vm) : Except Exit Vm := do
  let ((ptr, sz), s) ← allocPhys s
  let stack ← pushFrames (framesFrom ptr ((sz + 0xFFF) / 0x1000)) s.physStack
  return { s with physStack := stack }

def getPhysmem : Nat → Vm → Except Exit (Word × Vm)
  | 0,        _ => .error .halt
  | fuel + 1, s => do
    let (addr, stack) ← s.physStack.popStack
    match addr with
    | some addr => return (addr, { s with physStack := stack })
    | none      => getPhysmem fuel (← extendStack s)

section Allocate

variable (heapEnd : Word) (newPagetable : Vm → Except Exit (Word × Vm))

def vmallocPhys (phys : Word) (bytes : Nat) (type flags : Word) (s : Vm) :
    Except Exit (Word × Vm) :=
  match s.vmem with
  | []           => .error .refused
  | head :: next => do
    let (marker, vmem) := allocMarker heapEnd head next bytes type flags
    let virt := marker.base
    let s ← mapPages newPagetable s.space phys virt (formFlags flags) (pagesFor bytes) { s with vmem }
    return (virt, s)

-- `vmalloc` backs a marker with one page more than it reserves, and goes on after a page that
-- `mapPage` refuses.
def backPages (fuel : Nat) (virt flags : Word) (i : Nat) : Nat → Vm → Except Exit Vm
  | 0,     s => .ok s
  | n + 1, s => do
    let (phys, s) ← getPhysmem fuel s
    if phys = memoryAllocationFailed then .error .halt else
      match mapPage newPagetable s.space phys (virt + pageBytes i) (formFlags flags) s with
      | .ok s           => backPages fuel virt flags (i + 1) n s
      | .error .refused => backPages fuel virt flags (i + 1) n s
      | .error e        => .error e

def vmalloc (fuel : Nat) (bytes : Nat) (type flags : Word) (s : Vm) : Except Exit (Word × Vm) :=
  match s.vmem with
  | []           => .error .refused
  | head :: next => do
    let (marker, vmem) := allocMarker heapEnd head next bytes type flags
    let virt := marker.base
    let s ← backPages newPagetable fuel virt flags 0 (pagesFor bytes + 1) { s with vmem }
    return (virt, s)

-- The loop pushes the frame at `phys + sz` too.
def growPageStack (s : Vm) : Except Exit Vm := do
  let ((phys, sz), s) ← allocPhys s
  match vmallocPhys heapEnd newPagetable phys sz vtypeData (vflagMake ||| vflagWrite) s with
  | .error .refused => .error .halt
  | .error e        => .error e
  | .ok (v, s)      =>
    if v = 0#64 then .error .halt else do
      let stack ← pushFrames (framesFrom phys (sz / 0x1000 + 1)) s.pageFrames
      return { s with pageFrames := stack }

end Allocate

def fetchFrame (growPageStack : Vm → Except Exit Vm) : Nat → Vm → Except Exit (Word × Vm)
  | 0,        _ => .error .halt
  | fuel + 1, s => do
    let (frame, stack) ← s.pageFrames.popStack
    match frame with
    | some frame => return (frame, { s with pageFrames := stack })
    | none       => fetchFrame growPageStack fuel (← growPageStack s)

def newPagetable (heapEnd : Word) : Nat → Vm → Except Exit (Word × Vm)
  | 0,        _ => .error .halt
  | fuel + 1, s => do
    let grow := growPageStack heapEnd (newPagetable heapEnd fuel)
    let count ← s.pageFrames.stackCount
    let s ← (if count < 20 then grow s else .ok s)
    fetchFrame grow fuel s

-- `kmalloc` gives the memory of the `pageSpace`, or stops the kernel.
def createPagespace (newPagetable : Vm → Except Exit (Word × Vm)) (s : Vm) : Except Exit (PageSpace × Vm) := do
  let (pml4e, s) ← newPagetable s
  if pml4e = 0#64 then .error .halt else return (⟨pml4e⟩, s)

-- `createDstack(sizeof(uint64_t)*100)`
def pageFramesSize : Nat := 8 * 100

-- `cr3` is what the register still holds.
def initPaging (cr3 : Word) (s : Vm) : Except Exit Vm :=
  match Dstack.createDstack pageFramesSize with
  | none       => .error .halt
  | some stack => .ok { s with space := ⟨cr3⟩, pageFrames := stack }

-- The marker of `createFakeTask`, which leaves the type as it finds it.
def fakeMarker (type : Word) : VMarker :=
  { base := 0, pages := 1, flags := 0, type }

def createFakeTask (type : Word) (s : Vm) : Vm :=
  { s with vmem := [fakeMarker type] }

-- The tables are those that the bootloader has left in memory.
def takeOver (boot : Bootloader.Boot) (type : Word) (s : Vm) : Except Exit Vm :=
  initPaging boot.pml (createFakeTask type { s with tables := boot.tables })

end RoverOS.Vmm
