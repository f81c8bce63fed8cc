import RoverOS.Kernel.Theorems.Chain

-- The chain of calls below `kmallocInt` would come back to the heap through a new slab of the marker
-- cache, or through a full stack, but both ways stop at another lock before.

namespace RoverOS.Kernel

open Paging
open Vmm (formFlags pageBytes pagesFor framesFrom)

-- The call does not stop at `kmallocLock`, and `P` holds of what it returns.
def Safe {α : Type} (P : α → Prop) : Except Stop α → Prop
  | .ok a    => P a
  | .error e => e ≠ .reentered

section Safe

variable {α β : Type} {P : α → Prop} {Q : β → Prop}

theorem Safe.bind {x : Except Stop α} {f : α → Except Stop β} (hx : Safe P x)
    (hf : ∀ a, P a → Safe Q (f a)) : Safe Q (x >>= f) := by
  cases x
  case error => exact hx
  case ok a  => exact hf a hx

theorem Safe.lift (x : Except Exit α) : Safe (x = .ok ·) (lift x) := by
  cases x
  case error => simp [Kernel.lift, Except.mapError, Safe]
  case ok    => rfl

-- The calls that do not look at the lock or at the marker cache.
theorem Safe.lift_bind {x : Except Exit α} {f : α → Except Stop β} (hf : ∀ a, Safe Q (f a)) :
    Safe Q (Kernel.lift x >>= f) :=
  (Safe.lift x).bind fun a _ => hf a

theorem Safe.not_reentered {x : Except Stop α} (hx : Safe P x) : x ≠ .error .reentered := by
  rintro rfl
  exact hx rfl

theorem Safe.of_ok {x : Except Stop α} {a : α} (hx : Safe P x) (h : x = .ok a) : P a := by
  subst h
  exact hx

theorem Ends.safe {P' : α → Prop} {x : Except Stop α} (hx : Ends (· ≠ .reentered) P x)
    (h : ∀ a, P a → P' a) : Safe P' x := by
  cases x
  case error => exact hx
  case ok a  => exact h a hx

theorem Safe.ends {P' : α → Prop} {x : Except Stop α} (hx : Safe P x) (h : ∀ a, P a → P' a) :
    Ends (· ≠ .reentered) P' x := by
  cases x
  case error => exact hx
  case ok a  => exact h a hx

theorem exit_ne_reentered (e : Exit) : Stop.exit e ≠ .reentered :=
  nofun

end Safe

-- `kmallocLock` is held, and the marker cache has the flags `F`.
structure Held (F : Word) (k : Kernel) : Prop where
  lock  : k.kmallocLock = true
  flags : k.markerCache.flags = F

theorem held_iff {F : Word} {k : Kernel} :
    Held F k ↔ On (fun lock cache => lock = true ∧ cache.flags = F) k :=
  ⟨fun h => ⟨h.lock, h.flags⟩, fun h => ⟨h.1, h.2⟩⟩

-- What the chain needs of `vmallocPhys`: with the lock of the marker cache it gives nothing.
structure Callees.Chained (F : Word) (c : Callees) : Prop where
  blocked {phys : Word} {bytes : Nat} {type flags : Word} {k : Kernel} :
    k.markerCache.lock = true →
    Safe (· = (0#64, k)) (c.vmallocPhys phys bytes type flags k)
  kept {phys : Word} {bytes : Nat} {type flags : Word} {k : Kernel} :
    Held F k → Safe (Held F ·.2) (c.vmallocPhys phys bytes type flags k)

section Chain

variable {F : Word} {heapEnd : Word} {memcpy : Bytes.Memory → Nat → Nat → Nat → Bytes.Memory}
variable {fuel : Nat} {c : Callees} {k : Kernel}

section MarkerCache

-- Mapping the new slab needs a marker, and the cache of these is locked.
theorem newSlabPhys_safe (hc : c.Chained F) (hF : F &&& Kcache.flagNoMap = 0#64) {phys sz : Nat}
    (h : Held F k) (hl : k.markerCache.lock = true) :
    Safe (fun r => r.1 = none ∧ Held F r.2) (newSlabPhys c phys sz k) := by
  have hm : ¬k.markerCache.NoMap := by simp [Kcache.NoMap, h.flags, hF]
  simp only [newSlabPhys, hm, if_false]
  apply (hc.blocked hl).bind
  intro _ hr
  subst hr
  exact ⟨rfl, h⟩

theorem newSlab_safe (hc : c.Chained F) (hF : F &&& Kcache.flagNoMap = 0#64) {count : Nat}
    (h : Held F k) (hl : k.markerCache.lock = true) :
    Safe (fun r => r.1 = none ∧ Held F r.2) (newSlab fuel c count k) := by
  apply ((allocPhys_ends exit_ne_reentered (held_iff.1 h)).safe fun _ h => h).bind
  rintro ⟨⟨phys, sz⟩, k⟩ ⟨h, hm⟩
  replace h := held_iff.2 h
  dsimp only at h hm ⊢
  split
  case isTrue => exact ⟨rfl, h⟩
  case isFalse =>
    apply (newSlabPhys_safe hc hF h (hm ▸ hl)).bind
    rintro ⟨slab, k⟩ ⟨hn, h⟩
    subst hn
    apply Safe.lift_bind
    intro _
    exact ⟨rfl, h.lock, h.flags⟩

theorem kcacheAlloc_safe (hc : c.Chained F) (hF : F &&& Kcache.flagNoMap = 0#64) (h : Held F k) :
    Safe (Held F ·.2) (kcacheAlloc fuel c k) := by
  apply Safe.lift_bind
  intro _
  apply Safe.lift_bind
  intro chosen
  cases chosen
  case some chosen => exact ⟨h.lock, h.flags⟩
  case none =>
    have h' : Held F { k with markerCache := { k.markerCache with lock := true } } := ⟨h.lock, h.flags⟩
    dsimp only
    apply (newSlab_safe hc hF h' rfl).bind
    rintro ⟨slab, k⟩ ⟨hn, h⟩
    subst hn
    exact ⟨h.lock, h.flags⟩

-- Without a lock for it there is no marker.
theorem kcacheAlloc_stops (h : k.markerCache.lock = true) :
    kcacheAlloc fuel c k = .error (.exit .halt) := by
  simp [kcacheAlloc, h, getLock, lift, Except.mapError, bind, Except.bind]

theorem Callees.Chained.keeps (hc : c.Chained F) (hF : F &&& Kcache.flagNoMap = 0#64) :
    c.Keeps (· ≠ .reentered) (fun lock cache => lock = true ∧ cache.flags = F) fuel where
  exit          := exit_ne_reentered
  vmallocPhys h := (hc.kept (held_iff.2 h)).ends fun _ => held_iff.1
  kcacheAlloc h := (kcacheAlloc_safe hc hF (held_iff.2 h)).ends fun _ => held_iff.1

end MarkerCache

theorem vmallocPhys_safe (hc : c.Chained F) (hF : F &&& Kcache.flagNoMap = 0#64) (h : Held F k)
    {phys : Word} {bytes : Nat} {type flags : Word} :
    Safe (Held F ·.2) (vmallocPhys heapEnd fuel c phys bytes type flags k) :=
  (vmallocPhys_ends (hc.keeps hF) (held_iff.1 h)).safe fun _ => held_iff.2

theorem vmallocPhys_blocked (h : k.markerCache.lock = true) {phys : Word} {bytes : Nat}
    {type flags : Word} :
    Safe (· = (0#64, k)) (vmallocPhys heapEnd fuel c phys bytes type flags k) := by
  unfold vmallocPhys
  split
  case h_1 => exact rfl
  case h_2 => simp [allocMarker, kcacheAlloc_stops h, bind, Except.bind, Safe]

theorem callees_chained (hF : F &&& Kcache.flagNoMap = 0#64) (n : Nat) :
    (callees heapEnd memcpy fuel n).Chained F := by
  induction n
  case zero => constructor <;> simp [callees, Safe]
  case succ n hi => exact ⟨fun h => vmallocPhys_blocked h, fun h => vmallocPhys_safe hi hF h⟩

section Requests

abbrev SameFlags (k k' : Kernel) : Prop :=
  k'.markerCache.flags = k.markerCache.flags

theorem run_safe (hF : k.markerCache.flags &&& Kcache.flagNoMap = 0#64) (hl : k.kmallocLock = false)
    (n : Nat) (r : Request) : Safe (SameFlags k) (run heapEnd memcpy fuel n k r) := by
  have hc := @Callees.Chained.keeps _ fuel _ (@callees_chained _ heapEnd memcpy fuel hF n) hF
  have hr : k.kmallocLock = true → Stop.reentered ≠ .reentered := by simp [hl]
  exact (run_ends hc (fun h => ⟨rfl, h.2⟩) hr ⟨rfl, rfl⟩ r).safe fun _ h => h.2

theorem run_held (hl : k.kmallocLock = true) (n : Nat) (r : Request) :
    run heapEnd memcpy fuel n k r = .error .reentered := by
  cases r <;> simp [run, kmallocWrapper, kfree, krealloc, getKmallocLock, hl, bind, Except.bind]

end Requests
end Chain

-- The states that the kernel can get into. Nothing is asked of the heap, the stacks, the tables and
-- the marker cache's slabs, and other code may change them. The flags of the marker cache are those
-- of `createVMarkerCache(..., 0, 0, ...)`; only `fillCacheDetails` ever sets them.
inductive Reachable : Kernel → Prop
  | boot {k : Kernel} {objSize ptr : Nat} :
    k.markerCache = Kcache.createVMarkerCache objSize 0 0 ptr → Reachable k
  | request {k k' : Kernel} {heapEnd : Word} {memcpy : Bytes.Memory → Nat → Nat → Nat → Bytes.Memory}
    {fuel n : Nat} {r : Request} :
    Reachable k → run heapEnd memcpy fuel n k r = .ok k' → Reachable k'
  | elsewhere {k k' : Kernel} :
    Reachable k → k'.markerCache.flags = k.markerCache.flags → Reachable k'

theorem Reachable.flags {k : Kernel} (hk : Reachable k) : k.markerCache.flags = 0#64 := by
  induction hk
  case boot h => rw [h]; rfl
  case request k k' heapEnd memcpy fuel n r _ h hi =>
    cases hl : k.kmallocLock
    case true =>
      rw [run_held hl] at h
      cases h
    case false =>
      have hs := @run_safe heapEnd memcpy fuel k (by rw [hi]; rfl) hl n r
      exact (hs.of_ok h).trans hi
  case elsewhere h hi => exact h.trans hi

-- Whatever a request does while it has the lock, it does not ask for the lock a second time.
theorem heapLock_never_reentered {k : Kernel} (hk : Reachable k) (hl : k.kmallocLock = false)
    (heapEnd : Word) (memcpy : Bytes.Memory → Nat → Nat → Nat → Bytes.Memory) (fuel n : Nat)
    (r : Request) : run heapEnd memcpy fuel n k r ≠ .error .reentered := by
  apply Safe.not_reentered (run_safe _ hl n r)
  rw [hk.flags]
  rfl

-- The first block of the heap is at 0x1000 and has `sz` bytes and nothing behind it.
def oneBlockHeap (sz : Nat) : Kheap :=
  let m := Kheap.setMagic (fun _ => 0#8) 0x1000 Kheap.kheapMagic
  { mem := Kheap.setRedzone (Kheap.setAllocated m 0x1000 sz) 0x1000, startBlock := 0x1000 }

-- The stacks are still empty, and so are the tables.
def bootKernel (heap : Kheap) : Kernel where
  heap        := heap
  kmallocLock := false
  pmm         := { region := [] }
  tables      := fun _ _ => 0#64
  pageFrames  := { items := [], maxSize := 160 }
  physStack   := { items := [], maxSize := 800 }
  pageBase    := 0x2000
  physBase    := 0x3000
  vmem        := [⟨0#64, 1, 0#64, 0#64⟩]
  space       := ⟨0x4000#64⟩
  markerCache := Kcache.createVMarkerCache 32 0 0 0x5000

-- The region and the stack of page frames have room for the pages of a request.
def regionKernel : Kernel :=
  { bootKernel (oneBlockHeap 8) with
    pmm        := { region := [Pmm.fillRegion Pmm.zeroRegion
      { magic := 0, flags := 0, type := 1, phys := 0x100000, virt := 0, bytes := 0x40000 }] }
    pageFrames := { items := Vmm.framesFrom 0x200000 24, maxSize := 800 }
    vmem       := [⟨0#64, 16, 0#64, 0#64⟩] }

-- The request needs more than the heap has, so it maps a chunk at 0x10000 behind the first block.
theorem heapLock_never_reentered_boot :
    (run 0x6000#64 (fun m _ _ _ => m) 10 10 regionKernel (.kmalloc 64 false)).map
        (fun k => (Kheap.next k.heap.mem 0x1000, k.physStack.items.length)) = .ok (0x10000, 26) ∧
      run 0x6000#64 (fun m _ _ _ => m) 10 10 regionKernel (.kmalloc 64 false) ≠ .error .reentered := by
  have hk : Reachable regionKernel := .boot rfl
  constructor
  case left  => rfl
  case right => exact heapLock_never_reentered hk rfl _ _ _ _ _

end RoverOS.Kernel
