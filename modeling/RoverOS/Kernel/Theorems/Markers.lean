import RoverOS.Kcache.Theorems.Buffers
import RoverOS.Kernel.Theorems.Reenter

-- The markers come from the slab that the marker cache was created with. After half of its buffers the
-- cache gives no marker, and it does not get a second slab either.

namespace RoverOS.Kernel

open Bytes (Memory)
open Paging
open Pmm (intBit)
open Vmm (formFlags)

section Slab

-- A word of which `r` buffers were given away. The last of them takes the rest of the word with it.
def fill (r : Nat) : Word :=
  if r < 32 then BitVec.ofNat 64 (2 ^ r - 1) else BitVec.allOnes 64

def markerBitmap (m : Nat) : List Word :=
  [fill (min m 32), fill (m - 32)]

-- The slab that `createVMarkerCache` carves out of the page at `ptr`, after `m` markers.
def markerSlab (ptr m : Nat) : Kslab where
  references  := m
  size        := 0x1000
  bufferCount := 128
  phys        := 0
  virt        := ptr
  bitmap      := markerBitmap m
  lock        := false

def markerCacheAt (ptr m : Nat) : Kcache where
  flags   := 0#64
  objSize := 32
  type    := 0
  slabs   := [markerSlab ptr m]
  lock    := false

-- Where the `m`th marker is.
def place (m : Nat) : Nat :=
  if m < 32 then m else m + 32

variable {ptr m : Nat}

theorem ok_of_toOption {ε α : Type} {x : Except ε α} {a : α} (h : x.toOption = some a) : x = .ok a := by
  cases x
  case error => cases h
  case ok    => cases h; rfl

theorem findBuffer_markerBitmap (hm : m < 64) :
    Kcache.findBuffer (markerBitmap m) 0 0 128 = .ok (some (place m / 64, place m % 64)) := by
  have h : ∀ m < 64, (Kcache.findBuffer (markerBitmap m) 0 0 128).toOption =
      some (some (place m / 64, place m % 64)) := by decide +kernel
  exact ok_of_toOption (h m hm)

-- Each of the 128 buffers seems to be in use.
theorem findBuffer_markerBitmap_full : Kcache.findBuffer (markerBitmap 64) 0 0 128 = .ok none := by
  apply ok_of_toOption
  decide +kernel

theorem markerBitmap_succ (hm : m < 64) :
    (markerBitmap m).modify (place m / 64) (· ||| intBit (place m % 64)) = markerBitmap (m + 1) := by
  have h : ∀ m < 64, (markerBitmap m).modify (place m / 64) (· ||| intBit (place m % 64)) =
      markerBitmap (m + 1) := by decide +kernel
  exact h m hm

theorem allocateBuffer_markerSlab (hm : m < 64) :
    ∃ p, Kcache.allocateBuffer 32 (markerSlab ptr m) = .ok (some p, markerSlab ptr (m + 1)) := by
  have hu : u16 (m + 1) = m + 1 := Nat.mod_eq_of_lt (by omega)
  have hne : 128 ≠ m := by omega
  simp only [Kcache.allocateBuffer, markerSlab, getLock, findBuffer_markerBitmap hm, markerBitmap_succ hm, hu,
    if_neg hne, bind, Except.bind, pure, Except.pure, Bool.false_eq_true, if_false]
  exact ⟨_, rfl⟩

theorem allocateBuffer_markerSlab_full :
    Kcache.allocateBuffer 32 (markerSlab ptr 64) = .ok (none, markerSlab ptr 64) := by
  simp [Kcache.allocateBuffer, markerSlab, getLock, findBuffer_markerBitmap_full, bind, Except.bind, pure,
    Except.pure]

theorem hasRoom_markerSlab (hm : m ≤ 64) : Kcache.HasRoom (markerSlab ptr m) := by
  show m < 128
  omega

end Slab

section Alloc

variable {fuel : Nat} {c : Callees} {k : Kernel} {ptr m : Nat}

theorem kcacheAlloc_markerCache (hk : k.markerCache = markerCacheAt ptr m) (hm : m < 64) :
    ∃ p, kcacheAlloc fuel c k = .ok (some p, { k with markerCache := markerCacheAt ptr (m + 1) }) := by
  obtain ⟨p, hp⟩ := @allocateBuffer_markerSlab ptr m hm
  refine ⟨p, ?_⟩
  simp [kcacheAlloc, hk, markerCacheAt, getLock, Kcache.allocChosen, hasRoom_markerSlab (Nat.le_of_lt hm), hp, lift,
    Except.mapError, bind, Except.bind, pure, Except.pure]

-- The slab still counts 64 buffers more than it has given away, so that no other slab is asked for.
theorem kcacheAlloc_markerCache_full (hk : k.markerCache = markerCacheAt ptr 64) :
    kcacheAlloc fuel c k = .ok (none, k) := by
  have hr : Kcache.HasRoom (markerSlab ptr 64) := hasRoom_markerSlab (Nat.le_refl _)
  have hs : { k with markerCache := markerCacheAt ptr 64 } = k := by rw [← hk]
  rw [← hs]
  simp [kcacheAlloc, markerCacheAt, getLock, Kcache.allocChosen, hr, allocateBuffer_markerSlab_full, lift,
    Except.mapError, bind, Except.bind, pure, Except.pure]

theorem createVMarkerCache_markerCacheAt : Kcache.createVMarkerCache 32 0 0 ptr = markerCacheAt ptr 0 := by
  rfl

end Alloc

def usedMarkers (k : Kernel) : Nat :=
  (k.markerCache.slabs.map Kslab.references).sum

-- `allocMarker` returns, the cache needs nothing of `vmallocPhys` for it, and without a marker the list
-- stays as it is.
structure MarkersSafe (k : Kernel) : Prop where
  returns (heapEnd : Word) (fuel : Nat) (c : Callees) (head : VMarker) (next : List VMarker) (bytes : Nat)
    (type flags : Word) : ∃ r, allocMarker heapEnd fuel c head next bytes type flags k = .ok r
  unaided (fuel : Nat) (c : Callees) : ∃ r, kcacheAlloc fuel c k = .ok r
  list (fuel : Nat) (c : Callees) (k' : Kernel) : kcacheAlloc fuel c k = .ok (none, k') → k'.vmem = k.vmem

-- The kernel after so many calls of `vmalloc` and `vmallocPhys` in a task with markers; in another
-- task they return at once. Nothing else touches the marker cache, other than the heap through them.
inductive MarkerRun : Nat → Kernel → Prop
  | boot {k : Kernel} {ptr : Nat} : k.markerCache = Kcache.createVMarkerCache 32 0 0 ptr → MarkerRun 0 k
  | vmalloc {calls : Nat} {k k' : Kernel} {heapEnd : Word} {memcpy : Memory → Nat → Nat → Nat → Memory}
    {fuel n bytes : Nat} {type flags virt : Word} :
    MarkerRun calls k → k.vmem ≠ [] →
    vmalloc heapEnd fuel (callees heapEnd memcpy fuel n) bytes type flags k = .ok (virt, k') →
    MarkerRun (calls + 1) k'
  | vmallocPhys {calls : Nat} {k k' : Kernel} {heapEnd : Word} {memcpy : Memory → Nat → Nat → Nat → Memory}
    {fuel n bytes : Nat} {phys type flags virt : Word} :
    MarkerRun calls k → k.vmem ≠ [] →
    vmallocPhys heapEnd fuel (callees heapEnd memcpy fuel n) phys bytes type flags k = .ok (virt, k') →
    MarkerRun (calls + 1) k'
  | request {calls : Nat} {k k' : Kernel} {heapEnd : Word} {memcpy : Memory → Nat → Nat → Nat → Memory}
    {fuel n : Nat} {r : Request} :
    MarkerRun calls k → run heapEnd memcpy fuel n k r = .ok k' → MarkerRun calls k'
  | elsewhere {calls : Nat} {k k' : Kernel} :
    MarkerRun calls k → k'.markerCache = k.markerCache → MarkerRun calls k'

section Run

variable {heapEnd : Word} {memcpy : Memory → Nat → Nat → Nat → Memory} {fuel n used calls bytes : Nat}
variable {c : Callees} {k k' : Kernel} {type flags : Word}

-- The cache has its first slab only, of which it has given away `used` markers or more.
def OneSlab (used : Nat) (_ : Bool) (cache : Kcache) : Prop :=
  ∃ ptr m, used ≤ m ∧ m ≤ 64 ∧ cache = markerCacheAt ptr m

theorem OneSlab.kcacheAlloc (h : On (OneSlab used) k) :
    Ends (fun _ => True) (fun r => On (OneSlab used) r.2 ∧ (r.1 ≠ none → On (OneSlab (used + 1)) r.2))
      (kcacheAlloc fuel c k) := by
  obtain ⟨ptr, m, hu, hm, hk⟩ := h
  cases Nat.eq_or_lt_of_le hm
  case inl he =>
    subst he
    rw [kcacheAlloc_markerCache_full hk]
    exact ⟨⟨ptr, 64, hu, hm, hk⟩, fun h => absurd rfl h⟩
  case inr hlt =>
    obtain ⟨p, hp⟩ := @kcacheAlloc_markerCache fuel c k ptr m hk hlt
    rw [hp]
    exact ⟨⟨ptr, m + 1, by omega, hlt, rfl⟩, fun _ => ⟨ptr, m + 1, by omega, hlt, rfl⟩⟩

-- A call of `allocMarker` that comes back has used a marker.
theorem OneSlab.allocMarker (h : On (OneSlab used) k) {head : VMarker} {next : List VMarker} :
    Ends (fun _ => True) (On (OneSlab (used + 1)) ·.2)
      (allocMarker heapEnd fuel c head next bytes type flags k) := by
  apply h.kcacheAlloc.bind
  rintro ⟨ptr, k⟩ ⟨-, h⟩
  cases ptr
  case none   => trivial
  case some _ => exact h nofun

theorem OneSlab.keeps (hv : ∀ {k phys bytes type flags}, On (OneSlab used) k →
    Ends (fun _ => True) (On (OneSlab used) ·.2) (c.vmallocPhys phys bytes type flags k)) :
    c.Keeps (fun _ => True) (OneSlab used) fuel where
  exit _        := trivial
  vmallocPhys   := hv
  kcacheAlloc h := h.kcacheAlloc.mono fun _ => And.left

theorem callees_keeps (n : Nat) : (callees heapEnd memcpy fuel n).Keeps (fun _ => True) (OneSlab used) fuel := by
  induction n
  case zero      => exact OneSlab.keeps fun _ => trivial
  case succ n hi => exact OneSlab.keeps fun h => vmallocPhys_ends hi h

theorem OneSlab.vmalloc (h : On (OneSlab used) k) (hv : k.vmem ≠ []) (n : Nat) :
    Ends (fun _ => True) (On (OneSlab (used + 1)) ·.2)
      (vmalloc heapEnd fuel (callees heapEnd memcpy fuel n) bytes type flags k) := by
  unfold Kernel.vmalloc
  split
  case h_1 hn => exact absurd hn hv
  case h_2 =>
    apply h.allocMarker.bind
    rintro ⟨marker, k⟩ h
    apply (backPages_ends (callees_keeps n) h).bind
    intro k h
    exact h

theorem OneSlab.vmallocPhys (h : On (OneSlab used) k) (hv : k.vmem ≠ []) (n : Nat) {phys : Word} :
    Ends (fun _ => True) (On (OneSlab (used + 1)) ·.2)
      (vmallocPhys heapEnd fuel (callees heapEnd memcpy fuel n) phys bytes type flags k) := by
  unfold Kernel.vmallocPhys
  split
  case h_1 hn => exact absurd hn hv
  case h_2 =>
    apply h.allocMarker.bind
    rintro ⟨marker, k⟩ h
    apply (mapPages_ends (callees_keeps n) h).bind
    intro k h
    exact h

-- Every call has used a marker, and the heap may have used more.
theorem MarkerRun.oneSlab (hk : MarkerRun calls k) : On (OneSlab calls) k := by
  induction hk
  case boot ptr h => exact ⟨ptr, 0, Nat.le_refl _, Nat.zero_le _, h.trans createVMarkerCache_markerCacheAt⟩
  case vmalloc n _ _ _ _ _ hv h hi => exact (hi.vmalloc hv n).of_ok h
  case vmallocPhys n _ _ _ _ _ _ hv h hi => exact (hi.vmallocPhys hv n).of_ok h
  case request n r _ h hi =>
    exact (run_ends (J := OneSlab _) (callees_keeps n) (fun h => h) (fun _ => trivial) hi r).of_ok h
  case elsewhere _ h hi =>
    rw [On, h]
    exact hi

theorem MarkerRun.calls_le (hk : MarkerRun calls k) : calls ≤ usedMarkers k ∧ usedMarkers k ≤ 64 := by
  obtain ⟨ptr, m, hu, hm, hk⟩ := hk.oneSlab
  simpa [usedMarkers, hk, markerCacheAt, markerSlab] using ⟨hu, hm⟩

theorem MarkersSafe.of_lt {ptr m : Nat} (hk : k.markerCache = markerCacheAt ptr m) (hm : m < 64) : MarkersSafe k where
  returns heapEnd fuel c head next bytes type flags := by
    obtain ⟨p, hp⟩ := @kcacheAlloc_markerCache fuel c k ptr m hk hm
    exact ⟨_, by rw [allocMarker, hp]; rfl⟩
  unaided fuel c := by
    obtain ⟨p, hp⟩ := @kcacheAlloc_markerCache fuel c k ptr m hk hm
    exact ⟨_, hp⟩
  list fuel c k' h := by
    obtain ⟨p, hp⟩ := @kcacheAlloc_markerCache fuel c k ptr m hk hm
    cases hp.symm.trans h

-- The call that finds no buffer writes to the marker at `NULL`.
theorem allocMarker_faults {ptr : Nat} (hk : k.markerCache = markerCacheAt ptr 64) {head : VMarker}
    {next : List VMarker} : allocMarker heapEnd fuel c head next bytes type flags k = .error (.exit .fault) := by
  rw [allocMarker, kcacheAlloc_markerCache_full hk]
  rfl

theorem markersSafe_iff (hk : MarkerRun calls k) : MarkersSafe k ↔ usedMarkers k < 64 := by
  obtain ⟨ptr, m, -, hm, hk⟩ := hk.oneSlab
  have hu : usedMarkers k = m := by simp [usedMarkers, hk, markerCacheAt, markerSlab]
  rw [hu]
  constructor
  case mpr => exact .of_lt hk
  case mp =>
    intro hs
    apply Nat.lt_of_le_of_ne hm
    rintro rfl
    obtain ⟨r, hr⟩ := hs.returns 0#64 0 (callees 0#64 (fun m _ _ _ => m) 0 0) ⟨0#64, 0, 0#64, 0#64⟩ [] 0 0#64 0#64
    rw [allocMarker_faults hk] at hr
    cases hr

end Run

section Example

-- There are no tables, and none are made.
theorem mapPages_blank {fuel : Nat} {c : Callees} {k : Kernel} {phys virt : Word} (ht : ∀ tbl n, k.tables tbl n = 0#64) :
    mapPages fuel c phys virt (formFlags 0#64) 1 k = .ok k := by
  have hp (phys virt : Word) : mapPage fuel c phys virt (formFlags 0#64) k = .error (.exit .refused) := by
    unfold mapPage
    split
    case isTrue  => rfl
    case isFalse =>
      have hl : linkTable fuel c (Has (formFlags 0#64) pageFlagMake) k.space.pml4e (pmlEntry virt) k =
          .error (.exit .refused) := by
        unfold linkTable
        rw [ht, if_pos (by rfl), if_neg (by decide)]
      simp only [hl, bind, Except.bind]
  unfold mapPages
  split
  case isTrue  => rfl
  case isFalse =>
    simp only [mapFrom, hp]
    rw [if_neg (by decide)]

theorem placeMarker_ne_nil {minAddr sz : Word} {mk : Word → VMarker} {head : VMarker} {next : List VMarker} :
    (Vmm.placeMarker minAddr sz mk head next).2 ≠ [] := by
  cases next
  case nil => exact nofun
  case cons =>
    rw [Vmm.placeMarker]
    split <;> exact nofun

theorem vmallocPhys_blank {heapEnd phys : Word} {fuel m ptr : Nat} {c : Callees} {k : Kernel}
    (hk : k.markerCache = markerCacheAt ptr m) (hm : m < 64) (ht : ∀ tbl n, k.tables tbl n = 0#64) (hv : k.vmem ≠ []) :
    ∃ virt k', vmallocPhys heapEnd fuel c phys 0x1000 0#64 0#64 k = .ok (virt, k') ∧
      k'.markerCache = markerCacheAt ptr (m + 1) ∧ (∀ tbl n, k'.tables tbl n = 0#64) ∧ k'.vmem ≠ [] := by
  obtain ⟨p, hp⟩ := @kcacheAlloc_markerCache fuel c k ptr m hk hm
  cases hl : k.vmem
  case nil => exact absurd hl hv
  case cons head next =>
    have hone : Vmm.pagesFor 0x1000 = 1 := rfl
    have hmap (virt : Word) (vmem : List VMarker) : mapPages fuel c phys virt (formFlags 0#64) 1
        { k with vmem, markerCache := markerCacheAt ptr (m + 1) } = .ok _ := mapPages_blank ht
    simp only [vmallocPhys, hl, allocMarker, hp, hone, hmap, bind, Except.bind, pure, Except.pure]
    exact ⟨_, _, rfl, rfl, ht, placeMarker_ne_nil⟩

-- One call after the other, in a task of which no page is mapped.
theorem markerRun_boot {m : Nat} (hm : m ≤ 64) : ∃ k, MarkerRun m k ∧ k.markerCache = markerCacheAt 0x5000 m ∧
    (∀ tbl n, k.tables tbl n = 0#64) ∧ k.vmem ≠ [] := by
  induction m
  case zero => exact ⟨bootKernel (oneBlockHeap 8), .boot rfl, rfl, fun _ _ => rfl, nofun⟩
  case succ m hi =>
    obtain ⟨k, hr, hk, ht, hv⟩ := hi (Nat.le_of_succ_le hm)
    obtain ⟨virt, k', h, hk', ht', hv'⟩ := @vmallocPhys_blank 0x6000#64 0x100000#64 1 m 0x5000
      (callees 0x6000#64 (fun m _ _ _ => m) 1 1) k hk hm ht hv
    exact ⟨k', .vmallocPhys hr hv h, hk', ht', hv'⟩

-- The call after the 63rd still gets a buffer, which is the last one.
theorem markersSafe_iff_boot : ∃ k, MarkerRun 63 k ∧ MarkersSafe k := by
  obtain ⟨k, hr, hk, -, -⟩ := @markerRun_boot 63 (by decide)
  have hu : usedMarkers k = 63 := by
    rw [usedMarkers, hk]
    rfl
  exact ⟨k, hr, (markersSafe_iff hr).mpr (by rw [hu]; decide)⟩

-- After 64 calls of `vmallocPhys`, the next marker is written to `NULL`.
theorem markers_run_out : ¬∀ (calls : Nat) (k : Kernel), MarkerRun calls k → MarkersSafe k := by
  intro h
  obtain ⟨k, hr, hk, -, -⟩ := markerRun_boot (Nat.le_refl 64)
  obtain ⟨r, hr⟩ := (h 64 k hr).returns 0#64 0 ⟨fun _ _ => .error .reentered, fun _ _ _ => .error .reentered,
    fun _ _ _ _ _ => .error .reentered⟩ ⟨0#64, 0, 0#64, 0#64⟩ [] 0 0#64 0#64
  rw [allocMarker_faults hk] at hr
  cases hr

end Example

end RoverOS.Kernel
