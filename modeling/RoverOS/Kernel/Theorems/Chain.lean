import RoverOS.Kernel.Basic

-- The chain of calls below `kmallocInt`. Of the heap's lock and the marker cache, it only changes what
-- `kcacheAlloc` does to the cache.

namespace RoverOS.Kernel

open Paging
open Vmm (formFlags pageBytes pagesFor framesFrom)

-- The call returns something that `P` holds of, or stops in a way that `E` allows.
def Ends {α : Type} (E : Stop → Prop) (P : α → Prop) : Except Stop α → Prop
  | .ok a    => P a
  | .error e => E e

section Ends

variable {α β : Type} {E : Stop → Prop} {P : α → Prop} {Q : β → Prop}

theorem Ends.bind {x : Except Stop α} {f : α → Except Stop β} (hx : Ends E P x)
    (hf : ∀ a, P a → Ends E Q (f a)) : Ends E Q (x >>= f) := by
  cases x
  case error => exact hx
  case ok a  => exact hf a hx

theorem Ends.lift_bind {x : Except Exit α} {f : α → Except Stop β} (hE : ∀ e, E (.exit e))
    (hf : ∀ a, Ends E Q (f a)) : Ends E Q (lift x >>= f) := by
  cases x
  case error => exact hE _
  case ok a  => exact hf a

theorem Ends.mono {P' : α → Prop} {x : Except Stop α} (hx : Ends E P x) (h : ∀ a, P a → P' a) :
    Ends E P' x := by
  cases x
  case error => exact hx
  case ok a  => exact h a hx

theorem Ends.of_ok {x : Except Stop α} {a : α} (hx : Ends E P x) (h : x = .ok a) : P a := by
  subst h
  exact hx

end Ends

-- `J` holds of the heap's lock and the marker cache.
abbrev On (J : Bool → Kcache → Prop) (k : Kernel) : Prop :=
  J k.kmallocLock k.markerCache

-- What the chain needs: that `vmallocPhys` and `kcacheAlloc` keep `J`.
structure Callees.Keeps (E : Stop → Prop) (J : Bool → Kcache → Prop) (fuel : Nat) (c : Callees) : Prop where
  exit (e : Exit) : E (.exit e)
  vmallocPhys {phys : Word} {bytes : Nat} {type flags : Word} {k : Kernel} :
    On J k → Ends E (On J ·.2) (c.vmallocPhys phys bytes type flags k)
  kcacheAlloc {k : Kernel} : On J k → Ends E (On J ·.2) (kcacheAlloc fuel c k)

@[simp]
theorem stack_setStack {k : Kernel} {stack : Dstack} {f : Frames} :
    (k.setStack stack f).stack f = stack := by
  cases f <;> rfl

variable {E : Stop → Prop} {J : Bool → Kcache → Prop} {heapEnd : Word} {fuel : Nat} {c : Callees} {k : Kernel}

theorem On.setStack (h : On J k) (stack : Dstack) (f : Frames) : On J (k.setStack stack f) := by
  cases f <;> exact h

section Stacks

-- A full stack is grown under its own lock.
theorem growStack_stops {f : Frames} {sz : Nat} (h : (k.stack f).lock = true) :
    growStack c f sz k = .error (.exit .halt) := by
  simp [growStack, h, getLock, lift, Except.mapError, bind, Except.bind]

theorem pushStack_ends (hc : c.Keeps E J fuel) {f : Frames} {data : Word} (h : On J k) :
    Ends E (On J) (pushStack c f data k) := by
  apply Ends.lift_bind hc.exit
  intro _
  split
  case isTrue =>
    simp only [growStack_stops, stack_setStack, bind, Except.bind]
    exact hc.exit .halt
  case isFalse => exact h.setStack _ f

theorem pushFrames_ends (hc : c.Keeps E J fuel) {f : Frames} {frames : List Word} (h : On J k) :
    Ends E (On J) (pushFrames c f frames k) := by
  induction frames generalizing k
  case nil => exact h
  case cons data frames hi =>
    simp only [pushFrames, List.foldlM_cons]
    apply (pushStack_ends hc h).bind
    intro k h
    exact hi h

theorem popStack_ends (hE : ∀ e, E (.exit e)) {f : Frames} (h : On J k) : Ends E (On J ·.2) (popStack f k) := by
  apply Ends.lift_bind hE
  rintro ⟨_, stack⟩
  exact h.setStack stack f

theorem allocPhys_ends (hE : ∀ e, E (.exit e)) {bytes type : Nat} {flags : BitVec 16} (h : On J k) :
    Ends E (fun r => On J r.2 ∧ r.2.markerCache = k.markerCache) (allocPhys bytes type flags k) := by
  apply Ends.lift_bind hE
  rintro ⟨_, _⟩
  exact ⟨h, rfl⟩

end Stacks

section Paging

theorem growPageStack_ends (hc : c.Keeps E J fuel) (h : On J k) : Ends E (On J) (growPageStack c k) := by
  apply (allocPhys_ends hc.exit h).bind
  rintro ⟨⟨phys, sz⟩, k⟩ ⟨h, _⟩
  dsimp only at h ⊢
  split
  case isTrue => exact hc.exit _
  case isFalse =>
    apply (hc.vmallocPhys h).bind
    rintro ⟨v, k⟩ h
    dsimp only
    split
    case isTrue  => exact hc.exit _
    case isFalse => exact pushFrames_ends hc h

theorem fetchFrame_ends (hc : c.Keeps E J fuel) {n : Nat} (h : On J k) : Ends E (On J ·.2) (fetchFrame c n k) := by
  induction n generalizing k
  case zero => exact hc.exit _
  case succ n hi =>
    apply (popStack_ends hc.exit h).bind
    rintro ⟨frame, k⟩ h
    cases frame
    case some frame => exact h
    case none =>
      apply (growPageStack_ends hc h).bind
      intro k h
      exact hi h

theorem newPagetable_ends (hc : c.Keeps E J fuel) (h : On J k) : Ends E (On J ·.2) (newPagetable fuel c k) := by
  apply Ends.lift_bind hc.exit
  intro count
  have hg : Ends E (On J) (if count < 20 then growPageStack c k else .ok k) := by
    split
    case isTrue  => exact growPageStack_ends hc h
    case isFalse => exact h
  apply hg.bind
  intro k h
  exact fetchFrame_ends hc h

theorem linkTable_ends (hc : c.Keeps E J fuel) (h : On J k) {make : Prop} [Decidable make] {tbl : Word}
    {n : Index} : Ends E (On J) (linkTable fuel c make tbl n k) := by
  unfold linkTable
  split
  case isFalse => exact h
  case isTrue =>
    split
    case isFalse => exact hc.exit _
    case isTrue =>
      apply (newPagetable_ends hc h).bind
      rintro ⟨frame, k'⟩ h'
      dsimp only
      split
      case isTrue  => exact h'
      case isFalse => exact hc.exit _

theorem mapPage_ends (hc : c.Keeps E J fuel) (h : On J k) {phys virt flags : Word} :
    Ends E (On J) (mapPage fuel c phys virt flags k) := by
  unfold mapPage
  split
  case isTrue => exact hc.exit _
  case isFalse =>
    apply (linkTable_ends hc h).bind
    intro k h
    apply (linkTable_ends hc h).bind
    intro k h
    apply (linkTable_ends hc h).bind
    intro k h
    exact h

theorem mapFrom_ends (hc : c.Keeps E J fuel) (h : On J k) {phys virt flags : Word} {b n : Nat} :
    Ends E (On J) (mapFrom fuel c phys virt flags b n k) := by
  induction n generalizing b k
  case zero => exact h
  case succ n hi =>
    have hp := @mapPage_ends E J fuel c k hc h (phys + BitVec.ofNat 64 (u32 (b * 0x1000)))
      (virt + BitVec.ofNat 64 (u32 (b * 0x1000))) flags
    simp only [mapFrom]
    split
    case h_1 hr => exact hi (hp.of_ok hr)
    case h_2 =>
      split
      case isTrue  => exact hc.exit _
      case isFalse => exact hi h
    case h_3 hr =>
      rw [hr] at hp
      exact hp

theorem mapPages_ends (hc : c.Keeps E J fuel) (h : On J k) {phys virt flags : Word} {pages : Nat} :
    Ends E (On J) (mapPages fuel c phys virt flags pages k) := by
  unfold mapPages
  split
  case isTrue  => exact h
  case isFalse => exact mapFrom_ends hc h

end Paging

section Vmm

-- A marker is only used when there is one.
theorem allocMarker_ends (hc : c.Keeps E J fuel) (h : On J k) {head : VMarker} {next : List VMarker}
    {bytes : Nat} {type flags : Word} :
    Ends E (On J ·.2) (allocMarker heapEnd fuel c head next bytes type flags k) := by
  apply (hc.kcacheAlloc h).bind
  rintro ⟨ptr, k⟩ h
  cases ptr
  case none   => exact hc.exit _
  case some _ => exact h

theorem vmallocPhys_ends (hc : c.Keeps E J fuel) (h : On J k) {phys : Word} {bytes : Nat} {type flags : Word} :
    Ends E (On J ·.2) (vmallocPhys heapEnd fuel c phys bytes type flags k) := by
  unfold vmallocPhys
  split
  case h_1 => exact h
  case h_2 =>
    apply (allocMarker_ends hc h).bind
    rintro ⟨marker, k⟩ h
    apply (mapPages_ends hc h).bind
    intro k h
    exact h

theorem extendStack_ends (hc : c.Keeps E J fuel) (h : On J k) : Ends E (On J) (extendStack c k) := by
  apply (allocPhys_ends hc.exit h).bind
  rintro ⟨⟨ptr, sz⟩, k⟩ ⟨h, _⟩
  dsimp only at h ⊢
  split
  case isTrue  => exact hc.exit _
  case isFalse => exact pushFrames_ends hc h

theorem getPhysmem_ends (hc : c.Keeps E J fuel) {n : Nat} (h : On J k) : Ends E (On J ·.2) (getPhysmem c n k) := by
  induction n generalizing k
  case zero => exact hc.exit _
  case succ n hi =>
    apply (popStack_ends hc.exit h).bind
    rintro ⟨addr, k⟩ h
    cases addr
    case some addr => exact h
    case none =>
      apply (extendStack_ends hc h).bind
      intro k h
      exact hi h

theorem backPages_ends (hc : c.Keeps E J fuel) (h : On J k) {virt flags : Word} {i n : Nat} :
    Ends E (On J) (backPages fuel c virt flags i n k) := by
  induction n generalizing i k
  case zero => exact h
  case succ n hi =>
    apply (getPhysmem_ends hc h).bind
    rintro ⟨phys, k⟩ h
    dsimp only at h ⊢
    split
    case isTrue => exact hc.exit _
    case isFalse =>
      have hp := @mapPage_ends E J fuel c k hc h phys (virt + pageBytes i) (formFlags flags)
      split
      case h_1 hr => exact hi (hp.of_ok hr)
      case h_2    => exact hi h
      case h_3 hr =>
        rw [hr] at hp
        exact hp

theorem vmalloc_ends (hc : c.Keeps E J fuel) (h : On J k) {bytes : Nat} {type flags : Word} :
    Ends E (On J ·.2) (vmalloc heapEnd fuel c bytes type flags k) := by
  unfold vmalloc
  split
  case h_1 => exact h
  case h_2 =>
    apply (allocMarker_ends hc h).bind
    rintro ⟨marker, k⟩ h
    apply (backPages_ends hc h).bind
    intro k h
    exact h

end Vmm

section Heap

theorem extendHeap_ends (hc : c.Keeps E J fuel) (h : On J k) {min : Nat} :
    Ends E (On J ·.2) (extendHeap heapEnd fuel c min k) := by
  apply (vmalloc_ends hc h).bind
  rintro ⟨virt, k⟩ h
  apply Ends.lift_bind hc.exit
  rintro ⟨nblock, mem⟩
  exact h

theorem newBlock_ends (hc : c.Keeps E J fuel) (h : On J k) {sz : Nat} {align : Bool} :
    Ends E (On J ·.2) (newBlock heapEnd fuel c sz align k) := by
  unfold newBlock
  dsimp only
  refine Ends.lift_bind hc.exit ?_
  intro (block, found)
  dsimp only
  -- What the checks find does not matter, and is not looked into.
  generalize Kheap.checkRedzone k.heap.mem block = checked
  refine Ends.lift_bind hc.exit ?_
  intro _
  split
  case isTrue => exact h
  case isFalse =>
    split
    case isTrue => exact h
    case isFalse =>
      refine (extendHeap_ends hc h).bind ?_
      intro nblock h
      exact Ends.lift_bind hc.exit fun _ => h

theorem kmallocInt_ends (hc : c.Keeps E J fuel) (h : On J k) {sz : Nat} {align : Bool} :
    Ends E (On J ·.2) (kmallocInt heapEnd fuel c sz align k) := by
  unfold kmallocInt
  split
  case isTrue => exact h
  case isFalse =>
    apply (newBlock_ends hc h).bind
    rintro ⟨nblock, k⟩ h
    exact h

end Heap

-- A request holds the lock, unless it stops there.
section Requests

variable {memcpy : Bytes.Memory → Nat → Nat → Nat → Bytes.Memory}

theorem getKmallocLock_ends (hr : k.kmallocLock = true → E .reentered) (h : J true k.markerCache) :
    Ends E (On J) k.getKmallocLock := by
  unfold getKmallocLock
  split
  case isTrue hl => exact hr hl
  case isFalse   => exact h

theorem kmallocWrapper_ends (hc : c.Keeps E J fuel) (hJ : ∀ {lock cache}, J lock cache → J true cache)
    (hr : k.kmallocLock = true → E .reentered) (h : J true k.markerCache) {sz : Nat} {align : Bool} :
    Ends E (J true ·.2.markerCache) (kmallocWrapper heapEnd fuel c sz align k) := by
  apply (getKmallocLock_ends hr h).bind
  intro k h
  apply (kmallocInt_ends hc h).bind
  rintro ⟨ptr, k⟩ h
  dsimp only at h ⊢
  split <;> exact hJ h

theorem kfree_ends (hE : ∀ e, E (.exit e)) (hJ : ∀ {lock cache}, J lock cache → J true cache)
    (hr : k.kmallocLock = true → E .reentered) (h : J true k.markerCache) {ptr : Nat} :
    Ends E (J true ·.markerCache) (kfree ptr k) := by
  apply (getKmallocLock_ends hr h).bind
  intro k h
  apply Ends.lift_bind hE
  intro heap
  exact hJ h

theorem krealloc_ends (hc : c.Keeps E J fuel) (hJ : ∀ {lock cache}, J lock cache → J true cache)
    (hr : k.kmallocLock = true → E .reentered) (h : J true k.markerCache) {ptr sz : Nat} :
    Ends E (J true ·.2.markerCache) (krealloc heapEnd memcpy fuel c ptr sz k) := by
  apply (getKmallocLock_ends hr h).bind
  intro k h
  dsimp only
  generalize Kheap.checkMagic k.heap.mem (Kheap.blockFromPtr ptr) = magic
  apply Ends.lift_bind hc.exit
  intro _
  generalize Kheap.checkRedzone k.heap.mem (Kheap.blockFromPtr ptr) = redzone
  apply Ends.lift_bind hc.exit
  intro _
  split
  case isTrue => exact hJ h
  case isFalse =>
    split
    case isTrue => exact hJ h
    case isFalse =>
      apply (kmallocInt_ends hc h).bind
      rintro ⟨nptr, k⟩ h
      dsimp only at h ⊢
      split
      case isTrue => exact hJ h
      case isFalse =>
        apply Ends.lift_bind hc.exit
        intro heap
        exact hJ h

theorem run_ends {n : Nat} (hc : (callees heapEnd memcpy fuel n).Keeps E J fuel)
    (hJ : ∀ {lock cache}, J lock cache → J true cache) (hr : k.kmallocLock = true → E .reentered)
    (h : J true k.markerCache) (r : Request) :
    Ends E (J true ·.markerCache) (run heapEnd memcpy fuel n k r) := by
  cases r
  case kmalloc sz align =>
    apply (kmallocWrapper_ends hc hJ hr h).bind
    intro _ h
    exact h
  case kfree ptr => exact kfree_ends (J := J) hc.exit hJ hr h
  case krealloc ptr sz =>
    apply (krealloc_ends hc hJ hr h).bind
    intro _ h
    exact h

end Requests

end RoverOS.Kernel
