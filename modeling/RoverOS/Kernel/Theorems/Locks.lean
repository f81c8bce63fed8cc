import RoverOS.Kernel.Theorems.Reenter
import RoverOS.Task.Basic

-- Which calls release the lock that they take.

namespace RoverOS.Kernel

structure System where
  kernel : Kernel
  tasks  : Tasks

inductive Call
  | allocPhys (bytes type : Nat) (flags : BitVec 16)
  | allocPhysAddress (addr bytes : Nat)
  | freePhys (ptr : Nat)
  | heap (r : Request)
  | createTicket (name : Word) (priority : Nat) (vmem : Word)

inductive Lock
  | buddyLock
  | kmallocLock
  | queueLock

namespace System

def isHeld (s : System) : Lock → Bool
  | .buddyLock   => s.kernel.pmm.buddyLock
  | .kmallocLock => s.kernel.kmallocLock
  | .queueLock   => s.tasks.queueLock

end System

namespace Call

def lock : Call → Lock
  | .allocPhys ..        => .buddyLock
  | .allocPhysAddress .. => .buddyLock
  | .freePhys ..         => .buddyLock
  | .heap ..             => .kmallocLock
  | .createTicket ..     => .queueLock

def run (heapEnd : Word) (memcpy : Bytes.Memory → Nat → Nat → Nat → Bytes.Memory) (fuel n : Nat)
    (managers : Kcache.Managers) (s : System) : Call → Except Stop System
  | .allocPhys bytes type flags => do
    let (_, pmm) ← lift (Pmm.allocPhys bytes type flags s.kernel.pmm)
    return { s with kernel := { s.kernel with pmm } }
  | .allocPhysAddress addr bytes => do
    let (_, pmm) ← lift (Pmm.allocPhysAddress addr bytes s.kernel.pmm)
    return { s with kernel := { s.kernel with pmm } }
  | .freePhys ptr => do
    let pmm ← lift (Pmm.freePhys ptr s.kernel.pmm)
    return { s with kernel := { s.kernel with pmm } }
  | .heap r => do
    let kernel ← s.kernel.run heapEnd memcpy fuel n r
    return { s with kernel }
  | .createTicket name priority vmem => do
    let (_, tasks) ← lift (Tasks.createTicket managers name priority vmem s.tasks)
    return { s with tasks }

-- No return path forgets the lock. `freePhys` forgets it when no region holds the address, and
-- `krealloc` when the block has the size already. `createTicket` always does.
def Releases (s : System) : Call → Prop
  | .allocPhys ..        => True
  | .allocPhysAddress .. => True
  | .freePhys ptr        => ptr % 0x1000 ≠ 0 ∨ ∃ r ∈ s.kernel.pmm.region, r.base ≤ ptr ∧ ptr ≤ r.limit
  | .heap (.kmalloc ..)  => True
  | .heap (.kfree ..)    => True
  | .heap (.krealloc ptr sz) =>
    Kheap.allocated s.kernel.heap.mem (Kheap.blockFromPtr ptr) ≠ sz
  | .createTicket ..     => False

section

variable {heapEnd : Word} {memcpy : Bytes.Memory → Nat → Nat → Nat → Bytes.Memory} {fuel n : Nat}
variable {c : Callees} {pmm pmm' : Pmm.Regions} {k k' : Kernel}

theorem lift_ok {α : Type} {x : Except Exit α} {a : α} : Kernel.lift x = .ok a ↔ x = .ok a := by
  cases x <;> simp [Kernel.lift, Except.mapError]

theorem allocPhys_buddyLock {bytes type : Nat} {flags : BitVec 16} {r : Nat × Nat}
    (h : Pmm.allocPhys bytes type flags pmm = .ok (r, pmm')) : pmm'.buddyLock = false := by
  simp only [Pmm.allocPhys, Except.bind_ok_iff] at h
  obtain ⟨_, hl, h⟩ := h
  replace hl := getLock_ok hl
  split at h
  case isTrue => cases h; exact hl
  case isFalse =>
    simp only [Except.bind_ok_iff] at h
    obtain ⟨best, _, h⟩ := h
    split at h
    case h_1 => cases h
    case h_2 =>
      split at h
      case h_1 => cases h
      case h_2 =>
        simp only [Except.bind_ok_iff] at h
        obtain ⟨_, _, h⟩ := h
        cases h
        exact hl

theorem allocPhysAddress_buddyLock {addr bytes r : Nat}
    (h : Pmm.allocPhysAddress addr bytes pmm = .ok (r, pmm')) : pmm'.buddyLock = false := by
  simp only [Pmm.allocPhysAddress, Except.bind_ok_iff] at h
  obtain ⟨_, hl, h⟩ := h
  replace hl := getLock_ok hl
  split at h
  case h_1 => cases h; exact hl
  case h_2 =>
    split at h
    case h_1 => cases h
    case h_2 =>
      simp only [Except.bind_ok_iff] at h
      obtain ⟨_, _, h⟩ := h
      cases h
      exact hl

theorem regionHolding_none {ptr : Nat} {region : List Pmm.MemRegion} :
    Pmm.regionHolding ptr region = none ↔ ¬∃ r ∈ region, r.base ≤ ptr ∧ ptr ≤ r.limit := by
  simp [Pmm.regionHolding, List.findIdx?_eq_none_iff]

-- The lock is not even taken for an unaligned address.
theorem freePhys_buddyLock {ptr : Nat} (hl : pmm.buddyLock = false)
    (h : Pmm.freePhys ptr pmm = .ok pmm') :
    pmm'.buddyLock = false ↔ ptr % 0x1000 ≠ 0 ∨ ∃ r ∈ pmm.region, r.base ≤ ptr ∧ ptr ≤ r.limit := by
  unfold Pmm.freePhys at h
  split at h
  case isTrue hu =>
    cases h
    exact iff_of_true hl (.inl hu)
  case isFalse hu =>
    simp only [Except.bind_ok_iff] at h
    obtain ⟨_, _, h⟩ := h
    split at h
    case h_1 hn =>
      cases h
      apply iff_of_false (by decide : true ≠ false)
      rintro (h | h)
      · exact hu h
      · exact regionHolding_none.mp hn h
    case h_2 i hi =>
      have hr : ∃ r ∈ pmm.region, r.base ≤ ptr ∧ ptr ≤ r.limit := by
        by_contra hr
        rw [regionHolding_none.mpr hr] at hi
        cases hi
      split at h
      case h_1 => cases h
      case h_2 =>
        simp only [Except.bind_ok_iff] at h
        obtain ⟨_, _, h⟩ := h
        cases h
        exact iff_of_true hl (.inr hr)

theorem kmallocWrapper_kmallocLock {sz ptr : Nat} {align : Bool}
    (h : kmallocWrapper heapEnd fuel c sz align k = .ok (ptr, k')) : k'.kmallocLock = false := by
  simp only [kmallocWrapper, Except.bind_ok_iff] at h
  obtain ⟨_, _, ⟨nptr, _⟩, _, h⟩ := h
  dsimp only at h
  split at h <;> cases h <;> rfl

theorem kfree_kmallocLock {ptr : Nat} (h : kfree ptr k = .ok k') : k'.kmallocLock = false := by
  simp only [kfree, Except.bind_ok_iff] at h
  obtain ⟨_, _, _, _, h⟩ := h
  cases h
  rfl

theorem getKmallocLock_ok (h : k.getKmallocLock = .ok k') : k' = { k with kmallocLock := true } := by
  unfold getKmallocLock at h
  split at h <;> cases h
  rfl

theorem krealloc_kmallocLock {ptr sz r : Nat}
    (h : krealloc heapEnd memcpy fuel c ptr sz k = .ok (r, k')) :
    k'.kmallocLock = false ↔ Kheap.allocated k.heap.mem (Kheap.blockFromPtr ptr) ≠ sz := by
  simp only [krealloc, Except.bind_ok_iff] at h
  obtain ⟨_, hk, _, _, _, _, h⟩ := h
  cases getKmallocLock_ok hk
  dsimp only at h
  split at h
  case isTrue hs =>
    cases h
    exact iff_of_false (by decide : true ≠ false) fun hn => hn hs
  case isFalse hs =>
    refine iff_of_true ?_ hs
    split at h
    case isTrue => cases h; rfl
    case isFalse =>
      simp only [Except.bind_ok_iff] at h
      obtain ⟨⟨nptr, k⟩, _, h⟩ := h
      dsimp only at h
      split at h
      case isTrue => cases h; rfl
      case isFalse =>
        simp only [Except.bind_ok_iff] at h
        obtain ⟨_, _, h⟩ := h
        cases h
        rfl

theorem createTicket_queueLock {managers : Kcache.Managers} {name : Word} {priority : Nat}
    {vmem : Word} {r : Nat × ProcessTicket} {tasks tasks' : Tasks}
    (h : Tasks.createTicket managers name priority vmem tasks = .ok (r, tasks')) :
    tasks'.queueLock = true := by
  simp only [Tasks.createTicket, Except.bind_ok_iff] at h
  obtain ⟨_, _, ⟨ticket, _⟩, _, h⟩ := h
  cases ticket <;> cases h
  rfl

end

-- A call that returns leaves its lock free exactly when it takes a path that releases it.
theorem lock_released_iff {heapEnd : Word} {memcpy : Bytes.Memory → Nat → Nat → Nat → Bytes.Memory}
    {fuel n : Nat} {managers : Kcache.Managers} {s s' : System} {call : Call}
    (hl : s.isHeld call.lock = false) (h : run heapEnd memcpy fuel n managers s call = .ok s') :
    s'.isHeld call.lock = false ↔ call.Releases s := by
  cases call
  case allocPhys =>
    simp only [run, Except.bind_ok_iff, lift_ok] at h
    obtain ⟨⟨_, _⟩, h, hs⟩ := h
    cases hs
    exact iff_of_true (allocPhys_buddyLock h) trivial
  case allocPhysAddress =>
    simp only [run, Except.bind_ok_iff, lift_ok] at h
    obtain ⟨⟨_, _⟩, h, hs⟩ := h
    cases hs
    exact iff_of_true (allocPhysAddress_buddyLock h) trivial
  case freePhys =>
    simp only [run, Except.bind_ok_iff, lift_ok] at h
    obtain ⟨_, h, hs⟩ := h
    cases hs
    exact freePhys_buddyLock hl h
  case heap r =>
    simp only [run, Except.bind_ok_iff] at h
    obtain ⟨_, h, hs⟩ := h
    cases hs
    cases r
    case kmalloc =>
      simp only [Kernel.run, Except.bind_ok_iff] at h
      obtain ⟨⟨_, _⟩, h, hs⟩ := h
      cases hs
      exact iff_of_true (kmallocWrapper_kmallocLock h) trivial
    case kfree => exact iff_of_true (kfree_kmallocLock h) trivial
    case krealloc =>
      simp only [Kernel.run, Except.bind_ok_iff] at h
      obtain ⟨⟨_, _⟩, h, hs⟩ := h
      cases hs
      exact krealloc_kmallocLock h
  case createTicket =>
    simp only [run, Except.bind_ok_iff, lift_ok] at h
    obtain ⟨⟨_, _⟩, h, hs⟩ := h
    cases hs
    apply iff_of_false _ id
    simp [System.isHeld, lock, createTicket_queueLock h]

def bootSystem : System where
  kernel := bootKernel (oneBlockHeap 8)
  tasks  := { queueLock := false, ticketCache := Kcache.fillCacheDetails 72 0 0 }

def noMemory : Kcache.Managers where
  allocPhys _ _ _ := (Pmm.memoryAllocationFailed, 0)
  vmallocPhys _ _ := 0

theorem lock_released_smaller : ∃ s',
    run 0x6000#64 (fun m _ _ _ => m) 1 1 noMemory bootSystem (.heap (.krealloc 0x1020 4)) = .ok s' ∧
      s'.isHeld .kmallocLock = false := by
  obtain ⟨s', h, _⟩ := @Except.exists_ok_of_map _ _ _
    (run 0x6000#64 (fun m _ _ _ => m) 1 1 noMemory bootSystem (.heap (.krealloc 0x1020 4)))
    (fun _ => ()) () (by rfl)
  have hr : Kheap.allocated (oneBlockHeap 8).mem (Kheap.blockFromPtr 0x1020) ≠ 4 := by decide
  exact ⟨s', h, (lock_released_iff rfl h).mpr hr⟩

-- `krealloc` to the size that the block has.
theorem krealloc_keeps_lock : ¬∀ (heapEnd : Word)
    (memcpy : Bytes.Memory → Nat → Nat → Nat → Bytes.Memory) (fuel n : Nat)
    (managers : Kcache.Managers) (s s' : System) (call : Call), s.isHeld call.lock = false →
    run heapEnd memcpy fuel n managers s call = .ok s' → s'.isHeld call.lock = false := by
  intro hc
  obtain ⟨s', h, hl⟩ := @Except.exists_ok_of_map _ _ _
    (run 0x6000#64 (fun m _ _ _ => m) 1 1 noMemory bootSystem (.heap (.krealloc 0x1020 8)))
    (fun s => s.isHeld .kmallocLock) true (by rfl)
  have hf := hc _ _ _ _ _ _ _ _ rfl h
  simp [lock, hl] at hf

end Call

end RoverOS.Kernel
