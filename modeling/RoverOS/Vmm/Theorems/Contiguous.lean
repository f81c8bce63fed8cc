import RoverOS.Library.Run
import RoverOS.Vmm.Theorems.Markers

-- The list of markers over all calls of `allocMarker`: it begins at address 0, and every call
-- reserves the pages behind the last marker.

open List (IsChain)

namespace RoverOS.Vmm

open Paging

structure MarkerCall where
  bytes : Nat
  type  : Word
  flags : Word
  deriving DecidableEq, Repr

inductive MarkerStep (heapEnd : Word) : List VMarker → MarkerCall → List VMarker → Prop
  | alloc {head : VMarker} {next vmem : List VMarker} {c : MarkerCall} {marker : VMarker} :
    allocMarker heapEnd head next c.bytes c.type c.flags = (marker, vmem) →
      MarkerStep heapEnd (head :: next) c vmem

-- The bytes behind all markers.
def reserved (vmem : List VMarker) : Nat :=
  (vmem.map fun m => m.pages * 0x1000).sum

-- A caller asks for less than 4 GB, and the address space has room for it.
def MarkerAllowed (vmem : List VMarker) (c : MarkerCall) : Prop :=
  c.bytes < 2 ^ 32 ∧ reserved vmem + pagesFor c.bytes * 0x1000 < 2 ^ 64

structure Laid (vmem : List VMarker) : Prop where
  sorted : vmem.Pairwise fun m n => m.base < n.base
  pages  : ∀ m ∈ vmem, 1 ≤ m.pages
  apart  : vmem.IsChain fun m n => vmarkerEnd m ≤ n.base

-- No byte below the end of the last marker is left out.
structure Contiguous (vmem : List VMarker) : Prop where
  laid    : Laid vmem
  markers : Markers vmem
  below   : ∀ m ∈ vmem, m.base.toNat < listEnd vmem
  ends    : listEnd vmem = reserved vmem
  last    : ∃ m ∈ vmem, (vmarkerEnd m).toNat = listEnd vmem

variable {heapEnd type : Word} {vmem vmem' : List VMarker} {m : VMarker} {c : MarkerCall}
variable {bytes : Nat}

theorem reserved_concat : reserved (vmem ++ [m]) = reserved vmem + m.pages * 0x1000 := by
  simp [reserved]

theorem pagesFor_bounds (h : bytes < 2 ^ 32) : 1 ≤ pagesFor bytes ∧ pagesFor bytes * 0x1000 < 2 ^ 32 := by
  have hd : bytes / 0x1000 < 2 ^ 20 := Nat.div_lt_of_lt_mul h
  have hu : u32 (bytes / 0x1000) = bytes / 0x1000 := u32_of_lt (lt_trans hd (by decide))
  rw [pagesFor, hu]
  split
  case isTrue  => decide
  case isFalse => omega

-- The end of a marker, when its pages fit in 32 bits and in the address space.
theorem vmarkerEnd_eq (hp : m.pages * 0x1000 < 2 ^ 32) (hf : m.base.toNat + m.pages * 0x1000 < 2 ^ 64) :
    (vmarkerEnd m).toNat = m.base.toNat + m.pages * 0x1000 := by
  rw [vmarkerEnd, BitVec.toNat_add, pageBytes_toNat, Nat.mod_eq_of_lt hp, Nat.mod_eq_of_lt hf]

namespace Contiguous

theorem initial (type : Word) : Contiguous [fakeMarker type] := by
  have hp : pageBytes 1 = 0x1000#64 := by decide
  have he : vmarkerEnd (fakeMarker type) = 0x1000#64 := by
    change 0#64 + pageBytes 1 = 0x1000#64
    rw [hp, BitVec.zero_add]
  refine ⟨⟨List.pairwise_singleton _ _, ?pages, .singleton _⟩, ⟨.singleton _, ?fits⟩, ?below, ?ends, ?last⟩
  case last => exact ⟨_, List.mem_singleton_self _, by rw [listEnd_singleton]⟩
  case ends => rw [listEnd_singleton, he]; simp [reserved, fakeMarker]
  all_goals
    intro m hm
    cases List.mem_singleton.mp hm
  case pages => exact le_rfl
  case fits  => rw [he]; exact (by decide : 0#64 ≤ 0x1000#64)
  case below => rw [listEnd_singleton, he]; exact (by decide : (0#64).toNat < (0x1000#64).toNat)

-- A marker at the end of the last one.
theorem concat (h : Contiguous vmem) (hb : m.base.toNat = listEnd vmem) (h₁ : 1 ≤ m.pages)
    (hp : m.pages * 0x1000 < 2 ^ 32) (hf : reserved vmem + m.pages * 0x1000 < 2 ^ 64) :
    Contiguous (vmem ++ [m]) := by
  have he := vmarkerEnd_eq hp (by rw [hb, h.ends]; exact hf)
  have hlt : m.base < vmarkerEnd m := by
    rw [BitVec.lt_def]
    omega
  have hm := h.markers.concat hb.ge (BitVec.le_of_lt hlt)
  refine ⟨⟨?sorted, ?pages, hm.ordered⟩, hm, ?below, ?ends, ?last⟩
  case sorted =>
    refine List.pairwise_append.mpr ⟨h.laid.sorted, List.pairwise_singleton _ _, fun x hx y hy => ?_⟩
    cases List.mem_singleton.mp hy
    rw [BitVec.lt_def, hb]
    exact h.below x hx
  case pages =>
    intro x hx
    cases List.mem_append.mp hx
    case inl hx => exact h.laid.pages x hx
    case inr hx => exact List.mem_singleton.mp hx ▸ h₁
  case below =>
    intro x hx
    rw [listEnd_concat, he]
    cases List.mem_append.mp hx
    case inl hx =>
      have hx := h.below x hx
      omega
    case inr hx =>
      cases List.mem_singleton.mp hx
      omega
  case ends => rw [listEnd_concat, he, hb, h.ends, reserved_concat]
  case last => exact ⟨m, List.mem_append_right _ (List.mem_singleton_self _), by rw [listEnd_concat]⟩

-- What one call does: a marker with the pages that were asked for, behind all others.
theorem step (h : Contiguous vmem) (ha : MarkerAllowed vmem c) (hs : MarkerStep heapEnd vmem c vmem') :
    Contiguous vmem' ∧ ∃ marker, vmem' = vmem ++ [marker] ∧ marker.pages = pagesFor c.bytes ∧
      ∃ m ∈ vmem, marker.base = vmarkerEnd m := by
  cases hs
  case alloc head next marker hs =>
    rw [allocMarker, placeMarker_eq h.markers] at hs
    obtain ⟨_, rfl⟩ := Prod.mk.inj hs
    obtain ⟨h₁, hp⟩ := pagesFor_bounds ha.left
    refine ⟨h.concat toNat_listEnd h₁ hp ha.right, _, rfl, rfl, ?_⟩
    obtain ⟨m, hm, he⟩ := h.last
    exact ⟨m, hm, BitVec.eq_of_toNat_eq (by rw [toNat_listEnd, he])⟩

end Contiguous

theorem contiguous_of_steps
    (h : Run.Steps (MarkerStep heapEnd) MarkerAllowed [fakeMarker type] vmem) : Contiguous vmem :=
  h.invariant (.initial type) fun h ha hs => (h.step ha hs).left

-- In every list that is reached the markers are sorted, not empty and apart. A further call leaves
-- all of them as they are, and its marker begins where one of them ends.
theorem laid_of_steps (h : Run.Steps (MarkerStep heapEnd) MarkerAllowed [fakeMarker type] vmem) :
    Laid vmem ∧ ∀ c vmem', MarkerAllowed vmem c → MarkerStep heapEnd vmem c vmem' →
      ∃ marker, vmem' = vmem ++ [marker] ∧ marker.pages = pagesFor c.bytes ∧
        ∃ m ∈ vmem, marker.base = vmarkerEnd m := by
  have hc := contiguous_of_steps h
  exact ⟨hc.laid, fun _ _ ha hs => (hc.step ha hs).right⟩

section Example

def twoCalls : List VMarker :=
  [fakeMarker 0, { base := 0x1000, pages := 3, flags := vflagMake, type := vtypeHeap }]

def threeCalls : List VMarker :=
  twoCalls ++ [{ base := 0x4000, pages := 1, flags := 0, type := vtypeData }]

theorem twoCalls_steps :
    Run.Steps (MarkerStep 0x2000000) MarkerAllowed [fakeMarker 0] twoCalls :=
  .step (l := ⟨0x3FFF, vtypeHeap, vflagMake⟩) (.refl _) ⟨by decide, by decide⟩ (.alloc rfl)

theorem laid_of_steps_threeCalls : Laid twoCalls ∧
    ∃ marker, threeCalls = twoCalls ++ [marker] ∧ marker.pages = 1 ∧
      ∃ m ∈ twoCalls, marker.base = vmarkerEnd m := by
  have ⟨hl, hs⟩ := laid_of_steps twoCalls_steps
  exact ⟨hl, hs ⟨0x10, vtypeData, 0⟩ threeCalls ⟨by decide, by decide⟩ (.alloc rfl)⟩

end Example

end RoverOS.Vmm
