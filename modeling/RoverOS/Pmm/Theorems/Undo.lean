import RoverOS.Pmm.Theorems.FreeRange
import RoverOS.Pmm.Theorems.Region

-- The counters of used blocks: an allocation adds to them, and nothing takes away from them.

namespace RoverOS.Pmm

open MemRegion

variable {s s' : Regions} {r r' r'' : MemRegion} {region : List MemRegion} {o m : MemOrder}
  {f : Word → Word} {entry : MmapEntry} {order k n i idx bit ptr fuel bytes : Nat}

-- Every bitmap and every counter is the same.
def SameBitmaps (r r' : MemRegion) : Prop :=
  r'.order = r.order

-- A call of `allocRegion` is undone by `freeNPhys` on its block: the call returns, and has restored the
-- region.
def Undone (s : Regions) (i order ptr : Nat) (r r' : MemRegion) : Prop :=
  ∃ fuel s' r'', freeNPhys fuel ptr (orderBlockSize order) { s with region := s.region.set i r' } = .ok s' ∧
    s'.region[i]? = some r'' ∧ SameBitmaps r r''

section Counters

-- No counter is changed, except that it may be cut to 32 bits.
def KeepsUsed (r r' : MemRegion) : Prop :=
  r'.order.map (u32 ·.used) = r.order.map (u32 ·.used)

theorem KeepsUsed.trans (h : KeepsUsed r r') (h' : KeepsUsed r' r'') : KeepsUsed r r'' :=
  Eq.trans h' h

theorem modify_keepsUsed (h : r.modify k idx f 0 = .ok r') : KeepsUsed r r' := by
  obtain ⟨o, w, ho, hw, rfl⟩ := modify_ok h
  have hsame : u32 (o.write idx (f w) 0).used = u32 o.used := by
    simp [MemOrder.write, u32]
  have ho' : (r.order.map (u32 ·.used))[k]? = some (u32 o.used) := by
    rw [List.getElem?_map, ho, Option.map_some]
  obtain ⟨hlt, hget⟩ := List.getElem?_eq_some_iff.mp ho'
  rw [KeepsUsed, List.map_set, hsame, ← hget, List.set_getElem_self]

theorem freeBit_keepsUsed (h : freeBit r k idx bit = .ok r') : KeepsUsed r r' :=
  freeBit_rule .trans modify_keepsUsed (fun _ => rfl) h

-- Every region keeps its counters.
def TableKeepsUsed (region region' : List MemRegion) : Prop :=
  region'.map (·.order.map (u32 ·.used)) = region.map (·.order.map (u32 ·.used))

theorem TableKeepsUsed.set (hr : region[i]? = some r) (h : KeepsUsed r r') :
    TableKeepsUsed region (region.set i r') := by
  have hr' : (region.map (·.order.map (u32 ·.used)))[i]? = some (r.order.map (u32 ·.used)) := by
    rw [List.getElem?_map, hr, Option.map_some]
  obtain ⟨hlt, hget⟩ := List.getElem?_eq_some_iff.mp hr'
  rw [TableKeepsUsed, List.map_set, show r'.order.map (u32 ·.used) = _ from h, ← hget,
    List.set_getElem_self]

theorem freePhys_keepsUsed (h : freePhys ptr s = .ok s') : TableKeepsUsed s.region s'.region := by
  by_cases ha : ptr % 0x1000 = 0
  case neg =>
    rw [freePhys, if_pos ha] at h
    cases h
    rfl
  case pos =>
    obtain ⟨_, ⟨_, rfl⟩ | ⟨i, r, r', _, hr, hf, rfl⟩⟩ := (freePhys_aligned ha).mp h
    · rfl
    · exact .set hr (freeBit_keepsUsed hf)

theorem freeBlocks_keepsUsed (h : freeBlocks ptr i fuel bytes s = .ok s') :
    TableKeepsUsed s.region s'.region := by
  induction fuel generalizing i bytes s
  case zero => cases h
  case succ fuel hi =>
    obtain ⟨s₁, h₁, h⟩ := Except.bind_ok_iff.mp h
    split at h
    case isTrue =>
      cases h
      exact freePhys_keepsUsed h₁
    case isFalse => exact Eq.trans (hi h) (freePhys_keepsUsed h₁)

theorem freeNPhys_keepsUsed (h : freeNPhys fuel ptr bytes s = .ok s') :
    TableKeepsUsed s.region s'.region := by
  unfold freeNPhys at h
  split at h
  case isTrue =>
    cases h
    rfl
  case isFalse => exact freeBlocks_keepsUsed h

end Counters

section Marked

-- The children are in the orders below.
theorem setChildren_order (h : setChildren idx bit i n r = .ok r') (hk : i + n ≤ k) :
    r'.order[k]? = r.order[k]? := by
  induction n generalizing idx bit i r
  case zero =>
    cases h
    rfl
  case succ n hi =>
    obtain ⟨r₁, h₁, h⟩ := Except.bind_ok_iff.mp h
    obtain ⟨o, w, _, _, rfl⟩ := modify_ok h₁
    rw [hi h (by omega)]
    exact List.getElem?_set_ne (by omega)

-- What `setBit` does to its own order.
theorem setBit_own (h : setBit r order idx bit = .ok r') :
    ∃ o w, r.order[order]? = some o ∧ o.entry[idx]? = some w ∧
      r'.order[order]? = some (o.write idx (w ||| intBit bit) 1) := by
  obtain ⟨r₁, h₁, h⟩ := Except.bind_ok_iff.mp h
  obtain ⟨r₂, h₂, h⟩ := Except.bind_ok_iff.mp h
  obtain ⟨o, w, ho, hw, rfl⟩ := modify_ok h₂
  have hlt : order < r₁.order.length := (List.getElem?_eq_some_iff.mp ho).1
  refine ⟨o, w, ?_, hw, ?_⟩
  · rw [← setChildren_order h₁ (by omega), ho]
  · rw [(setParents_above h).below order (Nat.lt_succ_self order)]
    exact List.getElem?_set_self hlt

theorem allocRegion_used (h : allocRegion r order = .ok (ptr, r')) (hp : ptr ≠ memoryAllocationFailed) :
    ∃ o o', r.order[order]? = some o ∧ r'.order[order]? = some o' ∧ o'.used = u32 (o.used + 1) := by
  rcases allocRegion_cases h with ⟨hfull, _⟩ | ⟨idx, bit, o, w, _, hs, _⟩
  · exact absurd hfull hp
  · obtain ⟨o, w, ho, _, ho'⟩ := setBit_own hs
    exact ⟨o, _, ho, ho', rfl⟩

end Marked

theorem u32_add_one_ne : u32 (n + 1) ≠ u32 n := by
  unfold u32
  omega

-- The counter of the order stays higher.
theorem used_not_restored (hr : s.region[i]? = some r) (h : allocRegion r order = .ok (ptr, r'))
    (hp : ptr ≠ memoryAllocationFailed) : ¬Undone s i order ptr r r' := by
  rintro ⟨fuel, s', r'', hf, hr'', hsame⟩
  obtain ⟨o, o', ho, ho', hused⟩ := allocRegion_used h hp
  have hlt : i < s.region.length := (List.getElem?_eq_some_iff.mp hr).1
  have hkeep := congrArg (·[i]?) (freeNPhys_keepsUsed hf)
  simp only [List.getElem?_map, hr'', List.getElem?_set_self hlt, Option.map_some,
    Option.some.injEq] at hkeep
  have hat := congrArg (·[order]?) hkeep
  rw [show r''.order = r.order from hsame] at hat
  simp only [List.getElem?_map, ho, ho', Option.map_some, Option.some.injEq, hused] at hat
  have hcut : u32 (u32 (o.used + 1)) = u32 (o.used + 1) := Nat.mod_mod _ _
  exact u32_add_one_ne (hcut.symm.trans hat.symm)

-- No allocation is undone, in whatever state.
theorem allocRegion_not_undone (hr : s.region[i]? = some r) (h : allocRegion r order = .ok (ptr, r'))
    (hp : ptr ≠ memoryAllocationFailed) : ¬Undone s i order ptr r r' :=
  used_not_restored hr h hp

theorem alloc_lowEntry : ∃ r', allocRegion (fillRegion zeroRegion lowEntry) 0 = .ok (0x100000, r') := by
  have h : (allocRegion (fillRegion zeroRegion lowEntry) 0).map Prod.fst = .ok 0x100000 := rfl
  obtain ⟨⟨ptr, r'⟩, h, hptr⟩ := Except.exists_ok_of_map h
  cases hptr
  exact ⟨r', h⟩

theorem allocRegion_not_undone_lowEntry : ∃ r',
    ¬Undone (initial [lowEntry]).pmm 0 0 0x100000 (fillRegion zeroRegion lowEntry) r' := by
  obtain ⟨r', h⟩ := alloc_lowEntry
  exact ⟨r', allocRegion_not_undone rfl h (by decide)⟩

-- The first block of a new region is allocated and freed.
theorem allocRegion_stays_used : ¬∀ (entry : MmapEntry) (r r' : MemRegion) (order ptr : Nat),
    Reachable entry r → order < r.ordern → allocRegion r order = .ok (ptr, r') →
    ptr ≠ memoryAllocationFailed → Undone { region := [r] } 0 order ptr r r' := by
  intro hall
  obtain ⟨r', h⟩ := alloc_lowEntry
  have hu := hall lowEntry _ r' 0 0x100000 (.refl _) (by decide) h (by decide)
  exact used_not_restored rfl h (by decide) hu

end RoverOS.Pmm
