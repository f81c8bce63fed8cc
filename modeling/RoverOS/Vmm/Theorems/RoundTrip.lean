import RoverOS.Vmm.Theorems.Pool

-- What a mapped page is read back as.

open Radix (walk Tree InUse)

namespace RoverOS.Vmm

open Paging

variable {roots : Set Word} {heapEnd phys virt flags : Word} {fuel : Nat} {s s' : Vm}
variable {space : PageSpace}

theorem protects_nothing {root : Word} :
    Protects heapEnd root (fun _ _ => False) (fun _ _ => True) where
  grow _ _ := ⟨trivial, fun _ _ _ h => h.elim⟩

theorem newPagetable_supplies_any {root : Word} :
    Supplies roots root (fun _ _ => False) (fun _ _ => True) (newPagetable heapEnd fuel) :=
  newPagetable_supplies protects_nothing fuel

-- The page tables stay well formed, and the leaf of `virt` is what `mapPage` wrote.
theorem mapPage_leaf (t : PageTables roots (spareFrames s) s) (hz : ∀ f ∈ spareFrames s, Blank s f)
    (hr : space.pml4e ∈ roots)
    (h : mapPage (newPagetable heapEnd fuel) space phys virt flags s = .ok s') :
    PageTables roots (spareFrames s') s' ∧ (∀ f ∈ spareFrames s', Blank s' f) ∧
      leaf s' space.pml4e virt = some (pgflags flags ||| phys) := by
  have hs : Ready roots s.space.pml4e (fun _ _ => True) [] s := ⟨t, hz, trivial, rfl⟩
  have ⟨hs', _, hl⟩ := newPagetable_supplies_any.mapPage hs hr h
  exact ⟨hs'.tables, hs'.blank, hl⟩

-- The frame is read back unless the flags put `PG_PAT`, bit 12, into an address that has it clear.
theorem mapPage_reads_back_iff (t : PageTables roots (spareFrames s) s)
    (hz : ∀ f ∈ spareFrames s, Blank s f) (hr : space.pml4e ∈ roots) (hp : phys.toNat < 2 ^ 52)
    (h : mapPage (newPagetable heapEnd fuel) space phys virt flags s = .ok s') :
    (virtToPhysInt s' space virt = phys ∧
      tableBase (getPageInfo s' space.pml4e virt) = phys) ↔
        (PicksPat flags → phys.getLsbD 12 = true) := by
  have ⟨_, _, hl⟩ := mapPage_leaf t hz hr h
  have hb := tableBase_of_aligned (mapPage_aligned h).left hp
  rw [virtToPhysInt_eq, getPageInfo_eq, hl, ← tableBase_leaf_eq_iff hb]
  exact and_self_iff

-- A space with nothing mapped, and a pool of 30 zero-filled frames.
def emptyVm : Vm where
  tables     := fun _ _ => 0#64
  pageFrames := { items := framesFrom 0x2000 30, maxSize := 800 }
  physStack  := { items := [], maxSize := 800 }
  vmem       := [{ base := 0#64, pages := 1, flags := 0#64, type := 0#64 }]
  space      := ⟨0x1000⟩
  blocks     := []

theorem mem_framesFrom {n : Nat} {f : Word} (h : f ∈ framesFrom phys n) :
    ∃ i < n, f = phys + BitVec.ofNat 64 (i * 0x1000) := by
  have ⟨i, hi, he⟩ := List.mem_map.mp h
  exact ⟨i, List.mem_range.mp hi, he.symm⟩

-- The table at `0x1000` designates nothing, whatever the frames of the pool contain.
theorem pageTables_unmapped (h : ∀ i, tableBase (s.tables 0x1000 i) = 0#64) (hsp : s.space = ⟨0x1000⟩)
    (hfr : spareFrames s = framesFrom 0x2000 30) : PageTables {0x1000} (spareFrames s) s := by
  have hwalk {r a p} (hr : r = 0x1000) (hw : walk child s.tables r p = some a) :
      a = 0x1000 ∧ p = [] := by
    cases p
    case nil => exact ⟨(Option.some.inj hw).symm.trans hr, rfl⟩
    case cons =>
      rw [walk, hr, child_eq_none_iff.mpr (h _)] at hw
      cases hw
  have hspare : ∀ i < 30, ∀ f, f = 0x2000 + BitVec.ofNat 64 (i * 0x1000) →
      f ≠ 0#64 ∧ tableBase f = f ∧ f ≠ 0x1000 := by
    simp only [forall_eq]
    decide
  rw [hfr]
  refine ⟨?tree, by rw [hsp]; rfl, ?spare, by decide⟩
  case tree =>
    intro _ _ _ _ _ hr hr' _ _ hw hw'
    exact ⟨hr.trans hr'.symm, (hwalk hr hw).right.trans (hwalk hr' hw').right.symm⟩
  case spare =>
    intro f hf
    obtain ⟨i, hi, he⟩ := mem_framesFrom hf
    obtain ⟨h₀, h₁, h₂⟩ := hspare i hi f he
    refine ⟨h₀, h₁, ?_⟩
    rintro ⟨r, hr, p, _, hw⟩
    exact h₂ (hwalk hr hw).left

theorem pageTables_emptyVm : PageTables {0x1000} (spareFrames emptyVm) emptyVm :=
  pageTables_unmapped (fun _ => tableBase_zero) rfl (List.append_nil _)

theorem blank_emptyVm (f : Word) : Blank emptyVm f :=
  fun _ => tableBase_zero

-- Mapped uncached, a frame with bit 12 set is read back.
theorem mapPage_reads_back_emptyVm :
    ∃ s', mapPage (newPagetable 0 5) ⟨0x1000⟩ 0x3000 0x400000 0x121 emptyVm = .ok s' ∧
      virtToPhysInt s' ⟨0x1000⟩ 0x400000 = 0x3000 := by
  have h : (mapPage (newPagetable 0 5) ⟨0x1000⟩ 0x3000 0x400000 0x121 emptyVm).map (fun _ => ()) =
      .ok () :=
    rfl
  have ⟨s', h, _⟩ := Except.exists_ok_of_map h
  have hr := mapPage_reads_back_iff pageTables_emptyVm (fun f _ => blank_emptyVm f) rfl (by decide) h
  exact ⟨s', h, (hr.mpr (by decide)).left⟩

-- Mapped uncached, the frame at `0x2000` is read back as the one at `0x3000`.
theorem mapPage_not_read_back :
    ¬∀ (heapEnd : Word) (fuel : Nat) (roots : Set Word) (s s' : Vm) (space : PageSpace)
      (phys virt flags : Word), PageTables roots (spareFrames s) s →
      (∀ f ∈ spareFrames s, Blank s f) → space.pml4e ∈ roots → phys.toNat < 2 ^ 52 →
      Has flags pageFlagMake → mapPage (newPagetable heapEnd fuel) space phys virt flags s = .ok s' →
      virtToPhysInt s' space virt = phys ∧ tableBase (getPageInfo s' space.pml4e virt) = phys := by
  intro hc
  have h : (mapPage (newPagetable 0 5) ⟨0x1000⟩ 0x2000 0x400000 0x121 emptyVm).map
      (virtToPhysInt · ⟨0x1000⟩ 0x400000) = .ok 0x3000 :=
    rfl
  have ⟨s', h, hv⟩ := Except.exists_ok_of_map h
  have ⟨he, _⟩ := hc 0 5 {0x1000} emptyVm s' ⟨0x1000⟩ 0x2000 0x400000 0x121 pageTables_emptyVm
    (fun f _ => blank_emptyVm f) rfl (by decide) (by decide) h
  exact absurd (hv.symm.trans he) (by decide)

end RoverOS.Vmm
