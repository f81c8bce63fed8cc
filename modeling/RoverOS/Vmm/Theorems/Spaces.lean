import RoverOS.Vmm.Theorems.Takeover

-- What the address spaces are for: each has its own pages.

namespace RoverOS.Vmm

open Paging

-- The spaces that have been created, by their tables, and the frame that each maps a page to.
structure Directory where
  spaces : Set Word
  frame  : Word → Word → Word

namespace Directory

variable (d : Directory)

def empty : Directory where
  spaces := ∅
  frame  := fun _ _ => 0

def create (r : Word) : Directory where
  spaces := insert r d.spaces
  frame  := fun r' w => if r' = r then 0 else d.frame r' w

def map (r : Word) (P : Word → Prop) [DecidablePred P] (f : Word) : Directory where
  spaces := d.spaces
  frame  := fun r' w => if r' = r ∧ P w then f else d.frame r' w

variable {d} {r r' w f : Word} {P : Word → Prop} [DecidablePred P]

theorem create_frame_new : (d.create r).frame r w = 0 := if_pos rfl

theorem create_frame (h : r' ≠ r) : (d.create r).frame r' w = d.frame r' w := if_neg h

theorem map_frame_same (h : r' = r ∧ P w) : (d.map r P f).frame r' w = f := if_pos h

theorem map_frame (h : ¬(r' = r ∧ P w)) : (d.map r P f).frame r' w = d.frame r' w := if_neg h

end Directory

-- What the pages of a space become when other spaces are made and mapped.

open Radix (walk Tree InUse)
open Run (Steps)

open Paging

inductive SpaceCall
  | createPagespace
  | mapPage (space : PageSpace) (phys virt flags : Word)
  | alloc (op : Op)

-- A page that is refused changes nothing.
inductive SpaceStep (heapEnd : Word) : Vm × Directory → SpaceCall → Vm × Directory → Prop
  | create {s s' : Vm} {d : Directory} {fuel : Nat} {space : PageSpace} :
    createPagespace (Vmm.newPagetable heapEnd fuel) s = .ok (space, s') →
      SpaceStep heapEnd (s, d) .createPagespace (s', d.create space.pml4e)
  | map {s s' : Vm} {d : Directory} {fuel : Nat} {space : PageSpace} {phys virt flags : Word} :
    Paging.mapPage (Vmm.newPagetable heapEnd fuel) space phys virt flags s = .ok s' →
      SpaceStep heapEnd (s, d) (.mapPage space phys virt flags)
        (s', d.map space.pml4e (SamePage · virt) (tableBase (pgflags flags ||| phys)))
  | refuse {s : Vm} {d : Directory} {fuel : Nat} {space : PageSpace} {phys virt flags : Word} :
    Paging.mapPage (Vmm.newPagetable heapEnd fuel) space phys virt flags s = .error .refused →
      SpaceStep heapEnd (s, d) (.mapPage space phys virt flags) (s, d)
  | alloc {s s' : Vm} {d : Directory} {fuel : Nat} {virt : Word} {op : Op} :
    op.run heapEnd fuel s = .ok (virt, s') → SpaceStep heapEnd (s, d) (.alloc op) (s', d)

-- A page is mapped into the space of the current task or into one that has been created.
def Known (s : Vm × Directory) : SpaceCall → Prop
  | .mapPage space .. => space.pml4e = s.1.space.pml4e ∨ space.pml4e ∈ s.2.spaces
  | _                 => True

-- Nothing is asked of the markers: the pool may grow over any page of the task.
abbrev AnyMarkers : List VMarker → List (Word × Nat) → Prop := fun _ _ => True

variable {roots : Set Word} {root heapEnd f r w virt : Word} {fuel : Nat} {s s' : Vm} {d d' : Directory}
variable {space : PageSpace} {op : Op} {newPagetable : Vm → Except Exit (Word × Vm)}

section Steps

theorem supplies_other : Supplies roots root (fun r _ => r ≠ root) AnyMarkers (Vmm.newPagetable heapEnd fuel) :=
  newPagetable_supplies protects_other fuel

-- The allocations for the current task map pages of its space only.
theorem Supplies.run_other (hs : Ready roots root AnyMarkers [] s) (h : op.run heapEnd fuel s = .ok (virt, s')) :
    Ready roots root AnyMarkers [] s' ∧ Keeps roots (fun r _ => r ≠ root) s s' := by
  have hs₁ (vmem : List VMarker) : Ready roots root AnyMarkers [] { s with vmem } :=
    ⟨hs.tables.move rfl rfl (.refl _), hs.blank, trivial, hs.space⟩
  cases op
  case vmalloc bytes type flags =>
    have ⟨head, next, m, vmem, hm, ha, hv, h⟩ := vmalloc_ok h
    have ⟨hs', k⟩ := Supplies.backPages (fun _ => trivial) supplies_other (hs₁ vmem)
      (fun _ _ _ hw => absurd rfl hw) h
    exact ⟨hs', k.congr rfl rfl rfl rfl⟩
  case vmallocPhys phys bytes type flags =>
    have ⟨head, next, m, vmem, hm, ha, hv, h⟩ := vmallocPhys_ok h
    have ⟨hs', k⟩ := Supplies.mapPages supplies_other (hs₁ vmem) hs.tables.task
      (fun _ _ _ hw => absurd hs.space hw) h
    exact ⟨hs', k.congr rfl rfl rfl rfl⟩

-- A frame that has been taken from the pool becomes the first table of a space.
theorem Ready.insert (hs : Ready roots root AnyMarkers [f] s) : Ready (insert f roots) root AnyMarkers [] s := by
  have hf : f ∈ [f] ++ spareFrames s := .head _
  have hz : ∀ i, child (s.tables f i) = none := fun i => child_eq_none_iff.mpr (hs.blank f hf i)
  have hnd := List.nodup_cons.mp hs.tables.nodup
  refine ⟨⟨?tree, .inr hs.tables.task, ?spare, hnd.right⟩, fun g hg => hs.blank g (.tail _ hg), trivial, hs.space⟩
  case tree => exact hs.tables.tree.insert hz (hs.tables.spare f hf).unused
  case spare =>
    intro g hg
    have sg := hs.tables.spare g (.tail _ hg)
    refine ⟨sg.nonzero, sg.aligned, fun hu => ?_⟩
    cases Radix.inUse_insert hz hu
    case inl he => exact hnd.left (he ▸ hg)
    case inr hu => exact sg.unused hu

theorem translate_of_blank (hz : Blank s f) : translate s f w = 0 := by
  have hw : walk child s.tables f (path w) = none := by
    rw [path, Radix.walk, child_eq_none_iff.mpr (hz _)]
    rfl
  rw [Paging.translate, leaf, hw]
  exact tableBase_zero

theorem createPagespace_ok (h : createPagespace newPagetable s = .ok (space, s')) :
    newPagetable s = .ok (space.pml4e, s') := by
  have ⟨⟨pml4e, s₁⟩, hn, h⟩ := Except.bind_ok_iff.mp h
  simp only at h
  split at h
  case isTrue  => cases h
  case isFalse => cases h; exact hn

end Steps

section Runs

-- Each space that has been created maps its pages as the directory says.
structure Refines (root : Word) (s : Vm × Directory) : Prop where
  ready  : Ready (insert root s.2.spaces) root AnyMarkers [] s.1
  other  : root ∉ s.2.spaces
  frames : ∀ r ∈ s.2.spaces, ∀ w, translate s.1 r w = s.2.frame r w

theorem Refines.ne (h : Refines root (s, d)) (hr : r ∈ d.spaces) : r ≠ root :=
  fun he => h.other (he ▸ hr)

theorem Refines.kept (h : Refines root (s, d)) (hs : Ready (insert root d.spaces) root AnyMarkers [] s')
    (k : Keeps (insert root d.spaces) (fun r _ => r ≠ root) s s') : Refines root (s', d) where
  ready         := hs
  other         := h.other
  frames r hr w := (k.translate (.inr hr) (h.ne hr)).trans (h.frames r hr w)

theorem Refines.create (h : Refines root (s, d))
    (hc : createPagespace (Vmm.newPagetable heapEnd fuel) s = .ok (space, s')) :
    Refines root (s', d.create space.pml4e) := by
  have ⟨hs, k⟩ := supplies_other h.ready (createPagespace_ok hc)
  have hspare := hs.tables.spare space.pml4e (.head _)
  have hblank := hs.blank space.pml4e (.head _)
  have hne : ∀ r ∈ insert root d.spaces, r ≠ space.pml4e := by
    intro r hr he
    exact hspare.unused ⟨r, hr, [], Nat.zero_le _, congrArg some he⟩
  refine ⟨?ready, ?other, ?frames⟩
  case ready => exact Set.insert_comm .. ▸ hs.insert
  case other =>
    intro hr
    cases hr
    case inl he => exact hne root (.inl rfl) he
    case inr hr => exact h.other hr
  case frames =>
    intro r hr w
    cases hr
    case inl he =>
      rw [he]
      exact (translate_of_blank hblank).trans Directory.create_frame_new.symm
    case inr hr =>
      have ht : Paging.translate s' r w = d.frame r w := (k.translate (.inr hr) (h.ne hr)).trans (h.frames r hr w)
      exact ht.trans (Directory.create_frame (hne r (.inr hr))).symm

theorem Refines.map {phys flags : Word} (h : Refines root (s, d)) (hsp : space.pml4e ∈ insert root d.spaces)
    (hm : Paging.mapPage (Vmm.newPagetable heapEnd fuel) space phys virt flags s = .ok s') :
    Refines root (s', d.map space.pml4e (SamePage · virt) (tableBase (pgflags flags ||| phys))) := by
  have ⟨hs, k, hl⟩ := Supplies.mapPage supplies_other h.ready hsp hm
  refine ⟨hs, h.other, fun r hr w => ?_⟩
  by_cases hp : r = space.pml4e ∧ SamePage w virt
  case pos =>
    have hw : leaf s' r w = some (pgflags flags ||| phys) := by
      rw [← hl, hp.left, leaf, leaf, hp.right.left, hp.right.right]
    have ht : Paging.translate s' r w = tableBase (pgflags flags ||| phys) := by
      rw [Paging.translate, hw]
      rfl
    exact ht.trans (Directory.map_frame_same (P := (SamePage · virt)) hp).symm
  case neg =>
    have ht : Paging.translate s' r w = d.frame r w :=
      (k.translate (.inr hr) ⟨h.ne hr, hp⟩).trans (h.frames r hr w)
    exact ht.trans (Directory.map_frame (P := (SamePage · virt)) hp).symm

theorem Refines.step {t t' : Vm × Directory} {c : SpaceCall} (h : Refines root t) (hk : Known t c)
    (hs : SpaceStep heapEnd t c t') : Refines root t' := by
  cases hs
  case create hc => exact h.create hc
  case map hm    => exact h.map (h.ready.space ▸ hk) hm
  case refuse    => exact h
  case alloc ho  =>
    have ⟨hs, k⟩ := Supplies.run_other h.ready ho
    exact h.kept hs k

theorem refines_empty (hs : Ready {root} root AnyMarkers [] s) : Refines root (s, .empty) where
  ready  := (insert_empty_eq root : insert root (∅ : Set Word) = {root}).symm ▸ hs
  other  := id
  frames := nofun

-- In every run each space that has been created maps exactly the pages that have been mapped into it, and no
-- page table belongs to two spaces.
theorem spaces_isolated (hs : Ready {s.space.pml4e} s.space.pml4e AnyMarkers [] s)
    (run : Steps (SpaceStep heapEnd) Known (s, .empty) (s', d)) :
    (∀ r ∈ d.spaces, ∀ w, virtToPhysInt s' ⟨r⟩ w = d.frame r w) ∧
    Tree child s'.tables (insert s'.space.pml4e d.spaces) 3 := by
  have h : Refines s.space.pml4e (s', d) := run.invariant (refines_empty hs) fun h hk hstep => h.step hk hstep
  refine ⟨fun r hr w => ?_, h.ready.space.symm ▸ h.ready.tables.tree⟩
  rw [virtToPhysInt_eq]
  exact h.frames r hr w

end Runs

section Example

theorem emptyVm_ready : Ready {emptyVm.space.pml4e} emptyVm.space.pml4e AnyMarkers [] emptyVm where
  tables    := pageTables_emptyVm
  blank f _ := blank_emptyVm f
  markers   := trivial
  space     := rfl

-- The same page is mapped in a new space, and then in the task's.
theorem spaces_isolated_emptyVm : ∃ s₁ s₂ s₃,
    createPagespace (Vmm.newPagetable 0 5) emptyVm = .ok (⟨0x2000⟩, s₁) ∧
      Paging.mapPage (Vmm.newPagetable 0 5) ⟨0x2000⟩ 0x9000 0x400000 0x120 s₁ = .ok s₂ ∧
      Paging.mapPage (Vmm.newPagetable 0 5) ⟨0x1000⟩ 0xA000 0x400000 0x120 s₂ = .ok s₃ ∧
      virtToPhysInt s₃ ⟨0x2000⟩ 0x400000 = 0x9000 ∧ virtToPhysInt s₃ ⟨0x2000⟩ 0x401000 = 0 := by
  have hok : ∃ s₁ s₂ s₃, createPagespace (Vmm.newPagetable 0 5) emptyVm = .ok (⟨0x2000⟩, s₁) ∧
      Paging.mapPage (Vmm.newPagetable 0 5) ⟨0x2000⟩ 0x9000 0x400000 0x120 s₁ = .ok s₂ ∧
      Paging.mapPage (Vmm.newPagetable 0 5) ⟨0x1000⟩ 0xA000 0x400000 0x120 s₂ = .ok s₃ ∧
      s₂.space.pml4e = 0x1000 :=
    ⟨_, _, _, rfl, rfl, rfl, rfl⟩
  have ⟨s₁, s₂, s₃, h₁, h₂, h₃, hsp⟩ := hok
  have run₁ : Steps (SpaceStep 0) Known (emptyVm, .empty) _ :=
    .step (l := SpaceCall.createPagespace) (.refl _) trivial (.create h₁)
  have run₂ := Steps.step (l := SpaceCall.mapPage ⟨0x2000⟩ 0x9000 0x400000 0x120) run₁ (.inr (.inl rfl)) (.map h₂)
  have run₃ := Steps.step (l := SpaceCall.mapPage ⟨0x1000⟩ 0xA000 0x400000 0x120) run₂ (.inl hsp.symm) (.map h₃)
  have ⟨hf, _⟩ := spaces_isolated emptyVm_ready run₃
  refine ⟨s₁, s₂, s₃, h₁, h₂, h₃, ?_, ?_⟩
  all_goals
    rw [hf 0x2000 (.inl rfl)]
    decide

end Example

end RoverOS.Vmm
