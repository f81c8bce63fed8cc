import RoverOS.Library.Run
import RoverOS.Vmm.Theorems.Pool

-- Which frames `getPhysmem` and `newPagetable` hand out. As long as the pool of frames for tables is
-- not grown, each frame is handed out once, and lies in a block that its pool has got.

open List (Perm)

namespace RoverOS.Vmm

open Paging

abbrev FrameBlock := Word × Nat

-- A run so far: what each pool has got from `allocPhys`, and what has been handed out of it.
structure Handed where
  vm         : Vm
  physBlocks : List FrameBlock
  pageBlocks : List FrameBlock
  physFrames : List Word
  pageFrames : List Word

inductive FrameCall
  | getPhysmem
  | newPagetable
  deriving DecidableEq, Repr

-- Each call may take blocks, for the pool that it hands out from.
inductive FrameStep (heapEnd : Word) : Handed → FrameCall → Handed → Prop
  | getPhysmem {h : Handed} {fuel : Nat} {f : Word} {vm : Vm} {taken : List FrameBlock} :
    getPhysmem fuel h.vm = .ok (f, vm) → h.vm.blocks = taken ++ vm.blocks →
      FrameStep heapEnd h .getPhysmem { h with
        vm, physBlocks := h.physBlocks ++ taken, physFrames := f :: h.physFrames }
  | newPagetable {h : Handed} {fuel : Nat} {f : Word} {vm : Vm} {taken : List FrameBlock} :
    newPagetable heapEnd fuel h.vm = .ok (f, vm) → h.vm.blocks = taken ++ vm.blocks →
      FrameStep heapEnd h .newPagetable { h with
        vm, pageBlocks := h.pageBlocks ++ taken, pageFrames := f :: h.pageFrames }

def Inside (f : Word) (b : FrameBlock) : Prop :=
  b.1.toNat ≤ f.toNat ∧ f.toNat + 0x1000 ≤ b.1.toNat + b.2

structure HandedOnce (h : Handed) : Prop where
  phys : ∀ f ∈ h.physFrames, ∃ b ∈ h.physBlocks, Inside f b
  page : ∀ f ∈ h.pageFrames, ∃ b ∈ h.pageBlocks, Inside f b
  once : (h.physFrames ++ h.pageFrames).Nodup

-- `newPagetable` finds enough frames not to grow its pool.
def NoGrowth (h : Handed) : FrameCall → Prop
  | .getPhysmem   => True
  | .newPagetable => 20 ≤ h.vm.pageFrames.items.length

-- What is assumed of `allocPhys`.
structure Supplied (blocks : List FrameBlock) : Prop where
  aligned : ∀ b ∈ blocks, b.1.toNat % 0x1000 = 0 ∧ b.2 % 0x1000 = 0
  below   : ∀ b ∈ blocks, b.1.toNat + b.2 ≤ 2 ^ 64
  apart   : blocks.Pairwise fun b c => b.1.toNat + b.2 ≤ c.1.toNat ∨ c.1.toNat + c.2 ≤ b.1.toNat

def IsFrame (f : Word) (b : FrameBlock) : Prop :=
  Inside f b ∧ f.toNat % 0x1000 = 0

-- The frames in the pools and those handed out are different frames of the pools' blocks.
structure Stocked (h : Handed) : Prop where
  supplied : Supplied (h.physBlocks ++ h.pageBlocks ++ h.vm.blocks)
  phys     : ∀ f ∈ h.vm.physStack.items ++ h.physFrames, ∃ b ∈ h.physBlocks, IsFrame f b
  page     : ∀ f ∈ h.vm.pageFrames.items ++ h.pageFrames, ∃ b ∈ h.pageBlocks, IsFrame f b
  once     : (h.vm.physStack.items ++ h.physFrames ++
    (h.vm.pageFrames.items ++ h.pageFrames)).Nodup

variable {heapEnd f phys : Word} {σ σ' : Handed} {s s' vm : Vm} {blocks blocks' taken : List FrameBlock}
variable {b c : FrameBlock} {n sz fuel : Nat} {stack : Dstack}

theorem Stocked.handedOnce (h : Stocked σ) : HandedOnce σ where
  phys f hf :=
    have ⟨b, hb, hi⟩ := h.phys f (List.mem_append_right _ hf)
    ⟨b, hb, hi.left⟩
  page f hf :=
    have ⟨b, hb, hi⟩ := h.page f (List.mem_append_right _ hf)
    ⟨b, hb, hi.left⟩
  once := h.once.sublist ((List.sublist_append_right _ _).append (List.sublist_append_right _ _))

theorem Supplied.perm (h : Supplied blocks) (hp : blocks.Perm blocks') : Supplied blocks' where
  aligned b hb := h.aligned b (hp.mem_iff.mpr hb)
  below b hb   := h.below b (hp.mem_iff.mpr hb)
  apart        := (hp.pairwise_iff fun h => h.symm).mp h.apart

section Frames

theorem frame_toNat {i : Nat} (hi : i < b.2 / 0x1000) (hb : b.1.toNat + b.2 ≤ 2 ^ 64) :
    (b.1 + BitVec.ofNat 64 (i * 0x1000)).toNat = b.1.toNat + i * 0x1000 ∧
      (i + 1) * 0x1000 ≤ b.2 := by
  have hm := Nat.div_mul_le_self b.2 0x1000
  have hmul : (i + 1) * 0x1000 ≤ b.2 := (Nat.mul_le_mul_right _ hi).trans hm
  have hlt : b.1.toNat + i * 0x1000 < 2 ^ 64 := by
    rw [Nat.add_mul] at hmul
    omega
  refine ⟨?_, hmul⟩
  rw [BitVec.toNat_add, BitVec.toNat_ofNat, Nat.add_mod_mod, Nat.mod_eq_of_lt hlt]

theorem isFrame_of_mem (h : f ∈ framesFrom b.1 (b.2 / 0x1000)) (ha : b.1.toNat % 0x1000 = 0)
    (hb : b.1.toNat + b.2 ≤ 2 ^ 64) : IsFrame f b := by
  have ⟨i, hi, he⟩ := List.mem_map.mp h
  have ⟨hn, hm⟩ := frame_toNat (List.mem_range.mp hi) hb
  rw [he] at hn
  exact ⟨⟨by omega, by omega⟩, by omega⟩

theorem nodup_framesFrom (hb : b.1.toNat + b.2 ≤ 2 ^ 64) : (framesFrom b.1 (b.2 / 0x1000)).Nodup := by
  refine List.nodup_range.map_on fun i hi j hj he => ?_
  have ⟨hi, _⟩ := frame_toNat (List.mem_range.mp hi) hb
  have ⟨hj, _⟩ := frame_toNat (List.mem_range.mp hj) hb
  rw [he, hj] at hi
  omega

theorem not_isFrame_of_apart (h : b.1.toNat + b.2 ≤ c.1.toNat ∨ c.1.toNat + c.2 ≤ b.1.toNat)
    (hb : IsFrame f b) : ¬IsFrame f c := by
  rintro ⟨⟨hl, hu⟩, _⟩
  have ⟨⟨hl', hu'⟩, _⟩ := hb
  omega

end Frames

section Physmem

-- A block that `getPhysmem` takes for its pool, and of which nothing is handed out yet.
theorem Stocked.extendStack (h : Stocked σ) (hs : extendStack σ.vm = .ok vm) :
    ∃ b, σ.vm.blocks = b :: vm.blocks ∧ Stocked { σ with vm, physBlocks := σ.physBlocks ++ [b] } := by
  have ⟨b, rest, stack, hb, hi, hv⟩ := extendStack_ok hs
  subst hv
  have hsup := h.supplied
  rw [hb] at hsup
  have hmem : b ∈ σ.physBlocks ++ σ.pageBlocks ++ b :: rest := by simp
  have ⟨ha, hz⟩ := hsup.aligned b hmem
  have hle := hsup.below b hmem
  have hframes : (b.2 + 0xFFF) / 0x1000 = b.2 / 0x1000 := by omega
  rw [hframes] at hi
  have hnew : ∀ f ∈ framesFrom b.1 (b.2 / 0x1000), IsFrame f b := fun f hf => isFrame_of_mem hf ha hle
  -- No frame of the new block is in a pool or handed out: those lie in other blocks.
  have hapart := List.pairwise_append.mp hsup.apart |>.right.right
  have hfresh : ∀ f ∈ framesFrom b.1 (b.2 / 0x1000), f ∉ σ.vm.physStack.items ++ σ.physFrames ++
      (σ.vm.pageFrames.items ++ σ.pageFrames) := by
    intro f hf hold
    have ⟨c, hc, hfc⟩ : ∃ c ∈ σ.physBlocks ++ σ.pageBlocks, IsFrame f c := by
      cases List.mem_append.mp hold
      case inl ho =>
        have ⟨c, hc, hfc⟩ := h.phys f ho
        exact ⟨c, List.mem_append_left _ hc, hfc⟩
      case inr ho =>
        have ⟨c, hc, hfc⟩ := h.page f ho
        exact ⟨c, List.mem_append_right _ hc, hfc⟩
    exact not_isFrame_of_apart (hapart c hc b (List.mem_cons_self ..)) hfc (hnew f hf)
  refine ⟨b, hb, ?supplied, ?phys, h.page, ?once⟩
  case supplied =>
    apply hsup.perm
    simp only [List.append_assoc, List.singleton_append]
    exact List.Perm.append_left _ List.perm_middle
  case phys =>
    intro f hf
    dsimp only at hf
    rw [hi, List.append_assoc, List.mem_append, List.mem_reverse] at hf
    cases hf
    case inl hf => exact ⟨b, List.mem_append_right _ (List.mem_singleton_self _), hnew f hf⟩
    case inr hf =>
      have ⟨c, hc, hfc⟩ := h.phys f hf
      exact ⟨c, List.mem_append_left _ hc, hfc⟩
  case once =>
    dsimp only
    rw [hi, List.append_assoc, List.append_assoc, List.nodup_append]
    rw [List.append_assoc] at hfresh
    refine ⟨List.nodup_reverse.mpr (nodup_framesFrom hle), by simpa using h.once, ?_⟩
    rintro f hf g hg rfl
    exact hfresh f (List.mem_reverse.mp hf) hg

-- A frame that is on top of the stack is handed out.
theorem Stocked.popPhys (h : Stocked σ) (hi : σ.vm.physStack.items = f :: stack.items) :
    Stocked { σ with vm := { σ.vm with physStack := stack }, physFrames := f :: σ.physFrames } := by
  have hp : (σ.vm.physStack.items ++ σ.physFrames).Perm (stack.items ++ f :: σ.physFrames) := by
    rw [hi]
    exact List.perm_middle.symm
  exact {
    supplied := h.supplied
    phys     := fun g hg => h.phys g (hp.mem_iff.mpr hg)
    page     := h.page
    once     := (hp.append_right _).nodup_iff.mp h.once
  }

theorem Stocked.getPhysmem (h : Stocked σ) (hs : getPhysmem fuel σ.vm = .ok (f, vm)) :
    ∃ taken, σ.vm.blocks = taken ++ vm.blocks ∧
      Stocked { σ with vm, physBlocks := σ.physBlocks ++ taken, physFrames := f :: σ.physFrames } := by
  induction fuel generalizing σ
  case zero => cases hs
  case succ fuel hi =>
    have ⟨⟨addr, stack⟩, h₁, hs⟩ := Except.bind_ok_iff.mp hs
    cases addr
    case some addr =>
      cases hs
      refine ⟨[], rfl, ?_⟩
      rw [List.append_nil]
      exact h.popPhys (Dstack.popStack_some h₁)
    case none =>
      have ⟨vm₁, h₂, hs⟩ := Except.bind_ok_iff.mp hs
      have ⟨b, hb, h'⟩ := h.extendStack h₂
      have ⟨taken, ht, h''⟩ := hi h' hs
      refine ⟨b :: taken, by rw [hb, ht, List.cons_append], ?_⟩
      simpa using h''

end Physmem

section Pagetable

theorem Stocked.popPage (h : Stocked σ) (hi : σ.vm.pageFrames.items = f :: stack.items) :
    Stocked { σ with vm := { σ.vm with pageFrames := stack }, pageFrames := f :: σ.pageFrames } := by
  have hp : (σ.vm.pageFrames.items ++ σ.pageFrames).Perm (stack.items ++ f :: σ.pageFrames) := by
    rw [hi]
    exact List.perm_middle.symm
  exact {
    supplied := h.supplied
    phys     := h.phys
    page     := fun g hg => h.page g (hp.mem_iff.mpr hg)
    once     := (hp.append_left _).nodup_iff.mp h.once
  }

theorem Stocked.step {c : FrameCall} (h : Stocked σ) (ha : NoGrowth σ c)
    (hs : FrameStep heapEnd σ c σ') : Stocked σ' := by
  cases hs
  case getPhysmem fuel f vm taken hs hb =>
    have ⟨taken', hb', h'⟩ := h.getPhysmem hs
    have he : taken' = taken := List.append_cancel_right (hb'.symm.trans hb)
    exact he ▸ h'
  case newPagetable fuel f vm taken hs hb =>
    have ⟨stack, hi, hv⟩ := newPagetable_pop hs ha
    subst hv
    have he : taken = [] := List.append_left_eq_self.mp hb.symm
    rw [he, List.append_nil]
    exact h.popPage hi

end Pagetable

section Growth

-- The address behind the last frame of a block.
def blockEnd (b : FrameBlock) : Word :=
  b.1 + BitVec.ofNat 64 (b.2 / 0x1000 * 0x1000)

theorem framesFrom_reverse : (framesFrom b.1 (b.2 / 0x1000 + 1)).reverse =
    blockEnd b :: (framesFrom b.1 (b.2 / 0x1000)).reverse := by
  simp [framesFrom, List.range_succ, blockEnd]

-- The frame that is pushed last is the first to be handed out.
theorem newPagetable_grow (h : newPagetable heapEnd fuel s = .ok (f, s'))
    (hn : s.pageFrames.items.length < 20) : ∃ b rest, s.blocks = b :: rest ∧ f = blockEnd b := by
  cases fuel
  case zero => cases h
  case succ fuel =>
    have ⟨count, hc, h⟩ := Except.bind_ok_iff.mp h
    have ⟨s₁, hg, h⟩ := Except.bind_ok_iff.mp h
    rw [if_pos (by rw [Dstack.stackCount_eq hc]; exact hn)] at hg
    have ⟨phys, sz, virt, blocks, stack, s₂, hb, _, hp, he⟩ := growPageStack_ok hg
    subst he
    have hi := pushFrames_items hp
    rw [framesFrom_reverse (b := (phys, sz)), List.cons_append] at hi
    refine ⟨(phys, sz), blocks, hb, ?_⟩
    cases fuel
    case zero => cases h
    case succ fuel =>
      have ⟨⟨frame, stack'⟩, hp, h⟩ := Except.bind_ok_iff.mp h
      cases frame
      case none =>
        have hnil := Dstack.popStack_none hp
        rw [hi] at hnil
        cases hnil
      case some frame =>
        cases h
        have hs := Dstack.popStack_some hp
        rw [hi] at hs
        exact (List.cons.inj hs).left.symm

theorem not_inside_blockEnd (h : b.1.toNat + b.2 < 2 ^ 64) : ¬Inside (blockEnd b) b := by
  have hm := Nat.div_mul_le_self b.2 0x1000
  have he : (blockEnd b).toNat = b.1.toNat + b.2 / 0x1000 * 0x1000 := by
    rw [blockEnd, BitVec.toNat_add, BitVec.toNat_ofNat, Nat.add_mod_mod, Nat.mod_eq_of_lt (by omega)]
  rintro ⟨_, hu⟩
  omega

end Growth

theorem stocked_of_steps (h : Stocked σ) (hs : Run.Steps (FrameStep heapEnd) NoGrowth σ σ') : Stocked σ' :=
  hs.invariant h fun h ha hs => h.step ha hs

-- Without growth every frame is handed out once, and from a block of its pool. A call that grows the
-- pool hands out the address behind the block that it has just got.
theorem handedOnce_of_steps (h : Stocked σ) (hs : Run.Steps (FrameStep heapEnd) NoGrowth σ σ') :
    HandedOnce σ' ∧ ∀ fuel f vm, newPagetable heapEnd fuel σ'.vm = .ok (f, vm) →
      ¬NoGrowth σ' .newPagetable → ∃ b rest, σ'.vm.blocks = b :: rest ∧ f = blockEnd b ∧
        (b.1.toNat + b.2 < 2 ^ 64 → ¬Inside f b) := by
  refine ⟨(stocked_of_steps h hs).handedOnce, fun fuel f vm hn hg => ?_⟩
  have ⟨b, rest, hb, he⟩ := newPagetable_grow hn (Nat.lt_of_not_le hg)
  exact ⟨b, rest, hb, he, fun hlt => he ▸ not_inside_blockEnd hlt⟩

section Example

-- The first 2 MB are mapped by the four tables from 0x1000 on.
def lowVm (pageFrames : List Word) (blocks : List FrameBlock) : Vm where
  tables tbl i := if i = 0 ∧ (tbl = 0x1000 ∨ tbl = 0x2000 ∨ tbl = 0x3000) then (tbl + 0x1000) ||| 3 else 0#64
  pageFrames   := { items := pageFrames, maxSize := 800 }
  physStack    := { items := [], maxSize := 800 }
  vmem         := [{ base := 0#64, pages := 1, flags := 0#64, type := 0#64 }]
  space        := ⟨0x1000⟩
  blocks       := blocks

-- Nothing handed out yet, and the pool for tables filled from the blocks in `pageBlocks`.
def atStart (pageBlocks blocks : List FrameBlock) : Handed where
  vm         := lowVm (pageBlocks.flatMap fun b => framesFrom b.1 (b.2 / 0x1000)) blocks
  physBlocks := []
  pageBlocks := pageBlocks
  physFrames := []
  pageFrames := []

theorem stocked_atStart (h : Supplied (b :: blocks)) : Stocked (atStart [b] blocks) where
  supplied := h
  phys f hf := absurd hf (by simp [atStart, lowVm])
  page f hf := by
    have ⟨ha, _⟩ := h.aligned b (List.mem_cons_self ..)
    have hb := h.below b (List.mem_cons_self ..)
    simp only [atStart, lowVm, List.flatMap_singleton, List.append_nil] at hf
    exact ⟨b, List.mem_singleton_self _, isFrame_of_mem hf ha hb⟩
  once := by
    have hb := h.below b (List.mem_cons_self ..)
    simpa [atStart, lowVm] using nodup_framesFrom hb

theorem stocked_empty (h : Supplied blocks) : Stocked (atStart [] blocks) where
  supplied  := h
  phys f hf := absurd hf (by simp [atStart, lowVm])
  page f hf := absurd hf (by simp [atStart, lowVm])
  once      := by simp [atStart, lowVm]

theorem handedOnce_oneOfEach : ∃ σ', Run.Steps (FrameStep 0x800000) NoGrowth
    (atStart [(0x300000, 0x20000)] [(0x200000, 0x10000)]) σ' ∧
      (σ'.physFrames = [0x20F000] ∧ σ'.pageFrames = [0x300000]) ∧ HandedOnce σ' := by
  have h : Stocked (atStart [(0x300000, 0x20000)] [(0x200000, 0x10000)]) :=
    stocked_atStart ⟨by decide, by decide, by decide⟩
  have hrun : ∃ vm₁ vm₂,
      getPhysmem 2 (atStart [(0x300000, 0x20000)] [(0x200000, 0x10000)]).vm = .ok (0x20F000, vm₁) ∧
      newPagetable 0x800000 2 vm₁ = .ok (0x300000, vm₂) ∧
      vm₁.blocks = [] ∧ vm₂.blocks = [] ∧ vm₁.pageFrames.items.length = 32 :=
    ⟨_, _, rfl, rfl, rfl, rfl, rfl⟩
  have ⟨vm₁, vm₂, h₁, h₂, hb₁, hb₂, hl⟩ := hrun
  have hs : Run.Steps (FrameStep 0x800000) NoGrowth _ _ := .step (.refl _)
    (show NoGrowth _ .getPhysmem from trivial)
    (.getPhysmem h₁ (show _ = [(0x200000, 0x10000)] ++ vm₁.blocks by rw [hb₁]; rfl))
  have hs : Run.Steps (FrameStep 0x800000) NoGrowth _ _ := .step hs
    (show NoGrowth _ .newPagetable from (show 20 ≤ vm₁.pageFrames.items.length by rw [hl]; decide))
    (.newPagetable h₂ (show _ = [] ++ vm₂.blocks by rw [hb₂]; exact hb₁))
  exact ⟨_, hs, ⟨rfl, rfl⟩, (handedOnce_of_steps h hs).left⟩

-- The first call of `newPagetable` gives the address behind the block.
theorem newPagetable_outside : ¬∀ (heapEnd : Word) (σ σ' : Handed), Stocked σ →
    Run.Steps (FrameStep heapEnd) (fun _ _ => True) σ σ' → HandedOnce σ' := by
  intro hall
  have hrun : (newPagetable 0x800000 3 (atStart [] [(0x200000, 0x40000)]).vm).map
      (fun r => (r.1, r.2.blocks)) = .ok (0x240000, []) := by
    decide +kernel
  have ⟨⟨f, vm⟩, h, hr⟩ := Except.exists_ok_of_map hrun
  have ⟨hf, hb⟩ : f = 0x240000 ∧ vm.blocks = [] := Prod.mk.inj hr
  have ho := hall 0x800000 _ _ (stocked_empty ⟨by decide, by decide, by decide⟩) (.step (.refl _) trivial
    (.newPagetable h (show _ = [(0x200000, 0x40000)] ++ vm.blocks by rw [hb]; rfl)))
  have ⟨b, hm, hi⟩ := ho.page f (List.mem_cons_self ..)
  cases List.mem_singleton.mp hm
  rw [hf] at hi
  exact absurd hi.right (by decide)

end Example

end RoverOS.Vmm
