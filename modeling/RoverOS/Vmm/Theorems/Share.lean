import RoverOS.Library.Run
import RoverOS.Vmm.Theorems.Markers
import RoverOS.Vmm.Theorems.RoundTrip

-- Callers of `vmalloc` and `vmallocPhys` do not share memory, as long as they ask for whole pages.

open List (Sublist)

namespace RoverOS.Vmm

open Paging

variable {roots : Set Word} {root heapEnd virt flags type : Word} {fuel low b n : Nat}
variable {P : Word → Word → Prop} {M : List VMarker → List (Word × Nat) → Prop}
variable {newPagetable : Vm → Except Exit (Word × Vm)} {extra : List Word} {vm vm' : Vm} {addr : Word}

section Blocks

-- `getPhysmem` may take blocks away from the pool for tables.
theorem Ready.take (hs : Ready roots root M extra vm) (ht : vm'.tables = vm.tables) (hsp : vm'.space = vm.space)
    (hsub : Sublist (spareFrames vm') (spareFrames vm)) (hm : M vm'.vmem vm'.blocks) :
    Ready roots root M extra vm' where
  tables.tree       := ht ▸ hs.tables.tree
  tables.task       := hsp ▸ hs.tables.task
  tables.spare f hf := (hs.tables.spare f ((hsub.append_left extra).subset hf)).of_tables_eq ht
  tables.nodup      := hs.tables.nodup.sublist (hsub.append_left extra)
  blank f hf        := by
    rw [Blank, ht]
    exact hs.blank f ((hsub.append_left extra).subset hf)
  markers           := hm
  space             := hsp ▸ hs.space

variable (hM : ∀ {vmem block blocks}, M vmem (block :: blocks) → M vmem blocks)
include hM

theorem getPhysmem_keeps (hs : Ready roots root M extra vm) (h : getPhysmem fuel vm = .ok (addr, vm')) :
    Ready roots root M extra vm' ∧ Keeps roots P vm vm' := by
  induction fuel generalizing vm
  case zero => cases h
  case succ fuel hi =>
    obtain ⟨⟨addr', stack⟩, _, h⟩ := Except.bind_ok_iff.mp h
    cases addr'
    case some =>
      cases h
      exact ⟨hs.take rfl rfl (.refl _) hs.markers, (Keeps.refl vm).congr rfl rfl rfl rfl⟩
    case none =>
      obtain ⟨vm₁, he, h⟩ := Except.bind_ok_iff.mp h
      obtain ⟨block, blocks, stack, hb, _, he⟩ := extendStack_ok he
      subst he
      have hsub : Sublist (spareFrames { vm with blocks, physStack := stack }) (spareFrames vm) := by
        simp only [spareFrames, hb, List.flatMap_cons]
        exact (List.sublist_append_right _ _).append_left _
      have hs₁ : Ready roots root M extra { vm with blocks, physStack := stack } :=
        hs.take rfl rfl hsub (hM (hb ▸ hs.markers))
      obtain ⟨hs', k⟩ := hi hs₁ h
      exact ⟨hs', k.congr rfl rfl rfl rfl⟩

theorem Supplies.backPages (sp : Supplies roots root P M newPagetable) (hs : Ready roots root M extra vm)
    (hp : ∀ i < n, ∀ w, P root w → ¬SamePage w (virt + pageBytes (b + i)))
    (h : backPages newPagetable fuel virt flags b n vm = .ok vm') :
    Ready roots root M extra vm' ∧ Keeps roots P vm vm' := by
  induction n generalizing b vm
  case zero =>
    cases h
    exact ⟨hs, .refl _⟩
  case succ n hi =>
    have hp' : ∀ i < n, ∀ w, P root w → ¬SamePage w (virt + pageBytes (b + 1 + i)) := by
      intro i hlt w hw
      have := hp (i + 1) (by omega) w hw
      rwa [Nat.add_assoc, Nat.add_comm 1 i]
    have ⟨⟨phys, vm₁⟩, hg, h⟩ := Except.bind_ok_iff.mp h
    have ⟨hs₁, k₁⟩ : Ready roots root M extra vm₁ ∧ Keeps roots P vm vm₁ := getPhysmem_keeps hM hs hg
    simp only at h
    split at h
    case isTrue => cases h
    case isFalse =>
      split at h
      case h_1 vm₂ hm =>
        have ⟨hs₂, k₂, _⟩ := sp.mapPage hs₁ hs₁.tables.task hm
        have ⟨hs', k⟩ := hi hs₂ hp' h
        refine ⟨hs', k₁.trans ((k₂.mono fun r w hw => ⟨hw, ?_⟩).trans k)⟩
        rintro ⟨he, hv⟩
        rw [he, hs₁.space] at hw
        exact hp 0 (by omega) w hw hv
      case h_2 =>
        have ⟨hs', k⟩ := hi hs₁ hp' h
        exact ⟨hs', k₁.trans k⟩
      case h_3 => cases h

end Blocks

theorem Room.behind {vmem : List VMarker} {block : Word × Nat} {blocks : List (Word × Nat)}
    (r : Room low vmem (block :: blocks)) : Room low vmem blocks := by
  have hf := r.fits
  rw [growth_cons] at hf
  exact ⟨r.markers, r.aligned, r.reach, by omega⟩

theorem vmalloc_ok {bytes : Nat} (h : vmalloc heapEnd newPagetable fuel bytes type flags vm = .ok (virt, vm')) :
    ∃ head next marker vmem, vm.vmem = head :: next ∧
      allocMarker heapEnd head next bytes type flags = (marker, vmem) ∧ virt = marker.base ∧
      backPages newPagetable fuel virt flags 0 (pagesFor bytes + 1) { vm with vmem } = .ok vm' := by
  unfold vmalloc at h
  split at h
  case h_1 => cases h
  case h_2 head next hv =>
    have ⟨vm₁, h₁, h⟩ := Except.bind_ok_iff.mp h
    cases h
    exact ⟨head, next, _, _, hv, rfl, rfl, h₁⟩

section Pages

variable {sz minAddr : Word} {mk : Word → VMarker} {m head marker : VMarker} {next vmem : List VMarker}

-- Every marker begins at a page boundary.
def OnPages (vmem : List VMarker) : Prop :=
  ∀ m ∈ vmem, m.base.toNat % 0x1000 = 0

theorem vmarkerEnd_onPage (h : m.base.toNat % 0x1000 = 0) : (vmarkerEnd m).toNat % 0x1000 = 0 := by
  rw [vmarkerEnd, BitVec.toNat_add, pageBytes_toNat]
  omega

theorem placeMarker_onPages (hmk : ∀ base, (mk base).base = base) (h : OnPages (head :: next)) :
    (placeMarker minAddr sz mk head next).fst.base.toNat % 0x1000 = 0 ∧
      OnPages (placeMarker minAddr sz mk head next).snd := by
  induction next generalizing head
  case nil =>
    have he : (mk (vmarkerEnd head)).base.toNat % 0x1000 = 0 := by
      rw [hmk]
      exact vmarkerEnd_onPage (h head (.head _))
    exact ⟨he, List.forall_mem_cons.mpr ⟨h head (.head _), List.forall_mem_singleton.mpr he⟩⟩
  case cons n rest hi =>
    have hh := h head (.head _)
    have hn : OnPages (n :: rest) := fun m hm => h m (.tail _ hm)
    rw [placeMarker]
    split_ifs
    · exact ⟨(hi hn).left, List.forall_mem_cons.mpr ⟨hh, (hi hn).right⟩⟩
    · have he : (mk (vmarkerEnd head + pageSz)).base.toNat % 0x1000 = 0 := by
        have hend := vmarkerEnd_onPage hh
        have hsz : pageSz.toNat = 0x1000 := rfl
        rw [hmk, BitVec.toNat_add, hsz]
        omega
      exact ⟨he, List.forall_mem_cons.mpr ⟨hh, List.forall_mem_cons.mpr ⟨he, hn⟩⟩⟩

-- What `vmalloc` returns begins at a page boundary.
theorem vmalloc_onPage {bytes : Nat} (ho : OnPages vm.vmem)
    (h : vmalloc heapEnd newPagetable fuel bytes type flags vm = .ok (virt, vm')) :
    virt.toNat % 0x1000 = 0 := by
  obtain ⟨head, next, marker, vmem, hv, hm, rfl, _⟩ := vmalloc_ok h
  have hp : (allocMarker heapEnd head next bytes type flags).fst.base.toNat % 0x1000 = 0 :=
    (placeMarker_onPages (fun _ => rfl) (hv ▸ ho)).left
  rwa [hm] at hp

end Pages

section Calls

-- What a caller got: a range, and the physical pages that its addresses were translated to when
-- the call returned.
structure Call where
  virt  : Word
  bytes : Nat
  seen  : Word → Word

structure Allocations where
  vm    : Vm
  calls : List Call -- the latest first

inductive Op
  | vmalloc     (bytes : Nat) (type flags : Word)
  | vmallocPhys (phys : Word) (bytes : Nat) (type flags : Word)

def Op.bytes : Op → Nat
  | vmalloc bytes ..       => bytes
  | vmallocPhys _ bytes .. => bytes

def Op.run (heapEnd : Word) (fuel : Nat) : Op → Vm → Except Exit (Word × Vm)
  | vmalloc bytes type flags, vm =>
    Vmm.vmalloc heapEnd (Vmm.newPagetable heapEnd fuel) fuel bytes type flags vm
  | vmallocPhys phys bytes type flags, vm =>
    Vmm.vmallocPhys heapEnd (Vmm.newPagetable heapEnd fuel) phys bytes type flags vm

def Allocations.return (s : Allocations) (op : Op) (virt : Word) (vm : Vm) : Allocations where
  vm    := vm
  calls := ⟨virt, op.bytes, virtToPhysInt vm vm.space⟩ :: s.calls

inductive Step (heapEnd : Word) : Allocations → Op → Allocations → Prop
  | call {s : Allocations} {op : Op} {fuel : Nat} {virt : Word} {vm : Vm} :
    op.run heapEnd fuel s.vm = .ok (virt, vm) → Step heapEnd s op (s.return op virt vm)

-- `uint32_t pages = bytes/PAGE_SZ` leaves nothing over, or is raised to one.
def WholePages (bytes : Nat) : Prop :=
  bytes < 0x1000 ∨ 0x1000 ∣ bytes

-- Each earlier call asked for whole pages, and the 48 bits of a virtual address suffice for the
-- pages that the next call maps.
structure Allowed (s : Allocations) (op : Op) : Prop where
  earlier : ∀ c ∈ s.calls, WholePages c.bytes
  bytes   : op.bytes < 2 ^ 32
  fits    : listEnd s.vm.vmem + (pagesFor op.bytes + 1) * 0x1000 + growth s.vm.blocks ≤ 2 ^ 48

structure NotShared (s : Allocations) : Prop where
  disjoint : s.calls.Pairwise fun c d =>
    c.virt.toNat + c.bytes ≤ d.virt.toNat ∨ d.virt.toNat + d.bytes ≤ c.virt.toNat
  kept     : ∀ c ∈ s.calls, ∀ w : Word, c.virt.toNat ≤ w.toNat → w.toNat < c.virt.toNat + c.bytes →
    virtToPhysInt s.vm s.vm.space w = c.seen w

-- The ranges of whole pages lie within the markers.
structure Inv (roots : Set Word) (root : Word) (s : Allocations) : Prop where
  ready  : Ready roots root (Room 0) [] s.vm
  within : ∀ c ∈ s.calls, WholePages c.bytes → c.virt.toNat + c.bytes ≤ listEnd s.vm.vmem
  apart  : NotShared s

variable {s s' : Allocations} {op : Op} {bytes : Nat}

theorem pagesFor_le : pagesFor bytes * 0x1000 ≤ max bytes 0x1000 := by
  have h := Nat.mod_le (bytes / 0x1000) (2 ^ 32)
  rw [pagesFor, u32]
  split <;> omega

theorem le_pagesFor (h : bytes < 2 ^ 32) (hw : WholePages bytes) :
    bytes ≤ pagesFor bytes * 0x1000 % 2 ^ 32 := by
  have hu : u32 (bytes / 0x1000) = bytes / 0x1000 := u32_of_lt (by omega)
  rw [pagesFor, hu]
  cases hw
  case inl hw => split <;> omega
  case inr hd =>
    have hd := Nat.div_mul_cancel hd
    split <;> omega

-- The marker of a call is behind everything that is reserved, and so are the pages it maps.
theorem Ready.allocMarker {head marker : VMarker} {next vmem : List VMarker}
    (hs : Ready roots root (Room 0) [] vm) (hm : vm.vmem = head :: next)
    (hf : listEnd vm.vmem + (pagesFor bytes + 1) * 0x1000 + growth vm.blocks ≤ 2 ^ 48)
    (ha : allocMarker heapEnd head next bytes type flags = (marker, vmem)) :
    marker.base.toNat = listEnd vm.vmem ∧
      Ready roots root (Room (marker.base.toNat + pagesFor bytes * 0x1000 % 2 ^ 32)) []
        { vm with vmem } ∧
      ∀ i < pagesFor bytes + 1, ∀ w, Below root marker.base.toNat root w →
        ¬SamePage w (marker.base + pageBytes i) := by
  have r : Room 0 (head :: next) vm.blocks := hm ▸ hs.markers
  rw [hm] at hf ⊢
  have hf' : listEnd (head :: next) + (pagesFor bytes * 0x1000 + growth vm.blocks) ≤ 2 ^ 48 :=
    le_trans (by omega) hf
  have ⟨hb, he, hr⟩ := r.allocMarker hf' ha
  rw [← hb] at he hf
  rw [he] at hr
  refine ⟨hb, ⟨hs.tables.move rfl rfl (.refl _), hs.blank, hr, hs.space⟩, fun i hi w hw => ?_⟩
  apply hw.not_samePage le_rfl
  have hle : (i + 1) * 0x1000 ≤ (pagesFor bytes + 1) * 0x1000 := Nat.mul_le_mul_right _ hi
  exact le_trans (by omega) hf

-- One call maps no page before its marker.
theorem Op.run_spec (hs : Ready roots root (Room 0) [] vm)
    (hf : listEnd vm.vmem + (pagesFor op.bytes + 1) * 0x1000 + growth vm.blocks ≤ 2 ^ 48)
    (h : op.run heapEnd fuel vm = .ok (virt, vm')) :
    virt.toNat = listEnd vm.vmem ∧
      Ready roots root (Room (virt.toNat + pagesFor op.bytes * 0x1000 % 2 ^ 32)) [] vm' ∧
      Keeps roots (Below root virt.toNat) vm vm' := by
  have supplies (pages : Nat) :
      Supplies roots root (Below root virt.toNat) (Room (virt.toNat + pages * 0x1000 % 2 ^ 32))
        (Vmm.newPagetable heapEnd fuel) :=
    newPagetable_supplies (protects_below (Nat.le_add_right _ _)) fuel
  cases op
  case vmalloc bytes type flags =>
    have ⟨head, next, marker, vmem, hm, ha, hv, h⟩ := vmalloc_ok h
    subst hv
    have ⟨hb, hs', hp⟩ := hs.allocMarker hm hf ha
    have hp : ∀ i < pagesFor bytes + 1, ∀ w, Below root marker.base.toNat root w →
        ¬SamePage w (marker.base + pageBytes (0 + i)) := by
      intro i hi w hw
      rw [Nat.zero_add]
      exact hp i hi w hw
    have ⟨hs', k⟩ := Supplies.backPages Room.behind (supplies _) hs' hp h
    exact ⟨hb, hs', k.congr rfl rfl rfl rfl⟩
  case vmallocPhys phys bytes type flags =>
    have ⟨head, next, marker, vmem, hm, ha, hv, h⟩ := vmallocPhys_ok h
    subst hv
    have ⟨hb, hs', hp⟩ := hs.allocMarker hm hf ha
    have hp : ∀ i < pagesFor bytes, ∀ w, Below root marker.base.toNat vm.space.pml4e w →
        ¬SamePage w (marker.base + pageBytes i) := by
      intro i hi w hw
      exact hp i (Nat.lt_succ_of_lt hi) w (hs.space ▸ hw)
    have ⟨hs', k⟩ := Supplies.mapPages (supplies _) hs' hs.tables.task hp h
    exact ⟨hb, hs', k.congr rfl rfl rfl rfl⟩

theorem Inv.step (hi : Inv roots root s) (ha : Allowed s op) (h : Step heapEnd s op s') :
    Inv roots root s' := by
  have ⟨h⟩ := h
  have ⟨hv, hs, k⟩ := Op.run_spec hi.ready ha.fits h
  have hr := hs.markers.reach
  have before {c} (hc : c ∈ s.calls) : c.virt.toNat + c.bytes ≤ listEnd s.vm.vmem :=
    hi.within c hc (ha.earlier c hc)
  refine ⟨⟨hs.tables, hs.blank, hs.markers.mono (Nat.zero_le _), hs.space⟩, ?within, ?disjoint, ?kept⟩
  case within =>
    intro c hc hw
    cases hc
    case head =>
      have := le_pagesFor ha.bytes hw
      simp only [Allocations.return]
      omega
    case tail hc =>
      have := before hc
      simp only [Allocations.return]
      omega
  case disjoint =>
    refine .cons (fun c hc => .inr ?_) hi.apart.disjoint
    have := before hc
    simp only
    omega
  case kept =>
    intro c hc w hlo hhi
    cases hc
    case head => rfl
    case tail hc =>
      have hb := before hc
      have hal := hi.ready.markers.aligned
      have ht := k.translate (w := w) hi.ready.tables.task fun _ => by omega
      rw [← hi.apart.kept c hc w hlo hhi, virtToPhysInt_eq, virtToPhysInt_eq]
      rwa [Allocations.return, k.space]

-- In every run of such calls, the ranges are disjoint and keep their translations.
theorem calls_notShared (t : PageTables roots (spareFrames s.vm) s.vm)
    (hz : ∀ f ∈ spareFrames s.vm, Blank s.vm f) (hm : Room 0 s.vm.vmem s.vm.blocks)
    (hc : s.calls = []) (h : Run.Steps (Step heapEnd) Allowed s s') : NotShared s' := by
  have init : Inv roots s.vm.space.pml4e s := by
    refine ⟨⟨t, hz, hm, rfl⟩, ?_, ?_, ?_⟩ <;> simp [hc]
  exact (h.invariant init Inv.step).apart

end Calls

section Example

-- The markers are those of `createFakeTask`.
def bootVm : Vm :=
  { emptyVm with physStack := { items := framesFrom 0x800000 4, maxSize := 800 } }

theorem pageTables_bootVm : PageTables {0x1000} (spareFrames bootVm) bootVm :=
  pageTables_emptyVm.move rfl rfl (.refl _)

theorem room_bootVm : Room 0 bootVm.vmem bootVm.blocks where
  markers := ⟨.singleton _, by decide⟩
  aligned := by decide
  reach   := Nat.zero_le _
  fits    := by decide

-- Two pages, and then a part of one.
theorem calls_notShared_bootVm :
    ∃ s, Run.Steps (Step 0) Allowed ⟨bootVm, []⟩ s ∧ s.calls.map Call.virt = [0x3000, 0x1000] ∧
      NotShared s := by
  let op₁ : Op := .vmalloc 0x2000 vtypeData (vflagMake ||| vflagWrite)
  let op₂ : Op := .vmallocPhys 0x300000 0x800 vtypeData (vflagMake ||| vflagWrite)
  have h : (op₁.run 0 5 bootVm >>= fun x => (op₂.run 0 5 x.snd).map fun r =>
      (x.fst, listEnd x.snd.vmem, growth x.snd.blocks, r.fst)) = .ok (0x1000, 0x3000, 0, 0x3000) :=
    rfl
  obtain ⟨⟨v₁, vm₁⟩, h₁, h⟩ := Except.bind_ok_iff.mp h
  obtain ⟨⟨v₂, vm₂⟩, h₂, he⟩ := Except.exists_ok_of_map h
  simp only [Prod.mk.injEq] at he
  obtain ⟨he₁, hl, hg, he₂⟩ := he
  have allowed₁ : Allowed ⟨bootVm, []⟩ op₁ := ⟨by simp, by decide, by decide⟩
  have allowed₂ : Allowed (Allocations.return ⟨bootVm, []⟩ op₁ v₁ vm₁) op₂ := by
    refine ⟨?_, by decide, ?_⟩
    · intro c hc
      rw [List.mem_singleton.mp hc]
      exact .inr (by decide : 0x1000 ∣ 0x2000)
    · simp only [Allocations.return, hl, hg]
      decide
  have steps : Run.Steps (Step 0) Allowed ⟨bootVm, []⟩ _ :=
    .step (.step (.refl _) allowed₁ (Step.call h₁)) allowed₂ (Step.call h₂)
  have shared := calls_notShared pageTables_bootVm (fun f _ => blank_emptyVm f) room_bootVm rfl steps
  exact ⟨_, steps, by simp [Allocations.return, he₁, he₂], shared⟩

-- A page and a half is reserved as one page: the next call gets the other half, too.
theorem calls_share :
    ¬∀ (heapEnd : Word) (roots : Set Word) (s s' : Allocations),
      PageTables roots (spareFrames s.vm) s.vm → (∀ f ∈ spareFrames s.vm, Blank s.vm f) →
      Room 0 s.vm.vmem s.vm.blocks → s.calls = [] →
      Run.Steps (Step heapEnd) (fun _ op => 0 < op.bytes ∧ op.bytes < 2 ^ 32) s s' →
      NotShared s' := by
  intro hc
  let op₁ : Op := .vmalloc 0x1800 vtypeData (vflagMake ||| vflagWrite)
  let op₂ : Op := .vmalloc 0x1000 vtypeData (vflagMake ||| vflagWrite)
  have h : (op₁.run 0 5 bootVm >>= fun x => (op₂.run 0 5 x.snd).map fun r =>
      (x.fst, r.fst)) = .ok (0x1000, 0x2000) :=
    rfl
  obtain ⟨⟨v₁, vm₁⟩, h₁, h⟩ := Except.bind_ok_iff.mp h
  obtain ⟨⟨v₂, vm₂⟩, h₂, he⟩ := Except.exists_ok_of_map h
  obtain ⟨he₁, he₂⟩ := Prod.mk.inj he
  have steps : Run.Steps (Step 0) (fun _ op => 0 < op.bytes ∧ op.bytes < 2 ^ 32) ⟨bootVm, []⟩ _ :=
    .step (.step (.refl _) (by decide) (Step.call h₁)) (by decide) (Step.call h₂)
  have hn := hc 0 {0x1000} _ _ pageTables_bootVm (fun f _ => blank_emptyVm f) room_bootVm rfl steps
  have hd := List.rel_of_pairwise_cons hn.disjoint (List.mem_singleton.mpr rfl)
  simp only at hd
  subst he₁ he₂
  revert hd
  decide

end Example

end RoverOS.Vmm
