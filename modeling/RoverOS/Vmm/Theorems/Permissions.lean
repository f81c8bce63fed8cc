import RoverOS.Paging.Theorems.Levels
import RoverOS.Vmm.Theorems.Frame

-- Which permissions a mapped page has in the end. The upper levels keep the bits for the user and for
-- execution that they had before.

open Radix (walk Tree)

namespace RoverOS.Vmm

open Paging

-- The frames of the pool are cleared.
def Cleared (s : Vm) : Prop :=
  ∀ f ∈ spareFrames s, ∀ j, s.tables f j = 0#64

-- What all writes keep of the upper levels.
structure KeepsUpper (roots : Set Word) (_ : Word → Word → Prop) (s s' : Vm) : Prop where
  walk : ∀ {r p a}, r ∈ roots → p.length ≤ 3 → walk child s.tables r p = some a →
    Radix.walk child s'.tables r p = some a
  bits : ∀ {r p i}, r ∈ roots → p.length < 3 → upperBits s' r p i = upperBits s r p i

variable {roots : Set Word} {root heapEnd phys virt flags f tbl : Word} {fuel : Nat} {s s' : Vm}
variable {space : PageSpace} {n : Index} {q p : List Index} {frames : List Word}

theorem keepsUpper_writeRule : WriteRule roots (fun c => ∀ j, c j = 0#64) (KeepsUpper roots) where
  blank h j       := by rw [h, tableBase_zero]
  refl _          := ⟨fun _ _ h => h, fun _ _ => rfl⟩
  trans k₁ k₂     := ⟨fun hr hp h => k₂.walk hr hp (k₁.walk hr hp h),
    fun hr hp => (k₂.bits hr hp).trans (k₁.bits hr hp)⟩
  mono k _        := ⟨k.walk, k.bits⟩
  congr k h₁ _ h₂ _ := {
    walk := fun hr hp h => h₂ ▸ k.walk hr hp (h₁ ▸ h)
    bits := fun hr hp => (upperBits_congr h₂).trans ((k.bits hr hp).trans (upperBits_congr h₁).symm)
  }
  walk k          := k.walk
  link t hr hq hw hb hf hz := {
    walk := fun hr' hp h =>
      hf.walk_link_extends t hr hq hw hb (fun _ j => by rw [hz, tableBase_zero]) hr' hp h
    bits := fun hr' hp => upperBits_link t hr hq hw hb hf hz hr' hp
  }
  finish t hr h₁ h₂ h₃ := {
    walk := fun hr' hp h => finish_walk t hr h₃ hr' hp ▸ h
    bits := fun hr' hp => upperBits_finish t hr h₁ h₂ h₃ hr' hp
  }

theorem permits_cleared (t : PageTables roots (spareFrames s) s) (hr : space.pml4e ∈ roots) (hz : Cleared s)
    (h : mapPage (newPagetable heapEnd fuel) space phys virt flags s = .ok s') :
    Permits flags (levels s' space.pml4e virt) ↔
      Granted phys flags (uppers s s.pageFrames.items space.pml4e (path virt)) := by
  have np : Provides roots s.space.pml4e (fun _ _ => True) (fun c => ∀ j, c j = 0#64)
      (KeepsUpper roots fun _ _ => False) (newPagetable heapEnd fuel) :=
    newPagetable_provides keepsUpper_writeRule protects_nothing fuel
  have hs : Pooled roots s.space.pml4e (fun _ _ => True) (fun c => ∀ j, c j = 0#64) [] s := ⟨t, hz, trivial, rfl⟩
  obtain ⟨s₃, _, _, _, hs₃, k, h₁, h₂, h₃, rfl⟩ := (np.linkRule keepsUpper_writeRule hr).mapPage hs h
  have hframes : ∀ f ∈ s.pageFrames.items, ∀ j, s.tables f j = 0#64 :=
    fun f hf => hz f (List.mem_append_left _ hf)
  have hu : (uppers s₃ [] space.pml4e (path virt)).map (· &&& leafBits) =
      (uppers s s.pageFrames.items space.pml4e (path virt)).map (· &&& leafBits) := by
    rw [uppers_zero (by simp), uppers_zero hframes, k.bits hr (by simp), k.bits hr (by simp), k.bits hr (by simp)]
  exact permits_finish hs₃.tables.tree hr (mapPage_aligned h).left h₁ h₂ h₃ hu

-- A pool that does not have to grow, and whose frames designate nothing, may have other bits left in them.
theorem Stock.upperRule (hr : root ∈ roots) :
    LinkRule (newPagetable heapEnd fuel) root virt (Stock roots root virt) fun s s' =>
      Keeps roots (fun r w => ¬(r = root ∧ SamePage w virt)) s s' ∧
        (uppers s' s'.pageFrames.items root (path virt)).map (· &&& leafBits) =
          (uppers s s.pageFrames.items root (path virt)).map (· &&& leafBits) where
  refl s         := ⟨.refl s, rfl⟩
  trans k₁ k₂    := ⟨k₁.left.trans k₂.left, k₂.right.trans k₁.right⟩
  walk k hp h    := k.left.walk hr (by simpa using hp.length_le) h
  link {s s₁ q n tbl f} hs hq hw hb hn he := by
    obtain ⟨hs', k, hne⟩ := (Stock.linkRule hr).link hs hq hw hb hn he
    refine ⟨hs', ⟨k, ?_⟩, hne⟩
    obtain ⟨p, hp⟩ := hq
    have hp : path virt = q ++ n :: p := by simp [← hp]
    have hlen : q.length + p.length = 2 := by
      have := congrArg List.length hp
      simp only [path_length, List.length_append, List.length_cons] at this
      omega
    have hm := missingTables_of_walk hp hw hb
    have hstock := hs.links.stocked
    obtain ⟨hi, ht, -⟩ := newPagetable_pops (by omega) hn
    have hspare {g : Word} (hg : g ∈ s.pageFrames.items) : Spare roots s₁ g := (hs.spare g hg).of_tables_eq ht
    have hbl (hne : p ≠ []) : Blank s₁ f := by
      intro j
      rw [ht]
      have hpos : 0 < p.length := List.length_pos_iff.mpr hne
      exact hs.links.blank 0 f (by omega) (by simp [hi]) j (by omega)
    have hu : uppers s s.pageFrames.items root (path virt) = uppers s₁ s.pageFrames.items root (path virt) :=
      uppers_congr ht.symm
    rw [hu, hi, hp]
    rw [← ht] at hw hb
    exact uppers_link (ht ▸ hs.tree) hr (by omega) hw hb (hspare (by simp [hi]))
      (fun g hg => hspare (hi ▸ List.mem_cons_of_mem f hg)) hbl

theorem permits_stocked (t : PageTables roots (spareFrames s) s) (hr : space.pml4e ∈ roots)
    (hl : StocksBlank s space.pml4e virt)
    (h : mapPage (newPagetable heapEnd fuel) space phys virt flags s = .ok s') :
    Permits flags (levels s' space.pml4e virt) ↔
      Granted phys flags (uppers s s.pageFrames.items space.pml4e (path virt)) := by
  have hs : Stock roots space.pml4e virt s :=
    ⟨t.tree, fun f hf => t.spare f (List.mem_append_left _ hf), (List.nodup_append.mp t.nodup).left, hl⟩
  obtain ⟨s₃, _, _, _, hs₃, k, h₁, h₂, h₃, rfl⟩ := (Stock.upperRule hr).mapPage hs h
  exact permits_finish hs₃.tree hr (mapPage_aligned h).left h₁ h₂ h₃ k.right

-- A page is for the user only if the levels above it were before, and is executable only if none of them
-- was not.
theorem mapPage_permits_iff (t : PageTables roots (spareFrames s) s) (hr : space.pml4e ∈ roots)
    (hl : StocksBlank s space.pml4e virt ∨ Cleared s)
    (h : mapPage (newPagetable heapEnd fuel) space phys virt flags s = .ok s') :
    Permits flags (levels s' space.pml4e virt) ↔
      Granted phys flags (uppers s s.pageFrames.items space.pml4e (path virt)) := by
  cases hl
  case inl hl => exact permits_stocked t hr hl h
  case inr hz => exact permits_cleared t hr hz h

section Example

theorem cleared_emptyVm : Cleared emptyVm :=
  fun _ _ _ => rfl

-- The tables have the bit for the user in all of their entries, and nothing else.
def userVm : Vm :=
  { emptyVm with tables := fun _ _ => pgUser }

theorem stocksBlank_userVm : StocksBlank userVm 0x1000 0x400000 :=
  ⟨by decide, fun _ _ _ _ _ _ => (by decide : tableBase pgUser = 0#64)⟩

-- The code of a program gets the permissions that were asked for.
theorem mapPage_permits_userVm :
    ∃ s', mapPage (newPagetable 0 5) ⟨0x1000⟩ 0x2000 0x400000 0x1E0 userVm = .ok s' ∧
      Has 0x1E0 pageFlagUser ∧ Has 0x1E0 pageFlagExecute ∧ Permits 0x1E0 (levels s' 0x1000 0x400000) := by
  have h : (mapPage (newPagetable 0 5) ⟨0x1000⟩ 0x2000 0x400000 0x1E0 userVm).map (fun _ => ()) = .ok () := rfl
  obtain ⟨s', h, -⟩ := Except.exists_ok_of_map h
  have ht : PageTables {0x1000} (spareFrames userVm) userVm :=
    pageTables_unmapped (fun _ => (by decide : tableBase pgUser = 0#64)) rfl (List.append_nil _)
  have hg : Granted 0x2000 0x1E0 (uppers userVm userVm.pageFrames.items 0x1000 (path 0x400000)) := by
    have hu : uppers userVm userVm.pageFrames.items 0x1000 (path 0x400000) = [pgUser, pgUser, pgUser] := by decide
    rw [hu]
    have hall {Q : Word → Prop} (h : Q pgUser) : ∀ e ∈ [pgUser, pgUser, pgUser], Q e := by simp [h]
    exact ⟨fun _ => hall (by decide), fun _ => ⟨hall (by decide), by decide⟩⟩
  exact ⟨s', h, by decide, by decide, (mapPage_permits_iff ht rfl (.inl stocksBlank_userVm) h).mpr hg⟩

-- A page for the user that is mapped in an empty space is not for the user.
theorem mapPage_not_permitted :
    ¬∀ (heapEnd : Word) (fuel : Nat) (roots : Set Word) (s s' : Vm) (space : PageSpace) (phys virt flags : Word),
      PageTables roots (spareFrames s) s → space.pml4e ∈ roots → Cleared s →
      mapPage (newPagetable heapEnd fuel) space phys virt flags s = .ok s' →
      Permits flags (levels s' space.pml4e virt) := by
  intro hc
  have h : (mapPage (newPagetable 0 5) ⟨0x1000⟩ 0x2000 0x400000 0x160 emptyVm).map
      (fun s' => (levels s' 0x1000 0x400000).head?) = .ok (some 0x2003) := rfl
  obtain ⟨s', h, hv⟩ := Except.exists_ok_of_map h
  have hp := hc 0 5 {0x1000} emptyVm s' ⟨0x1000⟩ 0x2000 0x400000 0x160 pageTables_emptyVm rfl cleared_emptyVm h
  have hu := hp.user.mpr (by decide) 0x2003 (List.mem_of_mem_head? hv)
  exact absurd hu (by decide)

end Example

end RoverOS.Vmm
