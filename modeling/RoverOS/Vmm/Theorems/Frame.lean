import RoverOS.Paging.Theorems.Pages
import RoverOS.Vmm.Theorems.RoundTrip

-- Which pages `mapPage` leaves alone. The frames of the pool come as they are: nothing clears them.

open Radix (walk Tree missing missing_append)

namespace RoverOS.Vmm

open Paging

def missingTables (s : Vm) (root virt : Word) : Nat :=
  missing child s.tables root (path virt)

-- The pool gives all missing tables without growing, and designates nothing with them. In the
-- lowest table the entry for `virt` is overwritten, so it does not matter.
structure StocksBlank (s : Vm) (root virt : Word) : Prop where
  stocked : missingTables s root virt = 0 ∨
    19 + missingTables s root virt ≤ s.pageFrames.items.length
  blank   : ∀ i f, i < missingTables s root virt → s.pageFrames.items[i]? = some f →
    ∀ j, (i + 1 = missingTables s root virt → j ≠ pteEntry virt) → tableBase (s.tables f j) = 0#64

-- The pool may also grow, with frames that are zero-filled, when another space than the current
-- task's is mapped.
def LinksBlank (s : Vm) (space : PageSpace) (virt : Word) : Prop :=
  StocksBlank s space.pml4e virt ∨
    (space.pml4e ≠ s.space.pml4e ∧ ∀ f ∈ spareFrames s, Blank s f)

-- Of the pages of a space, only the one of `virt` is translated differently.
def OnlyMaps (s s' : Vm) (space : PageSpace) (virt : Word) : Prop :=
  ∀ w, isUnaligned w = 0#64 → (w ^^^ virt) &&& pageMask ≠ 0#64 →
    virtToPhysInt s' space w = virtToPhysInt s space w

variable {roots : Set Word} {root heapEnd phys virt flags f : Word} {fuel : Nat} {s s' : Vm}
variable {space : PageSpace} {j : Index}

theorem newPagetable_pops (hc : 20 ≤ s.pageFrames.items.length)
    (h : newPagetable heapEnd fuel s = .ok (f, s')) :
    s.pageFrames.items = f :: s'.pageFrames.items ∧ s'.tables = s.tables ∧ s'.space = s.space := by
  obtain ⟨stack, hi, hs⟩ := newPagetable_pop h hc
  subst hs
  exact ⟨hi, rfl, rfl⟩

-- What the links of one `mapPage` call start from.
structure Stock (roots : Set Word) (root virt : Word) (s : Vm) : Prop where
  tree  : Tree child s.tables roots 3
  spare : ∀ f ∈ s.pageFrames.items, Spare roots s f
  nodup : s.pageFrames.items.Nodup
  links : StocksBlank s root virt

theorem missingTables_of_walk {q p : List Index} {n : Index} {tbl : Word}
    (hp : path virt = q ++ n :: p) (hw : walk child s.tables root q = some tbl)
    (hb : tableBase (s.tables tbl n) = 0#64) : missingTables s root virt = p.length + 1 := by
  rw [missingTables, hp, missing_append hw]
  simp [missing, child_eq_none_iff.mpr hb]

theorem Stock.linkRule (hr : root ∈ roots) :
    LinkRule (newPagetable heapEnd fuel) root virt (Stock roots root virt)
      (Keeps roots fun r w => ¬(r = root ∧ SamePage w virt)) where
  refl           := Keeps.refl
  trans          := Keeps.trans
  walk k hp h    := k.walk hr (by simpa using hp.length_le) h
  link {s s₁ q n tbl f} hs hq hw hb hn he := by
    have ⟨p, hp⟩ := hq
    have hp : path virt = q ++ n :: p := by simp [← hp]
    have hlen : q.length + p.length = 2 := by
      have := congrArg List.length hp
      simp only [path_length, List.length_append, List.length_cons] at this
      omega
    have hm := missingTables_of_walk hp hw hb
    have hstock := hs.links.stocked
    have ⟨hi, ht, hsp⟩ := newPagetable_pops (by omega) hn
    have hnd := hs.nodup
    rw [hi] at hnd
    have hspare {g} (hg : g ∈ s.pageFrames.items) : Spare roots s₁ g :=
      (hs.spare g hg).of_tables_eq ht
    have hf : Spare roots s₁ f := hspare (by simp [hi])
    have hbl := hs.links.blank 0 f (by omega) (by simp [hi])
    rw [← ht] at hw hb hbl
    have tree : Tree child s₁.tables roots 3 := ht ▸ hs.tree
    have hz (h : q.length + 1 < 3) : Blank s₁ f := fun j => hbl j (by omega)
    have hq3 : q.length < 3 := by omega
    have hcontents {g} (hg : Spare roots s₁ g) : (s₁.orEntry tbl n f).tables g = s₁.tables g :=
      hg.contents ⟨root, hr, q, hq3.le, hw⟩
    -- One table less is missing.
    have hm' : missingTables (s₁.orEntry tbl n f) root virt = p.length := by
      have hw' := hf.walk_link_new tree hr hq3 hw hb
      rw [missingTables, hp, (by simp : q ++ n :: p = q ++ [n] ++ p), missing_append hw']
      by_cases h : q.length + 1 < 3
      case pos =>
        apply Radix.missing_of_child_none
        intro i
        rw [hcontents hf]
        exact child_eq_none_iff.mpr (hz h i)
      case neg =>
        have hnil : p = [] := List.length_eq_zero_iff.mp (by omega)
        rw [hnil]
        rfl
    refine ⟨⟨hf.tree_link tree hr hq3 hw hb hz, ?spare, hnd.of_cons, ?stocked, ?blank⟩, ?keeps, ?base⟩
    case spare =>
      exact hf.link_rest tree hr hq3 hw hb hz hnd fun g hg => hspare (hi ▸ List.mem_cons_of_mem f hg)
    case stocked =>
      simp only [hi, List.length_cons] at hstock
      simp only [hm', Vm.orEntry_pageFrames]
      omega
    case blank =>
      intro i g hlt hg j hj
      rw [hm'] at hlt hj
      have hg' : s.pageFrames.items[i + 1]? = some g := by
        rw [hi]
        exact hg
      rw [hcontents (hspare (List.mem_of_getElem? hg')), ht]
      exact hs.links.blank (i + 1) g (by omega) hg' j fun h => hj (by omega)
    case keeps =>
      refine ((Keeps.refl s).congr rfl rfl ht hsp).trans {
        walk      := fun hr' hp h => hf.walk_link_extends tree hr hq3 hw hb hz hr' hp h
        translate := fun hr' hne => hf.translate_link tree hr hq3 hw hb hz hr' fun h hpw => ?_
        space     := rfl
      }
      have hnil : p = [] := by
        have := congrArg List.length hpw
        simp only [path_length, List.length_append, List.length_singleton] at this
        exact List.length_eq_zero_iff.mp (by omega)
      rw [hnil] at hp
      exact hbl _ fun _ he => hne ⟨h, hpw.trans hp.symm, he⟩
    case base =>
      rw [← ht, tableBase_link hb hf.aligned]
      exact hf.nonzero

theorem mapPage_stocked (t : PageTables roots (spareFrames s) s) (hr : space.pml4e ∈ roots)
    (hl : StocksBlank s space.pml4e virt)
    (h : mapPage (newPagetable heapEnd fuel) space phys virt flags s = .ok s') :
    Keeps roots (fun r w => ¬(r = space.pml4e ∧ SamePage w virt)) s s' := by
  have hs : Stock roots space.pml4e virt s :=
    ⟨t.tree, fun f hf => t.spare f (List.mem_append_left _ hf), (List.nodup_append.mp t.nodup).left, hl⟩
  have ⟨s₃, _, _, _, hs₃, k, h₁, h₂, h₃, he⟩ := (Stock.linkRule hr).mapPage hs h
  subst he
  refine k.trans {
    walk      := fun hr' hp h => finish_walk hs₃.tree hr h₃ hr' hp ▸ h
    translate := fun hr' hw => ?_
    space     := rfl
  }
  rw [Paging.translate, finish_leaf hs₃.tree hr h₁ h₂ h₃ hr' hw, Paging.translate]

theorem protects_other {task : Word} :
    Protects heapEnd task (fun r _ => r ≠ task) (fun _ _ => True) where
  grow _ _ := ⟨trivial, fun _ _ _ h => absurd rfl h⟩

theorem mapPage_other_space (t : PageTables roots (spareFrames s) s) (hr : space.pml4e ∈ roots)
    (hz : ∀ f ∈ spareFrames s, Blank s f)
    (h : mapPage (newPagetable heapEnd fuel) space phys virt flags s = .ok s') :
    Keeps roots (fun r w => r ≠ s.space.pml4e ∧ ¬(r = space.pml4e ∧ SamePage w virt)) s s' :=
  have hs : Ready roots s.space.pml4e (fun _ _ => True) [] s := ⟨t, hz, trivial, rfl⟩
  have sp : Supplies roots s.space.pml4e (fun r _ => r ≠ s.space.pml4e) (fun _ _ => True)
      (newPagetable heapEnd fuel) :=
    newPagetable_supplies protects_other fuel
  (sp.mapPage hs hr h).right.left

theorem mapPage_onlyMaps (t : PageTables roots (spareFrames s) s) (hr : space.pml4e ∈ roots)
    (h : mapPage (newPagetable heapEnd fuel) space phys virt flags s = .ok s')
    (hl : LinksBlank s space virt) : OnlyMaps s s' space virt := by
  intro w _ hw
  have hne : ¬(space.pml4e = space.pml4e ∧ SamePage w virt) :=
    fun h => hw (samePage_iff_xor.mp h.right)
  rw [virtToPhysInt_eq, virtToPhysInt_eq]
  cases hl
  case inl hl => exact (mapPage_stocked t hr hl h).translate hr hne
  case inr hl => exact (mapPage_other_space t hr hl.right h).translate hr ⟨hl.left, hne⟩

-- When one table is missing, the frame on top of the stack becomes the lowest table, and its other
-- entries map the pages beside `virt`.
theorem mapPage_links_top (t : PageTables roots (spareFrames s) s) (hr : space.pml4e ∈ roots)
    (hm : missingTables s space.pml4e virt = 1) (hc : 20 ≤ s.pageFrames.items.length)
    (h : mapPage (newPagetable heapEnd fuel) space phys virt flags s = .ok s')
    (hi : s.pageFrames.items[0]? = some f) (hj : j ≠ pteEntry virt) :
    leaf s' space.pml4e (withPte virt j) = some (s.tables f j) := by
  let linked (u : Vm) : Prop :=
    leaf u space.pml4e (withPte virt j) = some (s.tables f j)
  have l : LinkRule (newPagetable heapEnd fuel) space.pml4e virt
      (fun u => Tree child u.tables roots 3 ∧ (u = s ∨ linked u))
      (fun u u' => ∀ p a, p <+: path virt → walk child u.tables space.pml4e p = some a →
        walk child u'.tables space.pml4e p = some a) := by
    refine ⟨fun _ _ _ _ h => h, fun h₁ h₂ p a hp h => h₂ p a hp (h₁ p a hp h),
      fun k hp h => k _ _ hp h, ?_⟩
    intro u u₁ q n tbl g hu hq hw hb hn he
    obtain ⟨p, hp⟩ := hq
    have hp : path virt = q ++ n :: p := by simp [← hp]
    have hu : u = s := by
      refine hu.right.resolve_right fun hl => ?_
      simp only [linked, leaf, path_withPte, Option.map_eq_some_iff] at hl
      obtain ⟨pt, hpt, _⟩ := hl
      rw [hp, Radix.walk_append, hw] at hpt
      simp [walk, child_eq_none_iff.mpr hb] at hpt
    subst hu
    have hnil : p = [] := by
      rw [missingTables_of_walk hp hw hb] at hm
      exact List.length_eq_zero_iff.mp (by omega)
    rw [hnil] at hp
    have hq2 : q.length = 2 := by
      have := congrArg List.length hp
      simpa using this.symm
    obtain ⟨hi', ht, _⟩ := newPagetable_pops hc hn
    have hg : g = f := by simpa [hi'] using hi
    subst hg
    have hf : Spare roots u₁ g :=
      (t.spare g (by simp [spareFrames, hi'])).of_tables_eq ht
    have tree : Tree child u₁.tables roots 3 := ht ▸ t.tree
    rw [← ht] at hw hb
    have hz (h : q.length + 1 < 3) : Blank u₁ g := by omega
    have hq3 : q.length < 3 := by omega
    refine ⟨⟨hf.tree_link tree hr hq3 hw hb hz, .inr ?_⟩, ?_, ?_⟩
    · have hne : g ≠ tbl := hf.ne_of_inUse ⟨_, hr, q, hq3.le, hw⟩
      simp only [linked, leaf, path_withPte, hp, pteEntry_withPte]
      rw [hf.walk_link_new tree hr hq3 hw hb]
      simp [Radix.Tables.set_of_ne_table hne, ht]
    · intro p a hp h
      rw [← ht] at h
      exact hf.walk_link_extends tree hr hq3 hw hb hz hr (by simpa using hp.length_le) h
    · rw [← ht, tableBase_link hb hf.aligned]
      exact hf.nonzero
  obtain ⟨s₃, _, _, _, ⟨tree, hs₃⟩, _, h₁, h₂, h₃, he⟩ := l.mapPage ⟨t.tree, .inl rfl⟩ h
  have hlinked : linked s₃ := by
    refine hs₃.resolve_left fun he => ?_
    rw [he] at h₃
    rw [missingTables, Radix.missing_of_walk h₃] at hm
    cases hm
  rw [he, finish_leaf tree hr h₁ h₂ h₃ hr]
  · exact hlinked
  · intro h
    rw [SamePage, pteEntry_withPte] at h
    exact hj h.right.right

theorem mapPage_onlyMaps_converse (t : PageTables roots (spareFrames s) s)
    (hr : space.pml4e ∈ roots) (hm : missingTables s space.pml4e virt = 1)
    (hc : 20 ≤ s.pageFrames.items.length)
    (h : mapPage (newPagetable heapEnd fuel) space phys virt flags s = .ok s')
    (ho : OnlyMaps s s' space virt) : StocksBlank s space.pml4e virt := by
  refine ⟨.inr (by omega), ?_⟩
  intro i f hlt hi j hj
  have h0 : i = 0 := by omega
  subst h0
  have hj := hj hm.symm
  have hw : ((withPte virt j) ^^^ virt) &&& pageMask ≠ 0#64 := by
    intro h
    have ⟨_, h⟩ := samePage_iff_xor.mpr h
    exact hj (pteEntry_withPte.symm.trans h)
  have hbefore : leaf s space.pml4e (withPte virt j) = none := by
    rw [leaf, path_withPte]
    cases hp : walk child s.tables space.pml4e (path virt)
    case none => rfl
    case some pt =>
      rw [missingTables, Radix.missing_of_walk hp] at hm
      cases hm
  have ho := ho _ isUnaligned_withPte hw
  rw [virtToPhysInt_eq, virtToPhysInt_eq, hbefore, mapPage_links_top t hr hm hc h hi hj] at ho
  simpa using ho

-- Blank frames are enough, and when only the lowest table is missing they are also needed.
theorem mapPage_frame_rule (t : PageTables roots (spareFrames s) s) (hr : space.pml4e ∈ roots)
    (h : mapPage (newPagetable heapEnd fuel) space phys virt flags s = .ok s') :
    (LinksBlank s space virt → OnlyMaps s s' space virt) ∧
      (missingTables s space.pml4e virt = 1 → 20 ≤ s.pageFrames.items.length →
        OnlyMaps s s' space virt → LinksBlank s space virt) :=
  ⟨mapPage_onlyMaps t hr h, fun hm hc ho => .inl (mapPage_onlyMaps_converse t hr hm hc h ho)⟩

-- The first mapping of a space links three tables.
theorem mapPage_frame_rule_emptyVm :
    ∃ s', mapPage (newPagetable 0 5) ⟨0x1000⟩ 0x2000 0x400000 0x120 emptyVm = .ok s' ∧
      OnlyMaps emptyVm s' ⟨0x1000⟩ 0x400000 := by
  have h : (mapPage (newPagetable 0 5) ⟨0x1000⟩ 0x2000 0x400000 0x120 emptyVm).map (fun _ => ()) =
      .ok () :=
    rfl
  have ⟨s', h, _⟩ := Except.exists_ok_of_map h
  have hl : StocksBlank emptyVm 0x1000 0x400000 := ⟨by decide, fun _ _ _ _ _ _ => tableBase_zero⟩
  exact ⟨s', h, (mapPage_frame_rule pageTables_emptyVm rfl h).left (.inl hl)⟩

-- The same pool, but the third frame was in use before and still has an entry.
def dirtyVm : Vm :=
  emptyVm.setEntry 0x4000 5 0x7000

theorem pageTables_dirtyVm : PageTables {0x1000} (spareFrames dirtyVm) dirtyVm :=
  have h (i : Index) : tableBase (dirtyVm.tables 0x1000 i) = 0#64 := by
    simp [dirtyVm, Radix.Tables.set, emptyVm]
  pageTables_unmapped h rfl (List.append_nil _)

-- The old entry maps the page at `0x405000` when the one at `0x400000` is mapped.
theorem mapPage_maps_more :
    ¬∀ (heapEnd : Word) (fuel : Nat) (roots : Set Word) (s s' : Vm) (space : PageSpace)
      (phys virt flags : Word), PageTables roots (spareFrames s) s → space.pml4e ∈ roots →
      mapPage (newPagetable heapEnd fuel) space phys virt flags s = .ok s' →
      OnlyMaps s s' space virt := by
  intro hc
  have h : (mapPage (newPagetable 0 5) ⟨0x1000⟩ 0x2000 0x400000 0x120 dirtyVm).map
      (virtToPhysInt · ⟨0x1000⟩ 0x405000) = .ok 0x7000 :=
    rfl
  have ⟨s', h, hv⟩ := Except.exists_ok_of_map h
  have ho := hc 0 5 {0x1000} dirtyVm s' ⟨0x1000⟩ 0x2000 0x400000 0x120 pageTables_dirtyVm rfl h
  have he := ho 0x405000 (by decide) (by decide)
  rw [hv] at he
  exact absurd he (by decide)

end RoverOS.Vmm
