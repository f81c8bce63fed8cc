import RoverOS.Vmm.Theorems.Frame

-- What is kept of the leaves when pages are mapped: by any number of pages when another space than the
-- current task's is mapped, or when the pool has the frames for all tables that are missing.

open Radix (walk Tree)
open Sweep (Kept)

namespace RoverOS.Vmm

open Paging

-- Nothing that was linked is unlinked, and the leaves of the pages in `P` stay. A new table has no
-- address in its entries.
structure KeepsLeaves (roots : Set Word) (P : Word → Word → Prop) (s s' : Vm) : Prop where
  walk : ∀ {r p a}, r ∈ roots → p.length ≤ 3 → walk child s.tables r p = some a →
    Radix.walk child s'.tables r p = some a
  leaf : ∀ {r w}, r ∈ roots → P r w → Kept (tableBase · = 0#64) (leaf s r w) (leaf s' r w)

variable {roots : Set Word} {root heapEnd phys virt flags f : Word} {fuel : Nat} {s s' s₁ s₂ s₃ : Vm}
variable {space : PageSpace} {P P' : Word → Word → Prop} {n : Index} {q p : List Index}

namespace KeepsLeaves

theorem refl (s : Vm) : KeepsLeaves roots P s s :=
  ⟨fun _ _ h => h, fun _ _ => .refl _⟩

theorem trans (k₁ : KeepsLeaves roots P s₁ s₂) (k₂ : KeepsLeaves roots P s₂ s₃) : KeepsLeaves roots P s₁ s₃ where
  walk hr hp h := k₂.walk hr hp (k₁.walk hr hp h)
  leaf hr hw   := (k₁.leaf hr hw).trans (k₂.leaf hr hw)

theorem mono (k : KeepsLeaves roots P s s') (h : ∀ r w, P' r w → P r w) : KeepsLeaves roots P' s s' :=
  ⟨k.walk, fun hr hw => k.leaf hr (h _ _ hw)⟩

theorem congr (k : KeepsLeaves roots P s₁ s₂) (h₁ : s.tables = s₁.tables) (h₂ : s'.tables = s₂.tables) :
    KeepsLeaves roots P s s' where
  walk hr hp hw := h₂ ▸ k.walk hr hp (h₁ ▸ hw)
  leaf hr hw    := by
    have h := k.leaf hr hw
    simpa only [Paging.leaf, h₁, h₂] using h

end KeepsLeaves

theorem keepsLeaves_finish {pdpe pde pte : Word} (t : Tree child s.tables roots 3) (hr : root ∈ roots)
    (h₁ : walk child s.tables root [pmlEntry virt] = some pdpe)
    (h₂ : walk child s.tables root [pmlEntry virt, pdpeEntry virt] = some pde)
    (h₃ : walk child s.tables root (path virt) = some pte) :
    KeepsLeaves roots (fun r w => ¬(r = root ∧ SamePage w virt)) s (finish root pdpe pde pte virt phys flags s) where
  walk hr' hp h := finish_walk t hr h₃ hr' hp ▸ h
  leaf hr' hw   := .inl (finish_leaf t hr h₁ h₂ h₃ hr' hw)

theorem keepsLeaves_writeRule : WriteRule roots BlankFrame (KeepsLeaves roots) where
  blank h               := h
  refl                  := KeepsLeaves.refl
  trans                 := KeepsLeaves.trans
  mono                  := KeepsLeaves.mono
  congr k h₁ _ h₂ _     := k.congr h₁ h₂
  walk k                := k.walk
  finish                := keepsLeaves_finish
  link t hr hq hw hb hf hz := {
    walk := fun hr' hp h => hf.walk_link_extends t hr hq hw hb (fun _ => hz) hr' hp h
    leaf := fun hr' _ => hf.leaf_link t hr hq hw hb (fun _ => hz) hr' fun _ _ => hz _
  }

-- Growing the pool maps pages of the current task only.
theorem newPagetable_other {task : Word} : Provides roots task (fun _ _ => True) BlankFrame
    (KeepsLeaves roots fun r _ => r ≠ task) (newPagetable heapEnd fuel) :=
  newPagetable_provides keepsLeaves_writeRule protects_other fuel

section Stock

-- The tables that are missing for the pages with paths in `V`.
def missingPaths (s : Vm) (root : Word) (V : Finset (List Index)) : Finset (List Index) :=
  (V.biUnion fun p => p.inits.toFinset).filter fun q => walk child s.tables root q = none

-- The pool has the frames for them without growing, and designates nothing with them.
structure StocksAll (roots : Set Word) (root : Word) (V : Finset (List Index)) (s : Vm) : Prop where
  tree  : Tree child s.tables roots 3
  spare : ∀ f ∈ s.pageFrames.items, Spare roots s f
  nodup : s.pageFrames.items.Nodup
  blank : ∀ f ∈ s.pageFrames.items, Blank s f
  stock : (missingPaths s root V).card = 0 ∨ 19 + (missingPaths s root V).card ≤ s.pageFrames.items.length

variable {V : Finset (List Index)}

theorem mem_missingPaths : q ∈ missingPaths s root V ↔ (∃ p ∈ V, q <+: p) ∧ walk child s.tables root q = none := by
  simp [missingPaths]

theorem mem_missing_of_link (hV : path virt ∈ V) (hq : q ++ [n] <+: path virt)
    (hw : walk child s.tables root q = some tbl) (hb : tableBase (s.tables tbl n) = 0#64) :
    q ++ [n] ∈ missingPaths s root V :=
  mem_missingPaths.mpr ⟨⟨_, hV, hq⟩, walk_link_none hw hb⟩

-- The table that is linked is not missing any more, and the others are as before.
theorem missingPaths_link (tree : Tree child s.tables roots 3) (hr : root ∈ roots) (hq : q.length < 3)
    (hw : walk child s.tables root q = some tbl) (hb : tableBase (s.tables tbl n) = 0#64) (hf : Spare roots s f)
    (hz : q.length + 1 < 3 → Blank s f) (hlen : ∀ p ∈ V, p.length ≤ 3) :
    missingPaths (s.orEntry tbl n f) root V = (missingPaths s root V).erase (q ++ [n]) := by
  ext p
  rw [Finset.mem_erase, mem_missingPaths, mem_missingPaths]
  by_cases hp : p = q ++ [n]
  case pos =>
    rw [hp, hf.walk_link_new tree hr hq hw hb]
    simp
  case neg =>
    have hwalk (hV : ∃ p' ∈ V, p <+: p') : walk child (s.orEntry tbl n f).tables root p = walk child s.tables root p := by
      obtain ⟨p', hp', hpre⟩ := hV
      exact hf.walk_link tree hr hq hw hb hz hr (hpre.length_le.trans (hlen p' hp')) fun h => hp h.right
    constructor
    · exact fun h => ⟨hp, h.left, hwalk h.left ▸ h.right⟩
    · exact fun h => ⟨h.right.left, (hwalk h.right.left).trans h.right.right⟩

theorem StocksAll.linkRule (hr : root ∈ roots) (hV : path virt ∈ V) (hlen : ∀ p ∈ V, p.length ≤ 3) :
    LinkRule (newPagetable heapEnd fuel) root virt (StocksAll roots root V) (KeepsLeaves roots fun _ _ => True) where
  refl           := KeepsLeaves.refl
  trans          := KeepsLeaves.trans
  walk k hp h    := k.walk hr (by simpa using hp.length_le) h
  link {s s₁ q n tbl f} hs hq hw hb hn he := by
    have hq3 : q.length < 3 := by simpa [Nat.lt_succ_iff] using hq.length_le
    have hmem := mem_missing_of_link hV hq hw hb
    have hpos : 0 < (missingPaths s root V).card := Finset.card_pos.mpr ⟨_, hmem⟩
    have hstock := hs.stock
    obtain ⟨hi, ht, -⟩ := newPagetable_pops (by omega) hn
    have hspare {g : Word} (hg : g ∈ s.pageFrames.items) : Spare roots s₁ g := (hs.spare g hg).of_tables_eq ht
    have hblank {g : Word} (hg : g ∈ s.pageFrames.items) : Blank s₁ g := by
      rw [Blank, ht]
      exact hs.blank g hg
    have hmiss : missingPaths s₁ root V = missingPaths s root V := by rw [missingPaths, missingPaths, ht]
    have hfs : f ∈ s.pageFrames.items := by simp [hi]
    have hf := hspare hfs
    have hz (_ : q.length + 1 < 3) : Blank s₁ f := hblank hfs
    have tree : Tree child s₁.tables roots 3 := ht ▸ hs.tree
    have hnd := hs.nodup
    rw [hi] at hnd
    rw [← ht] at hw hb
    -- One table less is missing.
    have hm := missingPaths_link tree hr hq3 hw hb hf hz hlen
    rw [hmiss] at hm
    have hcard := Finset.card_erase_of_mem hmem
    refine ⟨⟨hf.tree_link tree hr hq3 hw hb hz, ?spare, hnd.of_cons, ?blank, ?stock⟩, ?keeps, ?base⟩
    case spare =>
      exact hf.link_rest tree hr hq3 hw hb hz hnd fun g hg => hspare (hi ▸ List.mem_cons_of_mem f hg)
    case blank =>
      intro g hg
      have hg : g ∈ s.pageFrames.items := hi ▸ List.mem_cons_of_mem f hg
      rw [Blank, Vm.orEntry, (hspare hg).contents ⟨root, hr, q, hq3.le, hw⟩]
      exact hblank hg
    case stock =>
      simp only [hi, List.length_cons] at hstock
      simp only [hm, hcard, Vm.orEntry_pageFrames]
      omega
    case keeps =>
      refine ((KeepsLeaves.refl s).congr rfl ht).trans {
        walk := fun hr' hp h => hf.walk_link_extends tree hr hq3 hw hb hz hr' hp h
        leaf := fun hr' _ => hf.leaf_link tree hr hq3 hw hb hz hr' fun _ _ => hblank hfs _
      }
    case base =>
      rw [← ht, tableBase_link hb hf.aligned]
      exact hf.nonzero

theorem StocksAll.mapPage (hs : StocksAll roots space.pml4e V s) (hr : space.pml4e ∈ roots) (hV : path virt ∈ V)
    (hlen : ∀ p ∈ V, p.length ≤ 3)
    (h : mapPage (newPagetable heapEnd fuel) space phys virt flags s = .ok s') :
    StocksAll roots space.pml4e V s' ∧ KeepsLeaves roots (fun r w => ¬(r = space.pml4e ∧ SamePage w virt)) s s' ∧
      leaf s' space.pml4e virt = some (pgflags flags ||| phys) := by
  obtain ⟨s₃, pdpe, pde, pte, hs₃, k, h₁, h₂, h₃, rfl⟩ := (StocksAll.linkRule hr hV hlen).mapPage hs h
  have t := hs₃.tree
  have hm : missingPaths (finish space.pml4e pdpe pde pte virt phys flags s₃) space.pml4e V =
      missingPaths s₃ space.pml4e V := by
    ext p
    rw [mem_missingPaths, mem_missingPaths]
    refine and_congr_right fun hV => ?_
    obtain ⟨p', hp', hpre⟩ := hV
    rw [finish_walk t hr h₃ hr (hpre.length_le.trans (hlen p' hp'))]
  refine ⟨⟨finish_tree t hr h₃, ?spare, hs₃.nodup, ?blank, ?stock⟩, ?keeps, finish_leaf_same t hr h₃⟩
  case spare => exact fun f hf => finish_spare t hr h₃ (hs₃.spare f hf)
  case blank =>
    intro f hf
    rw [Blank, finish_contents hr h₁ h₂ h₃ (hs₃.spare f hf)]
    exact hs₃.blank f hf
  case stock =>
    rw [hm]
    exact hs₃.stock
  case keeps => exact (k.mono fun _ _ _ => trivial).trans (keepsLeaves_finish t hr h₁ h₂ h₃)

end Stock

end RoverOS.Vmm
