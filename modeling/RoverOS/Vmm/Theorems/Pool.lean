import RoverOS.Vmm.Basic
import RoverOS.Paging.Theorems.MapPage

-- The pool of frames for new tables. `newPagetable` may have to grow the pool, which maps the new
-- frames and so calls `mapPage`, which may call `newPagetable`: what such a call keeps is proved
-- for all of these functions at once, by induction on the fuel.

open Radix (walk Tree InUse)
open List (Perm perm_iff_count count_append count_reverse flatMap_cons)

namespace RoverOS.Vmm

open Paging

-- The frames that `newPagetable` can still give: those on the stack, and those that `growPageStack`
-- will push when the physical allocator answers it with the blocks to come.
def spareFrames (s : Vm) : List Word :=
  s.pageFrames.items ++ s.blocks.flatMap fun (phys, sz) => framesFrom phys (sz / 0x1000 + 1)

-- The page tables are a tree, and the frames in `l` are distinct from each other and from the
-- tables in use.
structure PageTables (roots : Set Word) (l : List Word) (s : Vm) : Prop where
  tree  : Tree child s.tables roots 3
  task  : s.space.pml4e ∈ roots
  spare : ∀ f ∈ l, Spare roots s f
  nodup : l.Nodup

-- Nothing that was linked is unlinked, and the pages in `P` are translated as before.
structure Keeps (roots : Set Word) (P : Word → Word → Prop) (s s' : Vm) : Prop where
  walk      : ∀ {r p a}, r ∈ roots → p.length ≤ 3 → walk child s.tables r p = some a →
    Radix.walk child s'.tables r p = some a
  translate : ∀ {r w}, r ∈ roots → P r w → translate s' r w = translate s r w
  space     : s'.space = s.space

-- `M` is an invariant of the markers and of the blocks to come, under which the pool is never
-- mapped over a page in `P` of the current task, whose tables start at `root`.
structure Protects (heapEnd root : Word) (P : Word → Word → Prop)
    (M : List VMarker → List (Word × Nat) → Prop) : Prop where
  grow : ∀ {head next phys sz blocks marker vmem}, M (head :: next) ((phys, sz) :: blocks) →
    allocMarker heapEnd head next sz vtypeData (vflagMake ||| vflagWrite) = (marker, vmem) →
    M vmem blocks ∧ ∀ b < pagesFor sz, ∀ w, P root w → ¬SamePage w (marker.base + pageBytes b)

-- The frames in `extra` and those to come are zero-filled.
structure Ready (roots : Set Word) (root : Word) (M : List VMarker → List (Word × Nat) → Prop)
    (extra : List Word) (s : Vm) : Prop where
  tables  : PageTables roots (extra ++ spareFrames s) s
  blank   : ∀ f ∈ extra ++ spareFrames s, Blank s f
  markers : M s.vmem s.blocks
  space   : s.space.pml4e = root

def Supplies (roots : Set Word) (root : Word) (P : Word → Word → Prop)
    (M : List VMarker → List (Word × Nat) → Prop)
    (newPagetable : Vm → Except Exit (Word × Vm)) : Prop :=
  ∀ {extra s s' f}, Ready roots root M extra s → newPagetable s = .ok (f, s') →
    Ready roots root M (f :: extra) s' ∧ Keeps roots P s s'

-- Like `Ready`, with any `Z` for the contents of the frames.
structure Pooled (roots : Set Word) (root : Word) (M : List VMarker → List (Word × Nat) → Prop)
    (Z : (Index → Word) → Prop) (extra : List Word) (s : Vm) : Prop where
  tables  : PageTables roots (extra ++ spareFrames s) s
  frames  : ∀ f ∈ extra ++ spareFrames s, Z (s.tables f)
  markers : M s.vmem s.blocks
  space   : s.space.pml4e = root

-- A relation that each write of `mapPage` keeps, with `P` for the pages that are not mapped. A frame that
-- is linked has contents in `Z`, and designates nothing.
structure WriteRule (roots : Set Word) (Z : (Index → Word) → Prop)
    (K : (Word → Word → Prop) → Vm → Vm → Prop) : Prop where
  blank  : ∀ {c}, Z c → ∀ j, tableBase (c j) = 0#64
  refl   : ∀ {P} s, K P s s
  trans  : ∀ {P s₁ s₂ s₃}, K P s₁ s₂ → K P s₂ s₃ → K P s₁ s₃
  mono   : ∀ {P P' : Word → Word → Prop} {s s'}, K P s s' → (∀ r w, P' r w → P r w) → K P' s s'
  congr  : ∀ {P s₁ s₂ s s'}, K P s₁ s₂ → s.tables = s₁.tables → s.space = s₁.space →
    s'.tables = s₂.tables → s'.space = s₂.space → K P s s'
  walk   : ∀ {P s s' r p a}, K P s s' → r ∈ roots → p.length ≤ 3 → walk child s.tables r p = some a →
    Radix.walk child s'.tables r p = some a
  link   : ∀ {P s r q n tbl f}, Tree child s.tables roots 3 → r ∈ roots → q.length < 3 →
    Radix.walk child s.tables r q = some tbl → tableBase (s.tables tbl n) = 0#64 → Spare roots s f →
    Z (s.tables f) → K P s (s.orEntry tbl n f)
  finish : ∀ {s r pdpe pde pte virt phys flags}, Tree child s.tables roots 3 → r ∈ roots →
    Radix.walk child s.tables r [pmlEntry virt] = some pdpe →
    Radix.walk child s.tables r [pmlEntry virt, pdpeEntry virt] = some pde →
    Radix.walk child s.tables r (path virt) = some pte →
    K (fun r' w => ¬(r' = r ∧ SamePage w virt)) s (Paging.finish r pdpe pde pte virt phys flags s)

-- What is asked of `newPagetable`.
structure Provides (roots : Set Word) (root : Word) (M : List VMarker → List (Word × Nat) → Prop)
    (Z : (Index → Word) → Prop) (K : Vm → Vm → Prop)
    (newPagetable : Vm → Except Exit (Word × Vm)) : Prop where
  give : ∀ {extra s s' f}, Pooled roots root M Z extra s → newPagetable s = .ok (f, s') →
    Pooled roots root M Z (f :: extra) s' ∧ K s s'

variable {roots : Set Word} {root : Word} {P : Word → Word → Prop}
variable {M : List VMarker → List (Word × Nat) → Prop}
variable {newPagetable : Vm → Except Exit (Word × Vm)} {heapEnd phys virt flags : Word}
variable {space : PageSpace} {extra l l' : List Word} {s s' s₁ s₂ s₃ : Vm}
variable {Z : (Index → Word) → Prop} {K : (Word → Word → Prop) → Vm → Vm → Prop}

-- Only the tables and the current space matter, not where the spare frames are kept.
theorem PageTables.move (t : PageTables roots l s) (h : s'.tables = s.tables)
    (hs : s'.space = s.space) (hp : Perm l l') : PageTables roots l' s' where
  tree  := h ▸ t.tree
  task  := hs ▸ t.task
  nodup := hp.nodup_iff.mp t.nodup
  spare f hf := (t.spare f (hp.mem_iff.mpr hf)).of_tables_eq h

namespace Keeps

theorem refl (s : Vm) : Keeps roots P s s :=
  ⟨fun _ _ h => h, fun _ _ => rfl, rfl⟩

theorem trans (k₁ : Keeps roots P s₁ s₂) (k₂ : Keeps roots P s₂ s₃) : Keeps roots P s₁ s₃ where
  walk hr hp h        := k₂.walk hr hp (k₁.walk hr hp h)
  translate hr hw     := (k₂.translate hr hw).trans (k₁.translate hr hw)
  space               := k₂.space.trans k₁.space

theorem congr (k : Keeps roots P s₁ s₂) (h₁ : s.tables = s₁.tables) (hs₁ : s.space = s₁.space)
    (h₂ : s'.tables = s₂.tables) (hs₂ : s'.space = s₂.space) : Keeps roots P s s' where
  walk hr hp hw   := h₂ ▸ k.walk hr hp (h₁ ▸ hw)
  translate hr hw := by
    have h := k.translate hr hw
    simpa only [Paging.translate, leaf, h₁, h₂] using h
  space           := hs₂.trans (k.space.trans hs₁.symm)

theorem mono {P' : Word → Word → Prop} (k : Keeps roots P s s') (h : ∀ r w, P' r w → P r w) :
    Keeps roots P' s s' :=
  ⟨k.walk, fun hr hw => k.translate hr (h _ _ hw), k.space⟩

end Keeps

theorem Pooled.move (hs : Pooled roots root M Z extra s) (h : s'.tables = s.tables)
    (hp : Perm (extra ++ spareFrames s) (l ++ spareFrames s')) (hm : M s'.vmem s'.blocks)
    (hsp : s'.space = s.space) : Pooled roots root M Z l s' where
  tables      := hs.tables.move h hsp hp
  frames f hf := by
    rw [h]
    exact hs.frames f (hp.mem_iff.mpr hf)
  markers     := hm
  space       := hsp ▸ hs.space

theorem pushFrames_items {frames : List Word} {stack stack' : Dstack}
    (h : pushFrames frames stack = .ok stack') :
    stack'.items = frames.reverse ++ stack.items := by
  unfold pushFrames at h
  induction frames generalizing stack
  case nil => cases h; rfl
  case cons f frames hi =>
    have ⟨_, h₁, h⟩ := Except.bind_ok_iff.mp h
    simp [hi h, Dstack.pushStack_items h₁]

theorem allocPhys_ok {block : Word × Nat} (h : allocPhys s = .ok (block, s')) :
    ∃ blocks, s.blocks = block :: blocks ∧ s' = { s with blocks } := by
  unfold allocPhys at h
  split at h
  case h_1 => cases h
  case h_2 hb =>
    cases h
    exact ⟨_, hb, rfl⟩

theorem extendStack_ok (h : extendStack s = .ok s') : ∃ block blocks stack,
    s.blocks = block :: blocks ∧
      stack.items = (framesFrom block.1 ((block.2 + 0xFFF) / 0x1000)).reverse ++ s.physStack.items ∧
      s' = { s with blocks, physStack := stack } := by
  have ⟨⟨block, _⟩, ha, h⟩ := Except.bind_ok_iff.mp h
  have ⟨blocks, hb, he⟩ := allocPhys_ok ha
  subst he
  have ⟨stack, hp, h⟩ := Except.bind_ok_iff.mp h
  cases h
  exact ⟨block, blocks, stack, hb, pushFrames_items hp, rfl⟩

theorem vmallocPhys_ok {bytes : Nat} {type virt : Word}
    (h : vmallocPhys heapEnd newPagetable phys bytes type flags s = .ok (virt, s')) :
    ∃ head next marker vmem, s.vmem = head :: next ∧
      allocMarker heapEnd head next bytes type flags = (marker, vmem) ∧ virt = marker.base ∧
      mapPages newPagetable s.space phys virt (formFlags flags) (pagesFor bytes) { s with vmem } =
        .ok s' := by
  unfold vmallocPhys at h
  split at h
  case h_1 => cases h
  case h_2 head next hv =>
    have ⟨s₁, h₁, h⟩ := Except.bind_ok_iff.mp h
    cases h
    exact ⟨head, next, _, _, hv, rfl, rfl, h₁⟩

theorem growPageStack_ok (h : growPageStack heapEnd newPagetable s = .ok s') :
    ∃ phys sz virt blocks stack s₁, s.blocks = (phys, sz) :: blocks ∧
      vmallocPhys heapEnd newPagetable phys sz vtypeData (vflagMake ||| vflagWrite)
        { s with blocks } = .ok (virt, s₁) ∧
      pushFrames (framesFrom phys (sz / 0x1000 + 1)) s₁.pageFrames = .ok stack ∧
      s' = { s₁ with pageFrames := stack } := by
  have ⟨⟨⟨phys, sz⟩, _⟩, ha, h⟩ := Except.bind_ok_iff.mp h
  have ⟨blocks, hb, he⟩ := allocPhys_ok ha
  subst he
  simp only at h
  split at h
  case h_1 => cases h
  case h_2 => cases h
  case h_3 virt s₁ hv =>
    split at h
    case isTrue  => cases h
    case isFalse =>
      have ⟨stack, hp, h⟩ := Except.bind_ok_iff.mp h
      cases h
      exact ⟨phys, sz, virt, blocks, stack, s₁, hb, hv, hp, rfl⟩

theorem newPagetable_pop {fuel : Nat} {f : Word} (h : Vmm.newPagetable heapEnd fuel s = .ok (f, s'))
    (hn : 20 ≤ s.pageFrames.items.length) :
    ∃ stack, s.pageFrames.items = f :: stack.items ∧ s' = { s with pageFrames := stack } := by
  cases fuel
  case zero => cases h
  case succ fuel =>
    have ⟨count, hc, h⟩ := Except.bind_ok_iff.mp h
    have ⟨s₁, hg, h⟩ := Except.bind_ok_iff.mp h
    rw [if_neg (by rw [Dstack.stackCount_eq hc]; omega)] at hg
    cases hg
    cases fuel
    case zero => cases h
    case succ fuel =>
      have ⟨⟨frame, stack⟩, hp, h⟩ := Except.bind_ok_iff.mp h
      cases frame
      case some frame =>
        cases h
        exact ⟨stack, Dstack.popStack_some hp, rfl⟩
      case none =>
        rw [Dstack.popStack_none hp] at hn
        simp at hn

section Provides

variable (wr : WriteRule roots Z K) (np : Provides roots root M Z (K P) newPagetable)

include wr np

theorem Provides.linkRule {r : Word} (hr : r ∈ roots) :
    LinkRule newPagetable r virt (Pooled roots root M Z extra) (K P) where
  refl           := wr.refl
  trans          := wr.trans
  walk k hp h    := wr.walk k hr (by simpa using hp.length_le) h
  link {s s₁ q n tbl f} hs hq hw hb hn he := by
    have ⟨⟨t, hz, hm, hsp⟩, k⟩ := np.give hs hn
    have hlt : q.length < 3 := by simpa [Nat.lt_succ_iff] using hq.length_le
    have hw := wr.walk k hr hlt.le hw
    rw [← he] at hb
    have hf := t.spare f (by simp)
    have hbl (_ : q.length + 1 < 3) : Blank s₁ f := wr.blank (hz f (by simp))
    have hnd := t.nodup
    simp only [List.cons_append, List.nodup_cons] at hnd
    have ht := hf.tree_link t.tree hr hlt hw hb hbl
    have hk := wr.link (P := P) t.tree hr hlt hw hb hf (hz f (by simp))
    refine ⟨⟨⟨ht, t.task, ?spare, hnd.right⟩, ?frames, hm, hsp⟩, wr.trans k hk, ?base⟩
    case spare =>
      intro g hg
      have hne : g ≠ f := by
        rintro rfl
        exact hnd.left hg
      exact hf.link t.tree hr hlt hw hb hbl (t.spare g (List.mem_cons_of_mem _ hg)) hne
    case frames =>
      intro g hg
      have hg := List.mem_cons_of_mem f hg
      rw [Vm.orEntry, (t.spare g hg).contents ⟨r, hr, q, hlt.le, hw⟩]
      exact hz g hg
    case base =>
      rw [← he, tableBase_link hb hf.aligned]
      exact hf.nonzero

theorem Provides.mapPage (hs : Pooled roots root M Z extra s) (hr : space.pml4e ∈ roots)
    (h : mapPage newPagetable space phys virt flags s = .ok s') :
    Pooled roots root M Z extra s' ∧ K (fun r w => P r w ∧ ¬(r = space.pml4e ∧ SamePage w virt)) s s' ∧
      leaf s' space.pml4e virt = some (pgflags flags ||| phys) := by
  have ⟨s₃, pdpe, pde, pte, ⟨t, hz, hm, hsp⟩, k, h₁, h₂, h₃, he⟩ := (np.linkRule wr hr).mapPage hs h
  subst he
  refine ⟨⟨⟨?tree, t.task, ?spare, t.nodup⟩, ?frames, hm, hsp⟩, ?keeps, finish_leaf_same t.tree hr h₃⟩
  case tree  => exact finish_tree t.tree hr h₃
  case spare => exact fun f hf => finish_spare t.tree hr h₃ (t.spare f hf)
  case frames =>
    intro f hf
    rw [finish_contents hr h₁ h₂ h₃ (t.spare f hf)]
    exact hz f hf
  case keeps =>
    exact wr.trans (wr.mono k fun _ _ h => h.left)
      (wr.mono (wr.finish t.tree hr h₁ h₂ h₃) fun _ _ h => h.right)

theorem Provides.mapPages_go {b n : Nat} (hs : Pooled roots root M Z extra s) (hr : space.pml4e ∈ roots)
    (hp : ∀ i < n, ∀ w, P space.pml4e w → ¬SamePage w (virt + pageBytes (b + i)))
    (h : mapPages.go newPagetable space phys virt flags b n s = .ok s') :
    Pooled roots root M Z extra s' ∧ K P s s' := by
  induction n generalizing b s
  case zero =>
    cases h
    exact ⟨hs, wr.refl _⟩
  case succ n hi =>
    have hp' : ∀ i < n, ∀ w, P space.pml4e w → ¬SamePage w (virt + pageBytes (b + 1 + i)) := by
      intro i hi w hw
      have := hp (i + 1) (by omega) w hw
      rwa [Nat.add_assoc, Nat.add_comm 1 i]
    simp only [mapPages.go] at h
    split at h
    case h_1 s₁ h₁ =>
      have ⟨hs₁, k₁, _⟩ := np.mapPage wr hs hr h₁
      have ⟨hs', k⟩ := hi hs₁ hp' h
      refine ⟨hs', wr.trans (wr.mono k₁ fun r w hw => ⟨hw, ?_⟩) k⟩
      rintro ⟨rfl, hv⟩
      exact hp 0 (by omega) w hw hv
    case h_2 =>
      split at h
      · cases h
      · exact hi hs hp' h
    case h_3 => cases h

theorem Provides.mapPages {n : Nat} (hs : Pooled roots root M Z extra s) (hr : space.pml4e ∈ roots)
    (hp : ∀ i < n, ∀ w, P space.pml4e w → ¬SamePage w (virt + pageBytes i))
    (h : mapPages newPagetable space phys virt flags n s = .ok s') :
    Pooled roots root M Z extra s' ∧ K P s s' := by
  unfold Paging.mapPages at h
  split at h
  · cases h
    exact ⟨hs, wr.refl _⟩
  · exact np.mapPages_go wr hs hr (by simpa using hp) h

variable (pr : Protects heapEnd root P M)

include pr

theorem Provides.growPageStack (hs : Pooled roots root M Z extra s)
    (h : growPageStack heapEnd newPagetable s = .ok s') :
    Pooled roots root M Z extra s' ∧ K P s s' := by
  have ⟨phys, sz, virt, blocks, stack, s₁, hb, hv, hp, he⟩ := growPageStack_ok h
  have ⟨head, next, marker, vmem, hm, ha, hvirt, hmap⟩ := vmallocPhys_ok hv
  subst he hvirt
  have ⟨hm', hprot⟩ := pr.grow (hb ▸ hm ▸ hs.markers) ha
  -- While the block is mapped, its frames are on neither stack, and still spare.
  have hs₀ : Pooled roots root M Z (framesFrom phys (sz / 0x1000 + 1) ++ extra)
      { s with blocks, vmem } := by
    refine hs.move rfl ?_ hm' rfl
    simp only [spareFrames, hb, flatMap_cons, perm_iff_count, count_append]
    omega
  have ⟨hs₁, k⟩ := np.mapPages wr hs₀ hs.tables.task (by rwa [hs.space]) hmap
  refine ⟨hs₁.move rfl ?_ hs₁.markers rfl, wr.congr k rfl rfl rfl rfl⟩
  simp only [spareFrames, pushFrames_items hp, perm_iff_count, count_append, count_reverse]
  omega

theorem Provides.fetchFrame {fuel : Nat} {f : Word} (hs : Pooled roots root M Z extra s)
    (h : fetchFrame (Vmm.growPageStack heapEnd newPagetable) fuel s = .ok (f, s')) :
    Pooled roots root M Z (f :: extra) s' ∧ K P s s' := by
  induction fuel generalizing s
  case zero => cases h
  case succ fuel hi =>
    have ⟨⟨frame, stack⟩, hp, h⟩ := Except.bind_ok_iff.mp h
    simp only at h
    split at h
    case h_1 frame =>
      cases h
      refine ⟨hs.move rfl ?_ hs.markers rfl, wr.congr (wr.refl s) rfl rfl rfl rfl⟩
      simp [spareFrames, Dstack.popStack_some hp]
    case h_2 =>
      have ⟨s₁, hg, h⟩ := Except.bind_ok_iff.mp h
      have ⟨hs₁, k₁⟩ := np.growPageStack wr pr hs hg
      have ⟨hs', k⟩ := hi hs₁ h
      exact ⟨hs', wr.trans k₁ k⟩

end Provides

-- However deep the calls nest, `newPagetable` gives a spare frame, and keeps what every write keeps.
theorem newPagetable_provides (wr : WriteRule roots Z K) (pr : Protects heapEnd root P M) (fuel : Nat) :
    Provides roots root M Z (K P) (Vmm.newPagetable heapEnd fuel) := by
  induction fuel
  case zero => exact ⟨fun _ h => nomatch h⟩
  case succ fuel np =>
    constructor
    intro extra s s' f hs h
    have ⟨count, _, h⟩ := Except.bind_ok_iff.mp h
    have ⟨s₁, hg, h⟩ := Except.bind_ok_iff.mp h
    have ⟨hs₁, k₁⟩ : Pooled roots root M Z extra s₁ ∧ K P s s₁ := by
      split at hg
      case isTrue  => exact np.growPageStack wr pr hs hg
      case isFalse => cases hg; exact ⟨hs, wr.refl _⟩
    have ⟨hs', k⟩ := np.fetchFrame wr pr hs₁ h
    exact ⟨hs', wr.trans k₁ k⟩

-- A frame that designates nothing.
abbrev BlankFrame (c : Index → Word) : Prop :=
  ∀ j, tableBase (c j) = 0#64

theorem keeps_writeRule : WriteRule roots BlankFrame (Keeps roots) where
  blank h               := h
  refl                  := Keeps.refl
  trans                 := Keeps.trans
  mono                  := Keeps.mono
  congr                 := Keeps.congr
  walk k                := k.walk
  link t hr hq hw hb hf hz := {
    walk      := fun hr' hp h => hf.walk_link_extends t hr hq hw hb (fun _ => hz) hr' hp h
    translate := fun hr' _ => hf.translate_link t hr hq hw hb (fun _ => hz) hr' fun _ _ => hz _
    space     := rfl
  }
  finish t hr h₁ h₂ h₃ := {
    walk      := fun hr' hp h => finish_walk t hr h₃ hr' hp ▸ h
    translate := fun hr' hw => by rw [Paging.translate, finish_leaf t hr h₁ h₂ h₃ hr' hw, Paging.translate]
    space     := rfl
  }

theorem pooled_iff : Pooled roots root M BlankFrame extra s ↔ Ready roots root M extra s :=
  ⟨fun h => ⟨h.tables, h.frames, h.markers, h.space⟩, fun h => ⟨h.tables, h.blank, h.markers, h.space⟩⟩

theorem supplies_iff : Supplies roots root P M newPagetable ↔
    Provides roots root M BlankFrame (Keeps roots P) newPagetable := by
  constructor
  case mp =>
    intro sp
    constructor
    intro extra s s' f hs h
    have ⟨hs', k⟩ := sp (pooled_iff.mp hs) h
    exact ⟨pooled_iff.mpr hs', k⟩
  case mpr =>
    intro np extra s s' f hs h
    have ⟨hs', k⟩ := np.give (pooled_iff.mpr hs) h
    exact ⟨pooled_iff.mp hs', k⟩

theorem Supplies.mapPage (sp : Supplies roots root P M newPagetable)
    (hs : Ready roots root M extra s) (hr : space.pml4e ∈ roots)
    (h : mapPage newPagetable space phys virt flags s = .ok s') :
    Ready roots root M extra s' ∧
      Keeps roots (fun r w => P r w ∧ ¬(r = space.pml4e ∧ SamePage w virt)) s s' ∧
      leaf s' space.pml4e virt = some (pgflags flags ||| phys) := by
  have ⟨hs', h⟩ := (supplies_iff.mp sp).mapPage keeps_writeRule (pooled_iff.mpr hs) hr h
  exact ⟨pooled_iff.mp hs', h⟩

theorem Supplies.mapPages (sp : Supplies roots root P M newPagetable) {n : Nat}
    (hs : Ready roots root M extra s) (hr : space.pml4e ∈ roots)
    (hp : ∀ i < n, ∀ w, P space.pml4e w → ¬SamePage w (virt + pageBytes i))
    (h : mapPages newPagetable space phys virt flags n s = .ok s') :
    Ready roots root M extra s' ∧ Keeps roots P s s' := by
  have ⟨hs', k⟩ := (supplies_iff.mp sp).mapPages keeps_writeRule (pooled_iff.mpr hs) hr hp h
  exact ⟨pooled_iff.mp hs', k⟩

theorem newPagetable_supplies (pr : Protects heapEnd root P M) (fuel : Nat) :
    Supplies roots root P M (Vmm.newPagetable heapEnd fuel) :=
  supplies_iff.mpr (newPagetable_provides keeps_writeRule pr fuel)

end RoverOS.Vmm
