import RoverOS.Vmm.Theorems.HandOut
import RoverOS.Vmm.Theorems.Linear

-- When `mapPages` returns, although `newPagetable` has to grow the pool for its first table.

open Radix (walk Tree)

namespace RoverOS.Paging

-- `newPagetable` returns whenever a link asks for a frame, and leaves the entry as it was.
structure Gives (newPagetable : Vm → Except Exit (Word × Vm)) (root virt : Word) (I : Vm → Prop) : Prop where
  give : ∀ {s q n tbl}, I s → q ++ [n] <+: path virt → walk child s.tables root q = some tbl →
    tableBase (s.tables tbl n) = 0#64 → ∃ f s₁, newPagetable s = .ok (f, s₁) ∧ s₁.tables tbl n = s.tables tbl n

variable {newPagetable : Vm → Except Exit (Word × Vm)} {I : Vm → Prop} {K : Vm → Vm → Prop}
variable {root phys virt flags tbl : Word} {n : Index} {q : List Index} {s s' : Vm} {make : Prop}
variable [Decidable make] {space : PageSpace}

theorem Gives.linkTable (g : Gives newPagetable root virt I) (hm : make) (hi : I s) (hq : q ++ [n] <+: path virt)
    (hw : walk child s.tables root q = some tbl) : ∃ s', linkTable newPagetable make tbl n s = .ok s' := by
  unfold Paging.linkTable
  by_cases hb : tableBase (s.tables tbl n) = 0#64
  case neg => exact ⟨s, if_neg hb⟩
  case pos =>
    obtain ⟨f, s₁, hn, he⟩ := g.give hi hq hw hb
    refine ⟨s₁.orEntry tbl n f, ?_⟩
    rw [if_pos hb, if_pos hm, hn]
    exact if_pos he

theorem Gives.mapPage (g : Gives newPagetable space.pml4e virt I) (l : LinkRule newPagetable space.pml4e virt I K)
    (hm : Has flags pageFlagMake) (hp : isUnaligned phys = 0#64) (hv : isUnaligned virt = 0#64) (hi : I s) :
    ∃ s', mapPage newPagetable space phys virt flags s = .ok s' := by
  obtain ⟨s₁, h₁⟩ := @Gives.linkTable _ _ _ _ _ (pmlEntry virt) [] s _ _ g hm hi ⟨_, rfl⟩ rfl
  obtain ⟨hi₁, hk₁, hw₁⟩ := l.linkTable (q := []) hi ⟨_, rfl⟩ rfl h₁
  obtain ⟨s₂, h₂⟩ := g.linkTable (q := [pmlEntry virt]) hm hi₁ ⟨_, rfl⟩ hw₁
  obtain ⟨hi₂, hk₂, hw₂⟩ := l.linkTable (q := [pmlEntry virt]) hi₁ ⟨_, rfl⟩ hw₁ h₂
  obtain ⟨s₃, h₃⟩ := g.linkTable (q := [pmlEntry virt, pdpeEntry virt]) hm hi₂ ⟨_, rfl⟩ hw₂
  unfold Paging.mapPage
  rw [if_neg (by simp [hp, hv])]
  exact ⟨_, Except.bind_ok_iff.mpr ⟨s₁, h₁, Except.bind_ok_iff.mpr ⟨s₂, h₂, Except.bind_ok_iff.mpr ⟨s₃, h₃, rfl⟩⟩⟩⟩

end RoverOS.Paging

namespace RoverOS.Vmm

open Paging

-- Of the tables of a space, only those in `L` were linked meanwhile, and the other entries without a
-- table were not touched.
structure Grown (root : Word) (L : Finset (List Index)) (s t : Vm) : Prop where
  walk  : ∀ {p a}, p.length ≤ 3 → walk child s.tables root p = some a → Radix.walk child t.tables root p = some a
  new   : ∀ {p}, p.length ≤ 3 → p ∉ L → Radix.walk child s.tables root p = none →
    Radix.walk child t.tables root p = none
  entry : ∀ {q n tbl}, q.length < 3 → q ++ [n] ∉ L → Radix.walk child s.tables root q = some tbl →
    tableBase (s.tables tbl n) = 0#64 → t.tables tbl n = s.tables tbl n

variable {roots : Set Word} {root heapEnd phys virt flags tbl f pdpe pde pte : Word} {fuel : Nat} {n : Index}
variable {s t u : Vm} {L L' V : Finset (List Index)} {p q : List Index}

namespace Grown

theorem of_tables_eq (h : t.tables = s.tables) : Grown root L s t where
  walk _ hw      := h ▸ hw
  new _ _ hw     := h ▸ hw
  entry _ _ _ _  := by rw [h]

theorem mono (g : Grown root L s t) (h : L ⊆ L') : Grown root L' s t where
  walk             := g.walk
  new hp hn        := g.new hp fun hm => hn (h hm)
  entry hq hn      := g.entry hq fun hm => hn (h hm)

theorem trans (g : Grown root L s t) (g' : Grown root L t u) : Grown root L s u where
  walk hp h        := g'.walk hp (g.walk hp h)
  new hp hn h      := g'.new hp hn (g.new hp hn h)
  entry hq hn hw hb := by
    have he := g.entry hq hn hw hb
    rw [g'.entry hq hn (g.walk hq.le hw) (by rwa [he]), he]

theorem walk_eq (g : Grown root ∅ s t) (hp : p.length ≤ 3) :
    Radix.walk child t.tables root p = Radix.walk child s.tables root p := by
  cases h : Radix.walk child s.tables root p
  case some a => exact g.walk hp h
  case none   => exact g.new hp (Finset.notMem_empty p) h

theorem link (tr : Tree child s.tables roots 3) (hr : root ∈ roots) (hq : q.length < 3)
    (hw : Radix.walk child s.tables root q = some tbl) (hb : tableBase (s.tables tbl n) = 0#64)
    (hf : Spare roots s f) (hz : Blank s f) (hL : q ++ [n] ∈ L) : Grown root L s (s.orEntry tbl n f) where
  walk hp h := hf.walk_link_extends tr hr hq hw hb (fun _ => hz) hr hp h
  new {p} hp hn h := by
    have hne : ¬(root = root ∧ p = q ++ [n]) := fun he => hn (he.right ▸ hL)
    rw [hf.walk_link tr hr hq hw hb (fun _ => hz) hr hp hne, h]
  entry {q' n' tbl'} hq' hn hw' _ := by
    have hne : ¬(tbl' = tbl ∧ n' = n) := by
      rintro ⟨rfl, rfl⟩
      obtain ⟨-, he⟩ := tr hr hr hq'.le hq.le hw' hw
      exact hn (he ▸ hL)
    exact Radix.Tables.set_of_ne hne

theorem finish (tr : Tree child s.tables roots 3) (hr : root ∈ roots)
    (h₁ : Radix.walk child s.tables root [pmlEntry virt] = some pdpe)
    (h₂ : Radix.walk child s.tables root [pmlEntry virt, pdpeEntry virt] = some pde)
    (h₃ : Radix.walk child s.tables root (path virt) = some pte) :
    Grown root L s (finish root pdpe pde pte virt phys flags s) where
  walk hp h := finish_walk tr hr h₃ hr hp ▸ h
  new hp _ h := finish_walk tr hr h₃ hr hp ▸ h
  entry {q' n' tbl'} hq' _ hw' hb := by
    -- An entry on the way to the page designates a table.
    have hne {q : List Index} {n : Index} {tbl a : Word} (hw : Radix.walk child s.tables root q = some tbl)
        (ha : Radix.walk child s.tables root (q ++ [n]) = some a) : ¬(tbl' = tbl ∧ n' = n) := by
      rintro ⟨rfl, rfl⟩
      rw [walk_link_none hw hb] at ha
      cases ha
    have hne₁ := hne (q := []) rfl h₁
    have hne₂ := hne (q := [pmlEntry virt]) h₁ h₂
    have hne₃ := hne (q := [pmlEntry virt, pdpeEntry virt]) h₂ h₃
    have hne₄ : ¬(tbl' = pte ∧ n' = pteEntry virt) := by
      rintro ⟨rfl, rfl⟩
      obtain ⟨-, he⟩ := tr hr hr hq'.le (by simp) hw' h₃
      simp [he] at hq'
    simp only [Paging.finish, Vm.orEntry, Vm.setEntry]
    rw [Radix.Tables.set_of_ne hne₄, Radix.Tables.set_of_ne hne₃, Radix.Tables.set_of_ne hne₂, Radix.Tables.set_of_ne hne₁]

theorem missing_subset (g : Grown root L s t) (hV : ∀ p ∈ V, p.length ≤ 3) :
    missingPaths t root V ⊆ missingPaths s root V := by
  intro q hq
  obtain ⟨⟨p, hp, hpre⟩, hn⟩ := mem_missingPaths.mp hq
  refine mem_missingPaths.mpr ⟨⟨p, hp, hpre⟩, ?_⟩
  by_contra hs
  obtain ⟨a, ha⟩ := Option.ne_none_iff_exists'.mp hs
  rw [g.walk (hpre.length_le.trans (hV p hp)) ha] at hn
  cases hn

theorem missing_lt (g : Grown root L s t) (hV : ∀ p ∈ V, p.length ≤ 3) (hm : q ∈ missingPaths s root V)
    (hl : q ∉ missingPaths t root V) : (missingPaths t root V).card < (missingPaths s root V).card :=
  Finset.card_lt_card ((Finset.ssubset_iff_of_subset (g.missing_subset hV)).mpr ⟨q, hm, hl⟩)

theorem missing_eq (g : Grown root ∅ s t) (hV : ∀ p ∈ V, p.length ≤ 3) :
    missingPaths t root V = missingPaths s root V := by
  ext q
  rw [mem_missingPaths, mem_missingPaths]
  refine and_congr_right fun hex => ?_
  obtain ⟨p, hp, hpre⟩ := hex
  rw [g.walk_eq (hpre.length_le.trans (hV p hp))]

end Grown

-- The frames of the pool and those in `extra` are blank, wherever the pool grows to.
abbrev Stocks (roots : Set Word) (root : Word) (extra : List Word) (s : Vm) : Prop :=
  Pooled roots root (fun _ _ => True) BlankFrame extra s

-- Nothing has been linked since `s`.
structure Dry (root : Word) (s t : Vm) : Prop where
  grown  : Grown root ∅ s t
  pool   : t.pageFrames = s.pageFrames
  vmem   : t.vmem = s.vmem
  blocks : t.blocks = s.blocks

-- The pool has grown, and has the frames for the tables that the pages in `V` still miss.
structure Wet (root : Word) (L V : Finset (List Index)) (bound : Nat) (s t : Vm) : Prop where
  grown : Grown root L s t
  lock  : t.pageFrames.lock = false
  size  : t.pageFrames.maxSize = s.pageFrames.maxSize
  stock : (missingPaths t root V).card = 0 ∨ 19 + (missingPaths t root V).card ≤ t.pageFrames.items.length
  bound : t.pageFrames.items.length ≤ bound

-- The states between the pages that are mapped.
structure Filling (roots : Set Word) (root : Word) (extra : List Word) (L V : Finset (List Index)) (bound : Nat)
    (s t : Vm) : Prop where
  stocks : Stocks roots root extra t
  phase  : Dry root s t ∨ Wet root L V bound s t

-- What is asked of `newPagetable` for the first table, when it links those in `L'` itself.
structure Refills (newPagetable : Vm → Except Exit (Word × Vm)) (roots : Set Word) (root : Word) (extra : List Word)
    (L V : Finset (List Index)) (bound : Nat) (s : Vm) (L' : Finset (List Index)) : Prop where
  apart  : Disjoint L' (missingPaths s root V)
  links  : L' ∪ missingPaths s root V ⊆ L
  refill : ∀ {t}, (missingPaths s root V).card ≠ 0 → Stocks roots root extra t → Dry root s t →
    ∃ f t', newPagetable t = .ok (f, t') ∧ Grown root L' t t' ∧ t'.pageFrames.lock = false ∧
      t'.pageFrames.maxSize = t.pageFrames.maxSize ∧
      18 + (missingPaths s root V).card ≤ t'.pageFrames.items.length ∧ t'.pageFrames.items.length ≤ bound

theorem fetchFrame_of_cons {grow : Vm → Except Exit Vm} {items : List Word} (hl : s.pageFrames.lock = false)
    (hi : s.pageFrames.items = f :: items) (hf : 1 ≤ fuel) :
    fetchFrame grow fuel s = .ok (f, { s with pageFrames := { s.pageFrames with items } }) := by
  obtain ⟨fuel, rfl⟩ := Nat.exists_eq_add_of_le' hf
  have hp : s.pageFrames.popStack = .ok (some f, { s.pageFrames with items }) :=
    Except.bind_ok_iff.mpr ⟨(), getLock_of_free hl, by rw [hi]; rfl⟩
  exact Except.bind_ok_iff.mpr ⟨_, hp, rfl⟩

theorem stackCount_of_lock {stack : Dstack} (hl : stack.lock = false) : stack.stackCount = .ok stack.items.length := by
  rw [Dstack.stackCount, hl, Dstack.bytesInUse, Nat.mul_div_cancel_left _ (by decide)]
  rfl

theorem newPagetable_of_stocked (hl : s.pageFrames.lock = false) (hc : 20 ≤ s.pageFrames.items.length) (hf : 2 ≤ fuel) :
    ∃ f items, s.pageFrames.items = f :: items ∧
      newPagetable heapEnd fuel s = .ok (f, { s with pageFrames := { s.pageFrames with items } }) := by
  obtain ⟨fuel, rfl⟩ := Nat.exists_eq_add_of_le' hf
  cases hi : s.pageFrames.items
  case nil => simp [hi] at hc
  case cons f items =>
    refine ⟨f, items, rfl, Except.bind_ok_iff.mpr ⟨_, stackCount_of_lock hl, Except.bind_ok_iff.mpr ⟨s, ?_, ?_⟩⟩⟩
    · exact if_neg (Nat.not_lt.mpr hc)
    · exact fetchFrame_of_cons hl hi (Nat.le_add_left 1 fuel)

section Filling

variable {extra : List Word} {bound : Nat} {space : PageSpace}
variable (hr : root ∈ roots) (hlen : ∀ p ∈ V, p.length ≤ 3) (hfuel : 2 ≤ fuel)
variable (rf : Refills (newPagetable heapEnd fuel) roots root extra L V bound s L')

include rf hlen in
theorem Refills.dry (k : Filling roots root extra L V bound s t) (hm : q ∈ missingPaths t root V) (hd : Dry root s t) :
    q ∈ missingPaths s root V ∧ ∃ f t', newPagetable heapEnd fuel t = .ok (f, t') ∧ Grown root L' t t' ∧
      t'.pageFrames.lock = false ∧ t'.pageFrames.maxSize = s.pageFrames.maxSize ∧
      18 + (missingPaths s root V).card ≤ t'.pageFrames.items.length ∧ t'.pageFrames.items.length ≤ bound := by
  have hm := hd.grown.missing_subset hlen hm
  obtain ⟨f, t', hn, g, hl, hs, hlo, hhi⟩ := rf.refill (Finset.card_ne_zero_of_mem hm) k.stocks hd
  exact ⟨hm, f, t', hn, g, hl, hd.pool ▸ hs, hlo, hhi⟩

include rf hlen hfuel in
theorem Refills.gives (hV : path virt ∈ V) :
    Gives (newPagetable heapEnd fuel) root virt (Filling roots root extra L V bound s) where
  give {t q n tbl} k hq hw hb := by
    have hm := mem_missing_of_link hV hq hw hb
    have hq3 : q.length < 3 := by simpa [Nat.lt_succ_iff] using hq.length_le
    rcases k.phase with hd | hw'
    case inl =>
      obtain ⟨hm, f, t', hn, g, -⟩ := rf.dry hlen k hm hd
      exact ⟨f, t', hn, g.entry hq3 (Finset.disjoint_right.mp rf.apart hm) hw hb⟩
    case inr =>
      have hpos := Finset.card_pos.mpr ⟨_, hm⟩
      have hstock := hw'.stock
      obtain ⟨f, items, -, hn⟩ := @newPagetable_of_stocked heapEnd fuel t hw'.lock (by omega) hfuel
      exact ⟨f, _, hn, rfl⟩

include rf hlen hfuel hr in
theorem Refills.linkRule (hV : path virt ∈ V) :
    LinkRule (newPagetable heapEnd fuel) root virt (Filling roots root extra L V bound s)
      (KeepsLeaves roots fun r _ => r ≠ root) where
  refl           := KeepsLeaves.refl
  trans          := KeepsLeaves.trans
  walk k hp h    := k.walk hr (by simpa using hp.length_le) h
  link {t t₁ q n tbl f} k hq hw hb hn he := by
    have hm := mem_missing_of_link hV hq hw hb
    have hq3 : q.length < 3 := by simpa [Nat.lt_succ_iff] using hq.length_le
    have np := @newPagetable_other roots heapEnd fuel root
    obtain ⟨hs₁, k₁⟩ := np.give k.stocks hn
    obtain ⟨hs', k', hne⟩ := (np.linkRule keepsLeaves_writeRule hr).link k.stocks hq hw hb hn he
    have hf := hs₁.tables.spare f (by simp)
    have hz := hs₁.frames f (by simp)
    have hw₁ := k₁.walk hr hq3.le hw
    have hb₁ : tableBase (t₁.tables tbl n) = 0#64 := by rwa [he]
    have link (hL : q ++ [n] ∈ L) : Grown root L t₁ (t₁.orEntry tbl n f) :=
      Grown.link hs₁.tables.tree hr hq3 hw₁ hb₁ hf hz hL
    -- The table that was linked is not missing any more.
    have hlinked : q ++ [n] ∉ missingPaths (t₁.orEntry tbl n f) root V := by
      intro hmem
      have hnone := (mem_missingPaths.mp hmem).right
      rw [hf.walk_link_new hs₁.tables.tree hr hq3 hw₁ hb₁] at hnone
      cases hnone
    refine ⟨⟨hs', .inr ?_⟩, k', hne⟩
    rcases k.phase with hd | hw'
    case inl =>
      obtain ⟨hm, f', t', hn', g, hl, hs, hlo, hhi⟩ := rf.dry hlen k hm hd
      cases hn.symm.trans hn'
      have hL' : L' ⊆ L := Finset.union_subset_left rf.links
      have g' := ((hd.grown.mono (Finset.empty_subset L)).trans (g.mono hL')).trans (link (rf.links (Finset.mem_union_right _ hm)))
      have hcard := g'.missing_lt hlen hm hlinked
      exact ⟨g', hl, hs, .inr (by simp only [Vm.orEntry_pageFrames]; omega), hhi⟩
    case inr =>
      have hpos := Finset.card_pos.mpr ⟨_, hm⟩
      have hstock := hw'.stock
      obtain ⟨f', items, hi, hn'⟩ := @newPagetable_of_stocked heapEnd fuel t hw'.lock (by omega) hfuel
      obtain ⟨-, he₁⟩ := Prod.mk.inj (Except.ok.inj (hn.symm.trans hn'))
      have hpool : t₁.pageFrames = { t.pageFrames with items } := by rw [he₁]
      have hmL : q ++ [n] ∈ L := rf.links (Finset.mem_union_right _ (hw'.grown.missing_subset hlen hm))
      have g : Grown root L t (t₁.orEntry tbl n f) := (Grown.of_tables_eq (by rw [he₁])).trans (link hmL)
      have hcard := g.missing_lt hlen hm hlinked
      have hbound := hw'.bound
      rw [hi, List.length_cons] at hstock hbound
      refine ⟨hw'.grown.trans g, ?lock, ?size, .inr ?stock, ?bound⟩ <;> simp only [Vm.orEntry_pageFrames, hpool]
      case lock  => exact hw'.lock
      case size  => exact hw'.size
      case stock => omega
      case bound => omega

include rf hlen hfuel in
theorem Refills.mapPage (hsp : space.pml4e = root) (hr : root ∈ roots) (hm : Has flags pageFlagMake)
    (hp : isUnaligned phys = 0#64) (hv : isUnaligned virt = 0#64) (hV : path virt ∈ V)
    (k : Filling roots root extra L V bound s t) :
    ∃ t', mapPage (newPagetable heapEnd fuel) space phys virt flags t = .ok t' ∧
      Filling roots root extra L V bound s t' := by
  subst hsp
  have l := rf.linkRule hr hlen hfuel hV
  obtain ⟨t', h⟩ := (rf.gives hlen hfuel hV).mapPage l hm hp hv k
  obtain ⟨hs', -⟩ := newPagetable_other.mapPage keepsLeaves_writeRule k.stocks hr h
  obtain ⟨t₃, pdpe, pde, pte, k₃, -, h₁, h₂, h₃, rfl⟩ := l.mapPage k h
  have tr := k₃.stocks.tables.tree
  refine ⟨_, h, hs', k₃.phase.imp (fun hd => ?dry) fun hw => ?wet⟩
  case dry => exact ⟨hd.grown.trans (.finish tr hr h₁ h₂ h₃), hd.pool, hd.vmem, hd.blocks⟩
  case wet =>
    have g : Grown space.pml4e L t₃ (finish space.pml4e pdpe pde pte virt phys flags t₃) := .finish tr hr h₁ h₂ h₃
    have hpool : (finish space.pml4e pdpe pde pte virt phys flags t₃).pageFrames = t₃.pageFrames := rfl
    have hcard := Finset.card_le_card (g.missing_subset hlen)
    refine ⟨hw.grown.trans g, hw.lock, hw.size, ?_, hw.bound⟩
    rw [hpool]
    exact hw.stock.imp (by omega) (by omega)

include rf hlen hfuel in
theorem Refills.mapPages_go {b m : Nat} (hsp : space.pml4e = root) (hr : root ∈ roots) (hm : Has flags pageFlagMake)
    (hp : isUnaligned phys = 0#64) (hv : isUnaligned virt = 0#64)
    (hV : ∀ i < m, path (virt + pageBytes (b + i)) ∈ V) (k : Filling roots root extra L V bound s t) :
    ∃ t', mapPages.go (newPagetable heapEnd fuel) space phys virt flags b m t = .ok t' ∧
      Filling roots root extra L V bound s t' := by
  induction m generalizing b t
  case zero => exact ⟨t, rfl, k⟩
  case succ m hi =>
    have hal {base : Word} (ha : isUnaligned base = 0#64) : isUnaligned (base + pageBytes b) = 0#64 := by
      rw [pageBytes, add_offset]
      exact isUnaligned_pageAt ha
    obtain ⟨t₁, h₁, k₁⟩ := rf.mapPage hlen hfuel hsp hr hm (hal hp) (hal hv) (hV 0 (by omega)) k
    obtain ⟨t', h, k'⟩ := hi (b := b + 1) (fun i hi => by
      have := hV (i + 1) (by omega)
      rwa [Nat.add_assoc, Nat.add_comm 1 i]) k₁
    refine ⟨t', ?_, k'⟩
    simp only [mapPages.go]
    rw [← pageBytes, h₁]
    exact h

include hlen hfuel in
theorem Refills.mapPages {m : Nat} (hsp : space.pml4e = root) (hr : root ∈ roots) (hm : Has flags pageFlagMake)
    (hV : ∀ i < m, path (virt + pageBytes i) ∈ V)
    (rf : isUnaligned phys = 0#64 → isUnaligned virt = 0#64 →
      Refills (newPagetable heapEnd fuel) roots root extra L V bound s L')
    (k : Filling roots root extra L V bound s t) :
    ∃ t', Paging.mapPages (newPagetable heapEnd fuel) space phys virt flags m t = .ok t' ∧
      Filling roots root extra L V bound s t' := by
  unfold Paging.mapPages
  split
  case isTrue => exact ⟨t, rfl, k⟩
  case isFalse ha =>
    have ha : isUnaligned phys = 0#64 ∧ isUnaligned virt = 0#64 := by simpa using ha
    exact (rf ha.left ha.right).mapPages_go hlen hfuel hsp hr hm ha.left ha.right (by simpa using hV) k

end Filling

end RoverOS.Vmm
