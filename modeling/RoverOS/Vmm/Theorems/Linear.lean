import RoverOS.Paging.Theorems.Range
import RoverOS.Paging.Theorems.Refuse
import RoverOS.Vmm.Theorems.Leaves

-- What the kernel's `mapPages` maps, if the pool does not map frames of its own meanwhile.

open Radix (walk Tree)
open Sweep (Kept Loop)

namespace RoverOS.Vmm

open Paging

-- The pool does not map frames of its own into the space meanwhile: it is stocked for all tables that
-- are missing, or it would use another space.
def Quiet (roots : Set Word) (s : Vm) (space : PageSpace) (virt : Word) (n : Nat) : Prop :=
  space.pml4e ≠ s.space.pml4e ∨
    StocksAll roots space.pml4e ((Finset.range (min n (2 ^ 20))).image fun i => path (pageAt virt i)) s

-- When `mapPages` is linear. A page that is 4 GB into the range is not written to, and so it must be
-- mapped already.
structure MapsLinear (s : Vm) (space : PageSpace) (phys virt flags : Word) (n : Nat) : Prop where
  below  : phys.toNat + n * 0x1000 ≤ 2 ^ 52
  pat    : PicksPat flags → ∀ i < n, i < 2 ^ 20 → (pageAt phys i).getLsbD 12 = true
  tables : ¬Has flags pageFlagMake → ∀ i < n, i < 2 ^ 20 → ¬TableMissing s space.pml4e (pageAt virt i)
  beyond : ∀ i < n, 2 ^ 20 ≤ i → Mapped (leaf s space.pml4e) (pageAt virt i) (pageAt phys i)

-- One turn of the loop in `mapPages`.
def Turn (newPagetable : Vm → Except Exit (Word × Vm)) (space : PageSpace) (flags phys virt : Word) (s s' : Vm) :
    Prop :=
  mapPage newPagetable space phys virt flags s = .ok s' ∨
    (¬Has flags pageFlagMake ∧ s' = s ∧ mapPage newPagetable space phys virt flags s = .error .refused)

variable {newPagetable : Vm → Except Exit (Word × Vm)} {roots : Set Word} {I : Vm → Prop} {pages wanted : Word → Prop}
variable {root heapEnd phys virt flags w : Word} {fuel n : Nat} {s s' s₀ : Vm} {space : PageSpace}

section Step

-- What one page of the loop does, with `wanted` for the pages that are not left out.
structure PageStep (newPagetable : Vm → Except Exit (Word × Vm)) (roots : Set Word) (space : PageSpace)
    (flags : Word) (I : Vm → Prop) (pages wanted : Word → Prop) : Prop where
  ok      : ∀ {s s' phys virt}, pages virt → I s → mapPage newPagetable space phys virt flags s = .ok s' →
    wanted virt ∧ I s' ∧ KeepsLeaves roots (fun r w => r = space.pml4e ∧ ¬SamePage w virt) s s' ∧
      leaf s' space.pml4e virt = some (pgflags flags ||| phys)
  refused : ∀ {s phys virt}, pages virt → I s → ¬Has flags pageFlagMake → isUnaligned phys = 0#64 →
    mapPage newPagetable space phys virt flags s = .error .refused → ¬wanted virt

theorem PageStep.rule (p : PageStep newPagetable roots space flags I pages wanted) (hr : space.pml4e ∈ roots) :
    PageRule (Turn newPagetable space flags) I (leaf · space.pml4e) (pgflags flags) pages wanted where
  inv hp hI h := by
    rcases h with h | ⟨_, rfl, _⟩
    case inl => exact (p.ok hp hI h).right.left
    case inr => exact hI
  kept hp hI h hne := by
    rcases h with h | ⟨_, rfl, _⟩
    case inl => exact (p.ok hp hI h).right.right.left.leaf hr ⟨rfl, hne⟩
    case inr => exact .refl _
  write hp hI ha h hw := by
    rcases h with h | ⟨hm, _, h⟩
    case inl => exact (p.ok hp hI h).right.right.right
    case inr => exact absurd hw (p.refused hp hI hm ha h)
  skip hp hI h hw := by
    rcases h with h | ⟨_, rfl, _⟩
    case inl => exact absurd (p.ok hp hI h).left hw
    case inr => rfl

theorem loop_of_go {b : Nat} (h : mapPages.go newPagetable space phys virt flags b n s = .ok s') :
    Loop (fun i => Turn newPagetable space flags (pageAt phys (i % 2 ^ 20)) (pageAt virt (i % 2 ^ 20))) b n s s' := by
  induction n generalizing b s
  case zero =>
    cases h
    exact .done
  case succ n hi =>
    simp only [mapPages.go, add_offset] at h
    split at h
    case h_1 s₁ h₁ => exact .next (.inl h₁) (hi h)
    case h_2 h₁ =>
      split at h
      case isTrue     => cases h
      case isFalse hm => exact .next (.inr ⟨hm, rfl, h₁⟩) (hi h)
    case h_3 => cases h

theorem mapPages_of_rule {leaves : Vm → Leaves}
    (p : PageRule (Turn newPagetable space flags) I leaves (pgflags flags) pages wanted) (r : PageRange phys virt n)
    (hp : ∀ i < n, i < 2 ^ 20 → pages (pageAt virt i)) (hI : I s)
    (h : mapPages newPagetable space phys virt flags n s = .ok s') :
    I s' ∧ Swept (pgflags flags) wanted phys virt n (leaves s) (leaves s') := by
  have hgo : mapPages.go newPagetable space phys virt flags 0 n s = .ok s' := by
    rwa [mapPages, if_neg (by simp [r.physAligned, r.virtAligned])] at h
  exact p.swept r hp hI (loop_of_go hgo)

end Step

section Quiet

theorem card_missingPaths_le {V : Finset (List Index)} (hV : ∀ p ∈ V, p.length ≤ 3) :
    (missingPaths s root V).card ≤ 4 * V.card := by
  have hle : (V.biUnion fun p => p.inits.toFinset).card ≤ V.card * 4 := by
    refine Finset.card_biUnion_le_card_mul _ _ _ fun p hp => ?_
    have hlen := hV p hp
    have hinits := p.inits.toFinset_card_le
    rw [List.length_inits] at hinits
    omega
  have hfilter : (missingPaths s root V).card ≤ (V.biUnion fun p => p.inits.toFinset).card :=
    Finset.card_filter_le _ _
  omega

theorem Quiet.of_eq (hq : Quiet roots s space virt n) (ht : s'.tables = s.tables) (hsp : s'.space = s.space)
    (hp : s'.pageFrames = s.pageFrames) : Quiet roots s' space virt n := by
  refine hq.imp (fun hne => hsp ▸ hne) fun st => ?_
  have hmissing (V : Finset (List Index)) : missingPaths s' space.pml4e V = missingPaths s space.pml4e V := by
    simp only [missingPaths, ht]
  refine ⟨ht ▸ st.tree, fun f hf => (st.spare f (hp ▸ hf)).of_tables_eq ht, hp ▸ st.nodup, fun f hf => ?_, ?_⟩
  · rw [Blank, ht]
    exact st.blank f (hp ▸ hf)
  · rw [hmissing, hp]
    exact st.stock

-- A pool with a few frames for each page need not grow.
theorem quiet_of_stock (t : PageTables roots (spareFrames s) s) (hz : ∀ f ∈ spareFrames s, Blank s f)
    (h : 19 + 4 * n ≤ s.pageFrames.items.length) : Quiet roots s space virt n := by
  have hmem : ∀ f ∈ s.pageFrames.items, f ∈ spareFrames s := fun f hf => List.mem_append_left _ hf
  refine .inr ⟨t.tree, fun f hf => t.spare f (hmem f hf), (List.nodup_append.mp t.nodup).left,
    fun f hf => hz f (hmem f hf), .inr ?_⟩
  let V := (Finset.range (min n (2 ^ 20))).image fun i => path (pageAt virt i)
  have hV : V.card ≤ n := by
    refine Finset.card_image_le.trans ?_
    rw [Finset.card_range]
    exact min_le_left _ _
  have hmissing : (missingPaths s space.pml4e V).card ≤ 4 * V.card := by
    refine card_missingPaths_le fun p hp => ?_
    obtain ⟨_, _, rfl⟩ := Finset.mem_image.mp hp
    simp
  change 19 + (missingPaths s space.pml4e V).card ≤ _
  omega

end Quiet

section Steps

-- With `PAGE_FLAG_MAKE` no page is left out.
theorem quiet_pageStep (t : PageTables roots (spareFrames s) s) (hz : ∀ f ∈ spareFrames s, Blank s f)
    (hr : space.pml4e ∈ roots) (hm : Has flags pageFlagMake) (hq : Quiet roots s space virt n) :
    ∃ I : Vm → Prop, I s ∧ PageStep (Vmm.newPagetable heapEnd fuel) roots space flags I
      (fun w => ∃ i < n, i < 2 ^ 20 ∧ w = pageAt virt i) (fun _ => True) := by
  rcases hq with hne | hs
  case inl =>
    have hs : Pooled roots s.space.pml4e (fun _ _ => True) BlankFrame [] s := ⟨t, hz, trivial, rfl⟩
    refine ⟨_, hs, fun _ hI h => ?_, fun _ _ hn _ => absurd hm hn⟩
    obtain ⟨hI', k, hl⟩ := newPagetable_other.mapPage keepsLeaves_writeRule hI hr h
    exact ⟨trivial, hI', k.mono fun r w h => ⟨fun he => hne (h.left ▸ he), fun hs => h.right hs.right⟩, hl⟩
  case inr =>
    refine ⟨_, hs, fun hp hI h => ?_, fun _ _ hn _ => absurd hm hn⟩
    obtain ⟨i, hi, hlt, rfl⟩ := hp
    have hV : path (pageAt virt i) ∈ (Finset.range (min n (2 ^ 20))).image fun i => path (pageAt virt i) :=
      Finset.mem_image_of_mem _ (Finset.mem_range.mpr (lt_min hi hlt))
    have hlen : ∀ p ∈ (Finset.range (min n (2 ^ 20))).image fun i => path (pageAt virt i), p.length ≤ 3 := by
      intro p hp
      obtain ⟨_, _, rfl⟩ := Finset.mem_image.mp hp
      simp
    obtain ⟨hI', k, hl⟩ := hI.mapPage hr hV hlen h
    exact ⟨trivial, hI', k.mono fun r w h hs => h.right hs.right, hl⟩

-- The walks that there were, and no others.
structure SameWalks (roots : Set Word) (s₀ s : Vm) : Prop where
  tree : Tree child s.tables roots 3
  walk : ∀ {r p}, r ∈ roots → p.length ≤ 3 → walk child s.tables r p = Radix.walk child s₀.tables r p

theorem tableMissing_iff : TableMissing s root w ↔ walk child s.tables root (path w) = none := by
  simp only [walk_path, TableMissing]
  by_cases h₁ : tableBase (s.tables root (pmlEntry w)) = 0#64
  case pos => simp [h₁, child]
  by_cases h₂ : tableBase (s.tables (tableBase (s.tables root (pmlEntry w))) (pdpeEntry w)) = 0#64
  case pos => simp [h₁, h₂, child]
  simp [h₁, h₂, child]

-- Nothing asks for a table without `PAGE_FLAG_MAKE`.
theorem mapPage_not_make (hm : ¬Has flags pageFlagMake) :
    mapPage newPagetable space phys virt flags s = mapPage (fun _ => .error .halt) space phys virt flags s := by
  have hl : linkTable newPagetable (Has flags pageFlagMake) = linkTable (fun _ => .error .halt) (Has flags pageFlagMake) := by
    funext tbl n s
    unfold linkTable
    rw [if_neg hm, if_neg hm]
  simp only [mapPage, hl]

theorem noTable_linkRule : LinkRule (fun _ => .error .halt) root virt I fun s s' => s' = s where
  refl _          := rfl
  trans h₁ h₂     := h₂.trans h₁
  walk h _ hw     := h ▸ hw
  link _ _ _ _ hn := nomatch hn

-- Without it, the pages are left out that have no table.
theorem noTable_pageStep (hr : space.pml4e ∈ roots) (hm : ¬Has flags pageFlagMake) :
    PageStep newPagetable roots space flags (SameWalks roots s₀) (fun w => isUnaligned w = 0#64)
      (fun w => ¬TableMissing s₀ space.pml4e w) where
  ok {s s' phys virt} _ hI h := by
    have hmissing (pte) (hw : walk child s.tables space.pml4e (path virt) = some pte) :
        ¬TableMissing s₀ space.pml4e virt := by
      rw [tableMissing_iff, ← hI.walk hr (by simp), hw]
      exact nofun
    rw [mapPage_not_make hm] at h
    obtain ⟨s₃, pdpe, pde, pte, hI₃, rfl, h₁, h₂, h₃, rfl⟩ := noTable_linkRule.mapPage hI h
    refine ⟨hmissing pte h₃, ⟨finish_tree hI.tree hr h₃, fun hr' hp => ?_⟩, ?_, finish_leaf_same hI.tree hr h₃⟩
    · exact (finish_walk hI.tree hr h₃ hr' hp).trans (hI.walk hr' hp)
    · exact (keepsLeaves_finish hI.tree hr h₁ h₂ h₃).mono fun r w h hs => h.right hs.right
  refused {s phys virt} ha hI _ hphys h := by
    have haligned : ¬(isUnaligned phys ≠ 0#64 ∨ isUnaligned virt ≠ 0#64) := by simp [ha, hphys]
    have hsame : TableMissing s space.pml4e virt ↔ TableMissing s₀ space.pml4e virt := by
      rw [tableMissing_iff, tableMissing_iff, hI.walk hr (by simp)]
    obtain ⟨s', he⟩ := @Returns.mapPage_of_not_make newPagetable space phys virt flags s hm haligned
    rw [Returns.mapPage_refuse, he] at h
    split at h
    case isTrue ht => exact not_not.mpr (hsame.mp ht)
    case isFalse   => cases h

theorem mapPages_swept (t : PageTables roots (spareFrames s) s) (hz : ∀ f ∈ spareFrames s, Blank s f)
    (hr : space.pml4e ∈ roots) (r : PageRange phys virt n) (hq : Has flags pageFlagMake → Quiet roots s space virt n)
    (h : mapPages (Vmm.newPagetable heapEnd fuel) space phys virt flags n s = .ok s') :
    Swept (pgflags flags) (fun w => Has flags pageFlagMake ∨ ¬TableMissing s space.pml4e w) phys virt n
        (leaf s space.pml4e) (leaf s' space.pml4e) ∧
      ∀ w, ¬(Has flags pageFlagMake ∨ ¬TableMissing s space.pml4e w) → leaf s' space.pml4e w = none := by
  by_cases hm : Has flags pageFlagMake
  case pos =>
    obtain ⟨I, hI, p⟩ := @quiet_pageStep roots heapEnd virt flags fuel n s space t hz hr hm (hq hm)
    obtain ⟨-, hs⟩ := mapPages_of_rule (p.rule hr) r (fun i hi hlt => ⟨i, hi, hlt, rfl⟩) hI h
    exact ⟨⟨fun i hi hlt _ => hs.written i hi hlt trivial, hs.kept⟩, fun _ hn => absurd (.inl hm) hn⟩
  case neg =>
    have p : PageStep (Vmm.newPagetable heapEnd fuel) roots space flags (SameWalks roots s) _ _ :=
      noTable_pageStep hr hm
    obtain ⟨hI, hs⟩ := mapPages_of_rule (p.rule hr) r (fun i _ _ => isUnaligned_pageAt r.virtAligned)
      ⟨t.tree, fun _ _ => rfl⟩ h
    refine ⟨⟨fun i hi hlt hw => hs.written i hi hlt (hw.resolve_left hm), hs.kept⟩, fun w hn => ?_⟩
    have ht : TableMissing s space.pml4e w := not_not.mp (not_or.mp hn).right
    rw [leaf, hI.walk hr (by simp), tableMissing_iff.mp ht]
    rfl

end Steps

section Linear

theorem has_pgflags_present : Has (pgflags flags) pgPresent := by
  have ht : Has (tableFlags flags) pgPresent := by
    unfold tableFlags
    split <;> decide
  simp [pgflags, has_or, ht]

theorem mapPages_linear_iff (t : PageTables roots (spareFrames s) s) (hz : ∀ f ∈ spareFrames s, Blank s f)
    (hr : space.pml4e ∈ roots) (r : PageRange phys virt n) (hq : Has flags pageFlagMake → Quiet roots s space virt n)
    (h : mapPages (Vmm.newPagetable heapEnd fuel) space phys virt flags n s = .ok s') :
    Linear (leaf s space.pml4e) (leaf s' space.pml4e) phys virt n ↔ MapsLinear s space phys virt flags n := by
  obtain ⟨hs, hnone⟩ := mapPages_swept t hz hr r hq h
  have hpat (hb : phys.toNat + n * 0x1000 ≤ 2 ^ 52) {i : Nat} (hi : i < n) :
      tableBase (pgflags flags ||| pageAt phys i) = pageAt phys i ↔
        (PicksPat flags → (pageAt phys i).getLsbD 12 = true) :=
    tableBase_leaf_eq_iff (tableBase_pageAt r.physAligned hb hi)
  rw [hs.linear_iff r has_pgflags_present fun i _ _ => hnone _]
  constructor
  case mp =>
    rintro ⟨hb, hpage, hbeyond⟩
    exact ⟨hb, fun hp i hi hlt => (hpat hb hi).mp (hpage i hi hlt).right hp,
      fun hm i hi hlt => (hpage i hi hlt).left.resolve_left hm, hbeyond⟩
  case mpr =>
    intro c
    exact ⟨c.below, fun i hi hlt => ⟨or_iff_not_imp_left.mpr fun hm => c.tables hm i hi hlt,
      (hpat c.below hi).mpr fun hp => c.pat hp i hi hlt⟩, c.beyond⟩

end Linear

end RoverOS.Vmm
