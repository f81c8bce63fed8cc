import RoverOS.Bootloader.Theorems.TestPath
import RoverOS.Vmm.Theorems.Linear

-- What the bootloader's `mapPages` maps, beside the kernel's.

open Sweep (Kept Loop)

namespace RoverOS.Bootloader

open Paging

-- When `mapPages` is linear: from 4 GB on the pages are not written to.
structure MapsLinear (s : Boot) (phys virt : Word) (n : Nat) : Prop where
  below  : phys.toNat + n * 0x1000 ≤ 2 ^ 52
  beyond : ∀ i < n, 2 ^ 20 ≤ i → Paging.Mapped (leafAt s) (pageAt virt i) (pageAt phys i)

-- The tables are those of `mapPage`, and the blocks that are to come lie apart.
def Ready (s : Boot) : Prop :=
  Built s ∧ Fresh (supply s)

variable {clearMem : ClearMem} {s s' s₀ : Boot} {base phys virt w : Word} {b n : Nat} {write execute : Bool}
variable {c : MapCall}

section Step

theorem kalign_of_aligned (h : isUnaligned base = 0#64) : kalign base = base := by
  have hm := isUnaligned_eq_zero_iff.mp h
  apply BitVec.eq_of_toNat_eq
  rw [kalign_toNat]
  omega

theorem Maps.kept (k : Maps c s s₀ s') (hw : ¬SamePage w c.virt) :
    Kept (tableBase · = 0#64) (leafAt s w) (leafAt s' w) := by
  rw [k.other hw]
  cases h : leafAt s w
  case some e => exact .inl (k.links.leafAt_eq h)
  case none =>
    rcases k.links.leafAt_new h with hn | hn
    case inl => exact .inl hn
    case inr => exact .inr ⟨rfl, _, hn, by decide⟩

theorem Ready.maps (hc : Clears clearMem) (r : Ready s)
    (h : mapPage clearMem c.phys c.virt c.write c.execute s = .ok s') : Ready s' ∧ ∃ s₀, Maps c s s₀ s' := by
  have hf := r.right.perm (mapPage_supply h)
  have ⟨s₀, k⟩ := r.left.maps hc h hf.blocks
  exact ⟨⟨k.built, hf⟩, s₀, k⟩

-- No page is left out.
theorem mapPage_rule (hc : Clears clearMem) :
    PageRule (fun phys virt s s' => mapPage clearMem phys virt write execute s = .ok s') Ready leafAt
      (leafFlags write execute) (fun _ => True) (fun _ => True) where
  inv {phys virt _ _} _ r h := (r.maps (c := { phys, virt, write, execute }) hc h).left
  kept {phys virt _ _ _} _ r h hw := by
    have ⟨_, _, k⟩ := r.maps (c := { phys, virt, write, execute }) hc h
    exact k.kept hw
  write {phys virt _ _} _ r ha h _ := by
    have ⟨_, _, k⟩ := r.maps (c := { phys, virt, write, execute }) hc h
    rw [k.page ⟨rfl, rfl⟩, leafEntry, kalign_of_aligned ha]
  skip _ _ _ hn := absurd trivial hn

theorem loop_of_mapFrom (h : mapFrom clearMem phys virt write execute b n s = .ok s') :
    Loop (fun i s s' => mapPage clearMem (pageAt phys (i % 2 ^ 20)) (pageAt virt (i % 2 ^ 20)) write execute s = .ok s')
      b n s s' := by
  induction n generalizing b s
  case zero =>
    cases h
    exact .done
  case succ n hi =>
    simp only [mapFrom, add_offset] at h
    have ⟨s₁, h₁, h⟩ := Except.bind_ok_iff.mp h
    exact .next h₁ (hi h)

end Step

section Linear

theorem has_leafFlags_present : Has (leafFlags write execute) pgPresent := by
  cases write <;> cases execute <;> decide

theorem tableBase_leafFlags : tableBase (leafFlags write execute) = 0#64 := by
  cases write <;> cases execute <;> decide

theorem mapPages_linear_iff (hc : Clears clearMem) (rs : Ready s) (r : PageRange phys virt n)
    (h : mapPages clearMem phys virt n write execute s = .ok s') :
    Linear (leafAt s) (leafAt s') phys virt n ↔ MapsLinear s phys virt n := by
  rw [mapPages, if_neg (by have := r.pos; omega)] at h
  have ⟨_, hs⟩ := (mapPage_rule hc).swept r (fun _ _ _ => trivial) rs (loop_of_mapFrom h)
  have hbase (hb : phys.toNat + n * 0x1000 ≤ 2 ^ 52) {i : Nat} (hi : i < n) :
      tableBase (leafFlags write execute ||| pageAt phys i) = pageAt phys i := by
    rw [tableBase_or, tableBase_leafFlags, BitVec.zero_or, tableBase_pageAt r.physAligned hb hi]
  rw [hs.linear_iff r has_leafFlags_present fun _ _ _ hn => absurd trivial hn]
  constructor
  case mp =>
    rintro ⟨hb, _, hbeyond⟩
    exact ⟨hb, hbeyond⟩
  case mpr =>
    intro c
    exact ⟨c.below, fun i hi _ => ⟨trivial, hbase c.below hi⟩, c.beyond⟩

-- The kernel's `mapPages` and the bootloader's.
theorem mapPages_linear_iff_both {roots : Set Word} {heapEnd flags phys virt : Word} {fuel n : Nat} {v v' : Vm}
    {space : PageSpace} {clearMem : ClearMem} {write execute : Bool} {s s' : Boot} (hrange : PageRange phys virt n) :
    (Vmm.PageTables roots (Vmm.spareFrames v) v → (∀ f ∈ Vmm.spareFrames v, Blank v f) → space.pml4e ∈ roots →
      (Has flags pageFlagMake → Vmm.Quiet roots v space virt n) →
      Paging.mapPages (Vmm.newPagetable heapEnd fuel) space phys virt flags n v = .ok v' →
      (Linear (leaf v space.pml4e) (leaf v' space.pml4e) phys virt n ↔
        Vmm.MapsLinear v space phys virt flags n)) ∧
    (Clears clearMem → Ready s → mapPages clearMem phys virt n write execute s = .ok s' →
      (Linear (leafAt s) (leafAt s') phys virt n ↔ MapsLinear s phys virt n)) :=
  ⟨fun ht hb hr hq h => Vmm.mapPages_linear_iff ht hb hr hrange hq h,
    fun hc r h => mapPages_linear_iff hc r hrange h⟩

end Linear

section Enough

theorem Ready.mapFrom_enough (hc : Clears clearMem) (r : Ready s) (hl : 3 * n ≤ tablesLeft s) :
    ∃ s', mapFrom clearMem phys virt write execute b n s = .ok s' := by
  induction n generalizing b s
  case zero => exact ⟨s, rfl⟩
  case succ n hi =>
    let off := BitVec.ofNat 64 (u32 (b * 0x1000))
    have ⟨s₁, h₁, hl₁⟩ := r.left.mapPage_enough hc (c := { phys := phys + off, virt := virt + off, write, execute })
      r.right (by omega)
    have ⟨s', h⟩ := hi (b := b + 1) (r.maps hc h₁).left (by omega)
    exact ⟨s', by simp only [mapFrom]; exact Except.bind_ok_iff.mpr ⟨s₁, h₁, h⟩⟩

end Enough

section Example

-- Blocks that the pool gives for tables.
def chunks (k : Nat) : List Word :=
  (List.range k).map fun i => BitVec.ofNat 64 (0x1100000 + i * 0x800000)

def firstBlocks : List Block :=
  [⟨0x900000, 0x401000, .tables⟩, ⟨0x100000, 1920, .allocMap⟩]

theorem fresh_chunks {k : Nat} (hk : k < 2 ^ 20) :
    Fresh ((chunks k).map (fun ptr => { ptr, size := bumpChunk + 0x1000, use := .tables }) ++ firstBlocks) := by
  have hptr {i : Nat} (hi : i < k) : (BitVec.ofNat 64 (0x1100000 + i * 0x800000)).toNat = 0x1100000 + i * 0x800000 := by
    rw [BitVec.toNat_ofNat]
    omega
  have hchunk : ∀ b ∈ (chunks k).map (fun ptr => (⟨ptr, bumpChunk + 0x1000, .tables⟩ : Block)),
      ∃ i < k, b.ptr.toNat = 0x1100000 + i * 0x800000 ∧ b.size = 0x401000 := by
    intro b hb
    simp only [chunks, List.map_map, List.mem_map, List.mem_range, Function.comp_def] at hb
    obtain ⟨i, hi, rfl⟩ := hb
    exact ⟨i, hi, hptr hi, rfl⟩
  have hfirst : ∀ b ∈ firstBlocks, b.ptr ≠ 0#64 ∧ b.ptr.toNat + b.size ≤ 0x1100000 := by decide
  constructor
  case nonnull =>
    intro b hb hz
    rcases List.mem_append.mp hb with hb | hb
    case inl =>
      obtain ⟨i, _, hp, _⟩ := hchunk b hb
      rw [hz, BitVec.toNat_ofNat] at hp
      omega
    case inr => exact (hfirst b hb).left hz
  case below =>
    intro b hb
    rcases List.mem_append.mp hb with hb | hb
    case inl =>
      obtain ⟨i, _, hp, hs⟩ := hchunk b hb
      omega
    case inr =>
      have := (hfirst b hb).right
      omega
  case apart =>
    rw [List.pairwise_append]
    refine ⟨?chunks, by decide, fun b hb c hc => ?first⟩
    case chunks =>
      rw [chunks, List.map_map, List.pairwise_map]
      refine List.pairwise_lt_range.imp_of_mem fun {i j} hi hj hlt => .inl ?_
      simp only [Function.comp_def, hptr (List.mem_range.mp hi), hptr (List.mem_range.mp hj), bumpChunk]
      omega
    case first =>
      obtain ⟨i, _, hp, _⟩ := hchunk b hb
      have := (hfirst c hc).right
      exact .inr (by omega)

-- The tables are empty, and there is memory for more of them.
theorem ready_start {k : Nat} (hk : k < 2 ^ 20) :
    ∃ s₀, initPml clearRange (.start (fun _ _ => 0) (fun _ => zeroEntry) (0x100000 :: 0x900000 :: chunks k)) = .ok s₀ ∧
      Ready s₀ ∧ tablesLeft s₀ = 1023 + 1024 * k ∧ ∀ virt, Unmapped s₀ virt := by
  have hok : ∃ s₀, initPml clearRange (.start (fun _ _ => 0) (fun _ => zeroEntry)
      (0x100000 :: 0x900000 :: chunks k)) = .ok s₀ ∧ s₀.pool = chunks k ∧ s₀.blocks = firstBlocks := ⟨_, rfl, rfl, rfl⟩
  obtain ⟨s₀, h₀, hpool, hblocks⟩ := hok
  have hf : Fresh (supply s₀) := by
    rw [supply, hpool, hblocks]
    exact fresh_chunks hk
  obtain ⟨r, hl⟩ := initPml_represents clearRange_clears h₀ hf
  rw [hpool, chunks, List.length_map, List.length_range] at hl
  exact ⟨s₀, h₀, ⟨r.built, hf⟩, hl, fun _ => r.unmapped rfl⟩

-- Two pages in two page tables are mapped, in the kernel and in the bootloader.
theorem mapPages_linear_twoTables :
    (∃ s', Paging.mapPages (Vmm.newPagetable 0 5) ⟨0x1000⟩ 0x2000 0x1FF000 0x120 2 Vmm.emptyVm = .ok s' ∧
      Linear (leaf Vmm.emptyVm 0x1000) (leaf s' 0x1000) 0x2000 0x1FF000 2) ∧
    ∃ s₀ s', mapPages clearRange 0x2000 0x1FF000 2 true false s₀ = .ok s' ∧
      Linear (leafAt s₀) (leafAt s') 0x2000 0x1FF000 2 := by
  have hrange : PageRange 0x2000 0x1FF000 2 :=
    ⟨by decide, by decide, by decide, by decide, by decide, by decide⟩
  obtain ⟨s₀, -, r, hl, -⟩ := @ready_start 3 (by decide)
  obtain ⟨s₁, h₁⟩ := @Ready.mapFrom_enough clearRange s₀ 0x2000 0x1FF000 0 2 true false clearRange_clears r (by omega)
  have h : (Paging.mapPages (Vmm.newPagetable 0 5) ⟨0x1000⟩ 0x2000 0x1FF000 0x120 2 Vmm.emptyVm).map (fun _ => ()) =
    .ok () := rfl
  obtain ⟨s', h, -⟩ := Except.exists_ok_of_map h
  obtain ⟨hkernel, hboot⟩ := @mapPages_linear_iff_both {0x1000} 0 0x120 _ _ 5 _ Vmm.emptyVm s' ⟨0x1000⟩
    clearRange true false s₀ s₁ hrange
  refine ⟨⟨s', h, ?kernel⟩, s₀, s₁, h₁, ?boot⟩
  case kernel =>
    have hk := hkernel Vmm.pageTables_emptyVm (fun f _ => Vmm.blank_emptyVm f) rfl
      (fun _ => Vmm.quiet_of_stock Vmm.pageTables_emptyVm (fun f _ => Vmm.blank_emptyVm f) (by decide)) h
    exact hk.mpr ⟨by decide, fun hp => absurd hp (by decide), fun hm => absurd (by decide) hm, fun i hi hl => by omega⟩
  case boot =>
    exact (hboot clearRange_clears r h₁).mpr ⟨by decide, fun i hi hl => by omega⟩

-- The 4 GB from 4 GB on, and one more page: that page is not mapped.
theorem mapPages_not_linear :
    ∃ s₀ s',
      initPml clearRange (.start (fun _ _ => 0) (fun _ => zeroEntry) (0x100000 :: 0x900000 :: chunks 3072)) = .ok s₀ ∧
      PageRange 0x100000000 0x100000000 (2 ^ 20 + 1) ∧
      mapPages clearRange 0x100000000 0x100000000 (2 ^ 20 + 1) true false s₀ = .ok s' ∧
      ¬Linear (leafAt s₀) (leafAt s') 0x100000000 0x100000000 (2 ^ 20 + 1) := by
  obtain ⟨s₀, h₀, r, hl, hu⟩ := @ready_start 3072 (by decide)
  obtain ⟨s', h⟩ := @Ready.mapFrom_enough clearRange s₀ 0x100000000 0x100000000 0 (2 ^ 20 + 1) true false
    clearRange_clears r (by omega)
  have hrange : PageRange 0x100000000 0x100000000 (2 ^ 20 + 1) :=
    ⟨by decide, by decide, by decide, by decide, by decide, by decide⟩
  refine ⟨s₀, s', h₀, hrange, h, fun hl => ?_⟩
  have c := (mapPages_linear_iff clearRange_clears r hrange h).mp hl
  obtain ⟨e, he, hp, -⟩ := c.beyond (2 ^ 20) (by decide) le_rfl
  rcases hu (pageAt 0x100000000 (2 ^ 20)) with hn | hn
  case inl => exact nomatch hn.symm.trans he
  case inr =>
    cases hn.symm.trans he
    exact absurd hp (by decide)

end Example

end RoverOS.Bootloader
