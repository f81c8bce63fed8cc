import RoverOS.Vmm.Theorems.Grown
import RoverOS.Vmm.Theorems.Share

-- Whether `newPagetable` returns. It grows the pool by mapping the new frames, and the range that it maps
-- them to may need a table itself: then it calls itself before any frame has been pushed.

open Radix (walk Tree)

namespace RoverOS.Vmm

open Paging

-- What `allocPhys` answers, one call after the other.
abbrev Answers := Nat → Word × Nat

-- A block, and the range that `growPageStack` maps it to.
structure GrowRange where
  phys  : Word
  virt  : Word
  bytes : Nat

namespace GrowRange

def pages (r : GrowRange) : Nat :=
  pagesFor r.bytes

def paths (r : GrowRange) : Finset (List Index) :=
  (Finset.range r.pages).image fun i => path (r.virt + pageBytes i)

-- The number of frames that are pushed.
def frames (r : GrowRange) : Nat :=
  r.bytes / 0x1000 + 1

-- A page of the range has no table.
def Needs (s : Vm) (r : GrowRange) : Prop :=
  isUnaligned r.phys = 0#64 ∧ isUnaligned r.virt = 0#64 ∧
    ∃ i < r.pages, TableMissing s s.space.pml4e (r.virt + pageBytes i)

end GrowRange

section Ranges

variable (heapEnd : Word) (answers : Answers)

-- The new marker for a block, and the list with it.
def growMarker (bytes : Nat) : List VMarker → Word × List VMarker
  | []           => (0#64, [])
  | head :: next =>
    let (marker, vmem) := allocMarker heapEnd head next bytes vtypeData (vflagMake ||| vflagWrite)
    (marker.base, vmem)

-- The markers after some calls of `growPageStack`, each from within the one before.
def markersAt (vmem : List VMarker) : Nat → List VMarker
  | 0     => vmem
  | i + 1 => (growMarker heapEnd (answers i).2 (markersAt vmem i)).2

-- The range that the next of them takes.
def growRange (vmem : List VMarker) (i : Nat) : GrowRange where
  phys  := (answers i).1
  virt  := (growMarker heapEnd (answers i).2 (markersAt heapEnd answers vmem i)).1
  bytes := (answers i).2

end Ranges

-- With the next answers of `allocPhys`.
def answered (s : Vm) (answers : Answers) (k : Nat) : Vm :=
  { s with blocks := (List.range k).map answers }

-- However often `allocPhys` is called for that.
def Returns (heapEnd : Word) (answers : Answers) (s : Vm) : Prop :=
  ∃ k fuel f s', newPagetable heapEnd fuel (answered s answers k) = .ok (f, s')

-- The calls down to the first range that has all its tables, the `k`-th, leave the stack in order: it has
-- room, each block gives frames for the tables of the range before it, and no two ranges miss the same table.
structure Orderly (roots : Set Word) (heapEnd : Word) (answers : Answers) (s : Vm) (k : Nat) : Prop where
  tables : PageTables roots (spareFrames (answered s answers (k + 1))) s
  blank  : ∀ f ∈ spareFrames (answered s answers (k + 1)), Blank s f
  mapped : ∀ i ≤ k, (growRange heapEnd answers s.vmem i).virt ≠ 0#64
  ample  : ∀ i < k, 19 + (missingPaths s s.space.pml4e (growRange heapEnd answers s.vmem i).paths).card ≤
    (growRange heapEnd answers s.vmem (i + 1)).frames
  room   : 8 * (s.pageFrames.items.length + ∑ i ∈ Finset.range (k + 1), (growRange heapEnd answers s.vmem i).frames) ≤
    s.pageFrames.maxSize
  apart  : ∀ i j, i < j → j < k →
    Disjoint (missingPaths s s.space.pml4e (growRange heapEnd answers s.vmem j).paths)
      (missingPaths s s.space.pml4e (growRange heapEnd answers s.vmem i).paths)

variable {roots : Set Word} {heapEnd root phys : Word} {answers : Answers} {extra : List Word} {s s' s₀ t : Vm}
variable {fuel i k d m b n sz bound : Nat} {L L' V : Finset (List Index)} {head marker : VMarker} {next vmem : List VMarker}
variable {blocks : List (Word × Nat)}

section Push

theorem pushFrames_of_room {frames : List Word} {stack : Dstack} (hl : stack.lock = false)
    (hroom : 8 * (stack.items.length + frames.length) ≤ stack.maxSize) :
    ∃ stack', pushFrames frames stack = .ok stack' ∧ stack'.lock = false ∧ stack'.maxSize = stack.maxSize := by
  induction frames generalizing stack
  case nil => exact ⟨stack, rfl, hl, rfl⟩
  case cons f frames hi =>
    rw [List.length_cons] at hroom
    have hp : stack.pushStack f = .ok (stack.store f) := by
      refine Except.bind_ok_iff.mpr ⟨(), getLock_of_free hl, if_neg ?_⟩
      rw [Dstack.bytesInUse]
      omega
    obtain ⟨stack', h, hl', hs⟩ := @hi (stack.store f) rfl (by simp only [Dstack.store, List.length_cons]; omega)
    exact ⟨stack', Except.bind_ok_iff.mpr ⟨_, hp, h⟩, hl', hs⟩

-- One call of `growPageStack`.
theorem Refills.growPageStack (hr : root ∈ roots) (hfuel : 2 ≤ fuel) (hb : s.blocks = (phys, sz) :: blocks)
    (hv : s.vmem = head :: next)
    (ha : allocMarker heapEnd head next sz vtypeData (vflagMake ||| vflagWrite) = (marker, vmem))
    (hbase : marker.base ≠ 0#64) (hs : Stocks roots root extra s) (hl : s.pageFrames.lock = false)
    (hlen : ∀ p ∈ V, p.length ≤ 3) (hV : ∀ i < pagesFor sz, path (marker.base + pageBytes i) ∈ V)
    (rf : isUnaligned phys = 0#64 → isUnaligned marker.base = 0#64 →
      Refills (newPagetable heapEnd fuel) roots root (framesFrom phys (sz / 0x1000 + 1) ++ extra) L V bound
        { s with blocks, vmem } L')
    (hbound : s.pageFrames.items.length ≤ bound) (hroom : 8 * (bound + (sz / 0x1000 + 1)) ≤ s.pageFrames.maxSize) :
    ∃ s' rest, growPageStack heapEnd (newPagetable heapEnd fuel) s = .ok s' ∧
      s'.pageFrames.items = (framesFrom phys (sz / 0x1000 + 1)).reverse ++ rest ∧ rest.length ≤ bound ∧
      s'.pageFrames.lock = false ∧ s'.pageFrames.maxSize = s.pageFrames.maxSize ∧ Grown root L s s' := by
  have hs₀ : Stocks roots root (framesFrom phys (sz / 0x1000 + 1) ++ extra) { s with blocks, vmem } := by
    refine hs.move rfl ?_ trivial rfl
    simp only [spareFrames, hb, List.flatMap_cons, List.perm_iff_count, List.count_append]
    omega
  have k₀ : Filling roots root (framesFrom phys (sz / 0x1000 + 1) ++ extra) L V bound { s with blocks, vmem }
      { s with blocks, vmem } :=
    ⟨hs₀, .inl ⟨.of_tables_eq rfl, rfl, rfl, rfl⟩⟩
  have hmake : Has (formFlags (vflagMake ||| vflagWrite)) pageFlagMake := by decide
  obtain ⟨s₁, hmap, k₁⟩ : ∃ s₁, Paging.mapPages (newPagetable heapEnd fuel) s.space phys marker.base
      (formFlags (vflagMake ||| vflagWrite)) (pagesFor sz) { s with blocks, vmem } = .ok s₁ ∧
        Filling roots root (framesFrom phys (sz / 0x1000 + 1) ++ extra) L V bound { s with blocks, vmem } s₁ :=
    Refills.mapPages hlen hfuel hs.space hr hmake hV rf k₀
  have hvm : vmallocPhys heapEnd (newPagetable heapEnd fuel) phys sz vtypeData (vflagMake ||| vflagWrite)
      { s with blocks } = .ok (marker.base, s₁) := by
    unfold vmallocPhys
    simp only [hv, ha]
    exact Except.bind_ok_iff.mpr ⟨s₁, hmap, rfl⟩
  have g₀ : Grown root L s { s with blocks, vmem } := .of_tables_eq rfl
  obtain ⟨g, hlock, hsize, hle⟩ : Grown root L s s₁ ∧ s₁.pageFrames.lock = false ∧
      s₁.pageFrames.maxSize = s.pageFrames.maxSize ∧ s₁.pageFrames.items.length ≤ bound := by
    rcases k₁.phase with hd | hw
    case inl =>
      have hp : s₁.pageFrames = s.pageFrames := hd.pool
      rw [hp]
      exact ⟨g₀.trans (hd.grown.mono (Finset.empty_subset L)), hl, rfl, hbound⟩
    case inr => exact ⟨g₀.trans hw.grown, hw.lock, hw.size, hw.bound⟩
  have hframes : (framesFrom phys (sz / 0x1000 + 1)).length = sz / 0x1000 + 1 := by simp [framesFrom]
  obtain ⟨stack, hpush, hl', hs'⟩ := @pushFrames_of_room (framesFrom phys (sz / 0x1000 + 1)) _ hlock (by omega)
  refine ⟨{ s₁ with pageFrames := stack }, s₁.pageFrames.items, ?_, pushFrames_items hpush, hle, hl',
    hs'.trans hsize, g.trans (.of_tables_eq rfl)⟩
  refine Except.bind_ok_iff.mpr ⟨((phys, sz), { s with blocks }), by rw [allocPhys, hb], ?_⟩
  simp only [hvm, if_neg hbase]
  exact Except.bind_ok_iff.mpr ⟨stack, hpush, rfl⟩

end Push

section Fill

variable (s) in
-- The tables that the ranges from the `i`-th on miss, down to the `k`-th.
def missingFrom (heapEnd : Word) (answers : Answers) (i k : Nat) : Finset (List Index) :=
  (Finset.Ico i k).biUnion fun j => missingPaths s s.space.pml4e (growRange heapEnd answers s.vmem j).paths

theorem length_of_mem_paths {r : GrowRange} : ∀ p ∈ r.paths, p.length ≤ 3 := by
  intro p hp
  obtain ⟨_, _, rfl⟩ := Finset.mem_image.mp hp
  simp

theorem missing_eq_empty {r : GrowRange} (hn : ¬r.Needs s) (hp : isUnaligned r.phys = 0#64)
    (hv : isUnaligned r.virt = 0#64) : missingPaths s s.space.pml4e r.paths = ∅ := by
  refine Finset.eq_empty_of_forall_notMem fun q hq => hn ⟨hp, hv, ?_⟩
  obtain ⟨⟨p, hp, hpre⟩, hnone⟩ := mem_missingPaths.mp hq
  obtain ⟨i, hi, rfl⟩ := Finset.mem_image.mp hp
  refine ⟨i, Finset.mem_range.mp hi, tableMissing_iff.mpr ?_⟩
  obtain ⟨rest, hrest⟩ := hpre
  rw [← hrest, Radix.walk_append, hnone]
  rfl

-- The state when the pool grows for the `i`-th time, before any frame has been pushed, with `m` answers to
-- come.
structure AtLevel (roots : Set Word) (heapEnd : Word) (answers : Answers) (s : Vm) (i m : Nat) (t : Vm) : Prop where
  tree   : Tree child t.tables roots 3
  space  : t.space.pml4e = s.space.pml4e
  grown  : Grown s.space.pml4e ∅ s t
  pool   : t.pageFrames = s.pageFrames
  vmem   : t.vmem = markersAt heapEnd answers s.vmem i
  blocks : t.blocks = (List.range' i m).map answers

-- What comes of it.
structure Filled (heapEnd : Word) (answers : Answers) (s : Vm) (k i : Nat) (t t' : Vm) : Prop where
  grown : Grown s.space.pml4e (missingFrom s heapEnd answers i k) t t'
  lock  : t'.pageFrames.lock = false
  size  : t'.pageFrames.maxSize = s.pageFrames.maxSize
  lower : (growRange heapEnd answers s.vmem i).frames ≤ t'.pageFrames.items.length + 1
  upper : t'.pageFrames.items.length + 1 ≤ s.pageFrames.items.length +
    ∑ j ∈ Finset.Ico i (k + 1), (growRange heapEnd answers s.vmem j).frames

theorem growMarker_ne_nil {bytes : Nat} (h : (growMarker heapEnd bytes vmem).1 ≠ 0#64) :
    ∃ head next marker vmem', vmem = head :: next ∧
      allocMarker heapEnd head next bytes vtypeData (vflagMake ||| vflagWrite) = (marker, vmem') ∧
      growMarker heapEnd bytes vmem = (marker.base, vmem') := by
  cases vmem
  case nil            => exact absurd rfl h
  case cons head next => exact ⟨head, next, _, _, rfl, rfl, rfl⟩

-- The state in which the block is mapped.
def mapping (heapEnd : Word) (answers : Answers) (s : Vm) (i m : Nat) (t : Vm) : Vm :=
  { t with blocks := (List.range' (i + 1) m).map answers, vmem := markersAt heapEnd answers s.vmem (i + 1) }

def growFrames (answers : Answers) (i : Nat) : List Word :=
  framesFrom (answers i).1 ((answers i).2 / 0x1000 + 1)

theorem AtLevel.succ (ht : AtLevel roots heapEnd answers s i (m + 1) t) (tree : Tree child s'.tables roots 3)
    (space : s'.space.pml4e = s.space.pml4e) (hd : Dry s.space.pml4e (mapping heapEnd answers s i m t) s') :
    AtLevel roots heapEnd answers s (i + 1) m s' := by
  have g₀ : Grown s.space.pml4e ∅ t (mapping heapEnd answers s i m t) := .of_tables_eq rfl
  exact ⟨tree, space, (ht.grown.trans g₀).trans hd.grown, hd.pool.trans ht.pool, hd.vmem, hd.blocks⟩

theorem AtLevel.blocks_cons (ht : AtLevel roots heapEnd answers s i (m + 1) t) :
    t.blocks = answers i :: (List.range' (i + 1) m).map answers := by
  rw [ht.blocks, List.range'_succ]
  rfl

theorem AtLevel.fill (L' : Finset (List Index)) (ho : Orderly roots heapEnd answers s k) (hr : s.space.pml4e ∈ roots)
    (hl : s.pageFrames.lock = false) (hc : s.pageFrames.items.length < 20) (hik : i + m = k)
    (hs : Stocks roots s.space.pml4e extra t) (ht : AtLevel roots heapEnd answers s i (m + 1) t) (hf : 2 ≤ fuel)
    (rf : isUnaligned (answers i).1 = 0#64 → isUnaligned (growRange heapEnd answers s.vmem i).virt = 0#64 →
      Refills (newPagetable heapEnd fuel) roots s.space.pml4e (growFrames answers i ++ extra)
        (missingFrom s heapEnd answers i k) (growRange heapEnd answers s.vmem i).paths (s.pageFrames.items.length +
          ∑ j ∈ Finset.Ico (i + 1) (k + 1), (growRange heapEnd answers s.vmem j).frames)
        (mapping heapEnd answers s i m t) L') :
    ∃ f t', newPagetable heapEnd (fuel + 1) t = .ok (f, t') ∧ Filled heapEnd answers s k i t t' := by
  obtain ⟨head, next, marker, vmem, hv, ha, hg⟩ := growMarker_ne_nil (ho.mapped i (by omega))
  have hvirt : (growRange heapEnd answers s.vmem i).virt = marker.base := congrArg Prod.fst hg
  have hvmem : markersAt heapEnd answers s.vmem (i + 1) = vmem := congrArg Prod.snd hg
  have hsum : ∑ j ∈ Finset.Ico i (k + 1), (growRange heapEnd answers s.vmem j).frames =
      (growRange heapEnd answers s.vmem i).frames +
        ∑ j ∈ Finset.Ico (i + 1) (k + 1), (growRange heapEnd answers s.vmem j).frames :=
    Finset.sum_eq_sum_Ico_succ_bot (by omega) _
  have hle : ∑ j ∈ Finset.Ico i (k + 1), (growRange heapEnd answers s.vmem j).frames ≤
      ∑ j ∈ Finset.range (k + 1), (growRange heapEnd answers s.vmem j).frames := by
    rw [Finset.range_eq_Ico]
    exact Finset.sum_le_sum_of_subset (Finset.Ico_subset_Ico_left (Nat.zero_le i))
  have hroom := ho.room
  have hframes : (growRange heapEnd answers s.vmem i).frames = (answers i).2 / 0x1000 + 1 := rfl
  have hmapping : mapping heapEnd answers s i m t =
      { t with blocks := (List.range' (i + 1) m).map answers, vmem } := by
    rw [mapping, hvmem]
  rw [hmapping, hvirt] at rf
  have hV : ∀ j < pagesFor (answers i).2, path (marker.base + pageBytes j) ∈ (growRange heapEnd answers s.vmem i).paths := by
    intro j hj
    rw [← hvirt]
    exact Finset.mem_image_of_mem _ (Finset.mem_range.mpr hj)
  obtain ⟨t₁, rest, hgrow, hitems, hrest, hl₁, hs₁, g⟩ := Refills.growPageStack hr hf ht.blocks_cons (ht.vmem.trans hv) ha
    (hvirt ▸ ho.mapped i (by omega)) hs (ht.pool ▸ hl) length_of_mem_paths hV rf (by rw [ht.pool]; omega)
    (by rw [ht.pool]; omega)
  rw [framesFrom_reverse (b := answers i), List.cons_append] at hitems
  have hfetch := @fetchFrame_of_cons _ fuel t₁ (growPageStack heapEnd (newPagetable heapEnd fuel)) _ hl₁ hitems (by omega)
  have hcount : t.pageFrames.items.length < 20 := ht.pool ▸ hc
  refine ⟨_, _, Except.bind_ok_iff.mpr ⟨_, stackCount_of_lock (ht.pool ▸ hl), Except.bind_ok_iff.mpr ⟨t₁, ?_, hfetch⟩⟩,
    g.trans (.of_tables_eq rfl), hl₁, hs₁.trans (congrArg _ ht.pool), ?_, ?_⟩
  · exact (if_pos hcount).trans hgrow
  · simp only [List.length_append, List.length_reverse, framesFrom, List.length_map, List.length_range]
    omega
  · simp only [List.length_append, List.length_reverse, framesFrom, List.length_map, List.length_range]
    omega

theorem newPagetable_fill (ho : Orderly roots heapEnd answers s k) (hr : s.space.pml4e ∈ roots)
    (hl : s.pageFrames.lock = false) (hc : s.pageFrames.items.length < 20)
    (hneeds : ¬(growRange heapEnd answers s.vmem k).Needs s) (hi : i + d = k)
    (hs : Stocks roots s.space.pml4e extra t) (ht : AtLevel roots heapEnd answers s i (d + 1) t) (hf : d + 3 ≤ fuel) :
    ∃ f t', newPagetable heapEnd fuel t = .ok (f, t') ∧ Filled heapEnd answers s k i t t' := by
  induction d generalizing i t extra fuel
  case zero =>
    obtain ⟨fuel, rfl⟩ : ∃ n, fuel = n + 1 := ⟨fuel - 1, by omega⟩
    obtain rfl : i = k := by omega
    have g₀ : Grown s.space.pml4e ∅ s (mapping heapEnd answers s i 0 t) := ht.grown.trans (.of_tables_eq rfl)
    refine AtLevel.fill ∅ ho hr hl hc hi hs ht (by omega) fun hp hv => ?_
    have hm := (g₀.missing_eq length_of_mem_paths).trans (missing_eq_empty hneeds hp hv)
    exact ⟨by simp, by simp [hm], fun hne => absurd (by rw [hm]; rfl) hne⟩
  case succ d ih =>
    obtain ⟨fuel, rfl⟩ : ∃ n, fuel = n + 1 := ⟨fuel - 1, by omega⟩
    have hik : i < k := by omega
    have g₀ : Grown s.space.pml4e ∅ s (mapping heapEnd answers s i (d + 1) t) := ht.grown.trans (.of_tables_eq rfl)
    have hm := g₀.missing_eq (@length_of_mem_paths (growRange heapEnd answers s.vmem i))
    refine AtLevel.fill (missingFrom s heapEnd answers (i + 1) k) ho hr hl hc hi hs ht (by omega) fun _ _ => ?_
    refine ⟨?apart, ?links, fun {t'} _ hs' hd => ?refill⟩
    case apart =>
      rw [hm, missingFrom, Finset.disjoint_biUnion_left]
      exact fun j hj => ho.apart i j (Finset.mem_Ico.mp hj).left (Finset.mem_Ico.mp hj).right
    case links =>
      have hsub : Finset.Ico (i + 1) k ⊆ Finset.Ico i k := Finset.Ico_subset_Ico_left i.le_succ
      have hmem : i ∈ Finset.Ico i k := Finset.left_mem_Ico.mpr hik
      rw [hm]
      exact Finset.union_subset (Finset.biUnion_subset_biUnion_of_subset_left _ hsub)
        (Finset.subset_biUnion_of_mem (fun j => missingPaths s s.space.pml4e (growRange heapEnd answers s.vmem j).paths) hmem)
    case refill =>
      have ht' : AtLevel roots heapEnd answers s (i + 1) (d + 1) t' := ht.succ hs'.tables.tree hs'.space hd
      obtain ⟨f, t'', hn, w⟩ : ∃ f t'', newPagetable heapEnd fuel t' = .ok (f, t'') ∧
        Filled heapEnd answers s k (i + 1) t' t'' := ih (by omega) hs' ht' (by omega)
      have hpool := ht'.pool
      have hample := ho.ample i hik
      have hlower := w.lower
      have hupper := w.upper
      refine ⟨f, t'', hn, w.grown, w.lock, by rw [w.size, hpool], ?_, by omega⟩
      rw [hm]
      omega

end Fill

section Needs

variable {newPagetable : Vm → Except Exit (Word × Vm)} {space : PageSpace} {virt flags f : Word} {t' : Vm}

-- Before anything is linked, `mapPages` gets by without a frame only if all tables are there.
theorem mapPages_go_dry (hr : space.pml4e ∈ roots) (hm : Has flags pageFlagMake)
    (hno : ∀ {t r}, Tree child t.tables roots 3 → t.space = s.space → Dry space.pml4e s t → newPagetable t ≠ .ok r)
    (tr : Tree child t.tables roots 3) (hsp : t.space = s.space) (hd : Dry space.pml4e s t)
    (h : mapPages.go newPagetable space phys virt flags b n t = .ok t') :
    ∀ i < n, ¬TableMissing s space.pml4e (virt + pageBytes (b + i)) := by
  induction n generalizing b t
  case zero => exact fun i hi => absurd hi (Nat.not_lt_zero i)
  case succ n hi =>
    simp only [mapPages.go] at h
    split at h
    case h_1 t₁ h₁ =>
      have l : LinkRule newPagetable space.pml4e (virt + pageBytes b) (· = t) fun u u' => u' = u := by
        refine ⟨fun _ => rfl, fun h₁ h₂ => h₂.trans h₁, fun h _ hw => h ▸ hw, ?_⟩
        rintro _ _ _ _ _ _ rfl _ _ _ hn _
        exact absurd hn (hno tr hsp hd)
      obtain ⟨_, pdpe, pde, pte, rfl, -, w₁, w₂, w₃, rfl⟩ := l.mapPage rfl h₁
      have rest := hi (finish_tree tr hr w₃) hsp ⟨hd.grown.trans (.finish tr hr w₁ w₂ w₃), hd.pool, hd.vmem, hd.blocks⟩ h
      intro i hlt
      cases i
      case zero =>
        rw [Nat.add_zero, tableMissing_iff, ← hd.grown.walk_eq (by simp), w₃]
        exact Option.some_ne_none _
      case succ i =>
        have := rest i (by omega)
        rwa [Nat.add_assoc, Nat.add_comm 1 i] at this
    case h_2 =>
      split at h
      case isTrue     => cases h
      case isFalse hn => exact absurd hm hn
    case h_3 => cases h

theorem newPagetable_needs (hr : s.space.pml4e ∈ roots) (hc : s.pageFrames.items.length < 20)
    (ht : AtLevel roots heapEnd answers s i m t) (h : Vmm.newPagetable heapEnd fuel t = .ok (f, t')) :
    ∃ j, ¬(growRange heapEnd answers s.vmem j).Needs s := by
  induction fuel generalizing t i m f t'
  case zero => cases h
  case succ fuel ih =>
    by_contra hall
    obtain ⟨count, hcount, h⟩ := Except.bind_ok_iff.mp h
    obtain ⟨t₁, hg, -⟩ := Except.bind_ok_iff.mp h
    rw [if_pos (by rw [Dstack.stackCount_eq hcount, ht.pool]; exact hc)] at hg
    obtain ⟨phys, sz, virt, blocks, stack, t₂, hb, hv, -, -⟩ := growPageStack_ok hg
    obtain ⟨head, next, marker, vmem, hvm, ha, rfl, hmap⟩ := vmallocPhys_ok hv
    cases m
    case zero =>
      rw [ht.blocks] at hb
      cases hb
    case succ m =>
      obtain ⟨he, hblocks⟩ := List.cons.inj (ht.blocks_cons.symm.trans hb)
      have hg : growMarker heapEnd sz (markersAt heapEnd answers s.vmem i) = (marker.base, vmem) := by
        rw [← ht.vmem, hvm, growMarker, ha]
      have hrange : growRange heapEnd answers s.vmem i = ⟨phys, marker.base, sz⟩ := by
        rw [growRange, he, hg]
      have hmapping : mapping heapEnd answers s i m t = { t with blocks, vmem } := by
        rw [mapping, hblocks, markersAt, he, hg]
      obtain ⟨hp, hv, j, hj, hmissing⟩ := not_not.mp (not_exists.mp hall i)
      rw [hrange] at hp hv hj hmissing
      rw [mapPages, if_neg (by simp [hp, hv])] at hmap
      have g : Grown s.space.pml4e ∅ s (mapping heapEnd answers s i m t) := ht.grown.trans (.of_tables_eq rfl)
      have hno : ∀ {u r}, Tree child u.tables roots 3 → u.space = (mapping heapEnd answers s i m t).space →
          Dry t.space.pml4e (mapping heapEnd answers s i m t) u → Vmm.newPagetable heapEnd fuel u ≠ .ok r := by
        intro u r tr hsp hd hu
        have hspace : u.space.pml4e = s.space.pml4e := (congrArg _ hsp).trans ht.space
        exact hall (ih (ht.succ tr hspace (ht.space ▸ hd)) hu)
      have hd : Dry t.space.pml4e (mapping heapEnd answers s i m t) (mapping heapEnd answers s i m t) :=
        ⟨.of_tables_eq rfl, rfl, rfl, rfl⟩
      have hmake : Has (formFlags (vflagMake ||| vflagWrite)) pageFlagMake := by decide
      have hr' : t.space.pml4e ∈ roots := ht.space ▸ hr
      rw [← hmapping] at hmap
      have tr : Tree child (mapping heapEnd answers s i m t).tables roots 3 := ht.tree
      refine mapPages_go_dry hr' hmake hno tr rfl hd hmap j hj ?_
      rw [tableMissing_iff, ht.space, g.walk_eq (by simp), Nat.zero_add, ← tableMissing_iff]
      exact hmissing

end Needs

section Returns

theorem newPagetable_lock {f : Word} (h : newPagetable heapEnd fuel s = .ok (f, s')) : s.pageFrames.lock = false := by
  cases fuel
  case zero => cases h
  case succ fuel =>
    obtain ⟨_, hcount, -⟩ := Except.bind_ok_iff.mp h
    obtain ⟨_, hlock, -⟩ := Except.bind_ok_iff.mp hcount
    exact getLock_ok hlock

theorem atLevel_zero (tr : Tree child s.tables roots 3) : AtLevel roots heapEnd answers s 0 k (answered s answers k) :=
  ⟨tr, rfl, .of_tables_eq rfl, rfl, rfl, by rw [answered, List.range_eq_range']⟩

end Returns

section Example

-- Blocks of 32 pages, one after the other.
def blocksFrom (phys : Word) : Answers :=
  fun i => (phys + BitVec.ofNat 64 (i * 0x20000), 0x20000)

theorem low_child {a b : Word} {i : Index} (h : child ((lowVm [] []).tables a i) = some b) :
    i = 0 ∧ b = a + 0x1000 ∧ a.toNat < 0x4000 := by
  simp only [lowVm] at h
  split at h
  case isFalse => cases h
  case isTrue hc =>
    obtain ⟨rfl, rfl | rfl | rfl⟩ := hc <;> exact ⟨rfl, (Option.some.inj h).symm, by decide⟩

theorem low_walk {a b : Word} {p : List Index} (h : walk child (lowVm [] []).tables a p = some b) :
    (∀ i ∈ p, i = 0) ∧ b = a + BitVec.ofNat 64 (p.length * 0x1000) := by
  induction p generalizing a
  case nil =>
    cases h
    simp
  case cons i p hi =>
    rw [walk] at h
    obtain ⟨c, hc, h⟩ := Option.bind_eq_some_iff.mp h
    obtain ⟨rfl, rfl, -⟩ := low_child hc
    obtain ⟨hz, rfl⟩ := hi h
    refine ⟨List.forall_mem_cons.mpr ⟨rfl, hz⟩, ?_⟩
    rw [BitVec.add_assoc, List.length_cons, Nat.add_mul, Nat.add_comm, BitVec.ofNat_add]
    rfl

theorem tree_low : Tree child (lowVm [] []).tables {0x1000} 3 := by
  rintro _ _ p p' a rfl rfl hp hp' hw hw'
  obtain ⟨hz, ha⟩ := low_walk hw
  obtain ⟨hz', ha'⟩ := low_walk hw'
  have hlen : p.length = p'.length := by
    have h := congrArg BitVec.toNat (ha.symm.trans ha')
    simp only [BitVec.toNat_add, BitVec.toNat_ofNat] at h
    omega
  refine ⟨rfl, ?_⟩
  rw [List.eq_replicate_of_mem hz, List.eq_replicate_of_mem hz', hlen]

-- The first range is the one at 0x1000, which has its tables.
theorem not_needs_low : ¬(growRange 0 (blocksFrom 0x200000) (lowVm [] []).vmem 0).Needs (lowVm [] []) := by
  rintro ⟨-, -, hi⟩
  revert hi
  decide +kernel

theorem orderly_low : Orderly {0x1000} 0 (blocksFrom 0x200000) (lowVm [] []) 0 := by
  have hspare : spareFrames (answered (lowVm [] []) (blocksFrom 0x200000) 1) = framesFrom 0x200000 33 := rfl
  have hframe : ∀ f ∈ framesFrom 0x200000 33, f ≠ 0#64 ∧ tableBase f = f ∧ 0x5000 ≤ f.toNat := by
    intro f hf
    obtain ⟨i, hi, rfl⟩ := mem_framesFrom hf
    have hphys : (0x200000 : Word).toNat = 0x200000 := rfl
    have h : (0x200000 + BitVec.ofNat 64 (i * 0x1000)).toNat = 0x200000 + i * 0x1000 := by
      rw [BitVec.toNat_add, hphys, BitVec.toNat_ofNat]
      omega
    refine ⟨fun hz => ?_, tableBase_of_aligned (isUnaligned_eq_zero_iff.mpr (by omega)) (by omega), by omega⟩
    rw [hz, BitVec.toNat_ofNat] at h
    omega
  refine ⟨⟨tree_low, rfl, fun f hf => ?spare, ?nodup⟩, fun f hf j => ?blank, by decide, nofun, by decide, nofun⟩
  case spare =>
    rw [hspare] at hf
    obtain ⟨hz, hb, hlo⟩ := hframe f hf
    refine ⟨hz, hb, ?_⟩
    rintro ⟨_, rfl, p, hp, hw⟩
    obtain ⟨-, rfl⟩ := low_walk hw
    rw [BitVec.toNat_add, BitVec.toNat_ofNat] at hlo
    have h : (0x1000 : Word).toNat = 0x1000 := rfl
    omega
  case nodup =>
    rw [hspare]
    exact nodup_framesFrom (b := (0x200000, 0x21000)) (by decide)
  case blank =>
    rw [hspare] at hf
    obtain ⟨-, -, hlo⟩ := hframe f hf
    have hne : ¬(j = 0 ∧ (f = 0x1000 ∨ f = 0x2000 ∨ f = 0x3000)) := by
      rintro ⟨-, rfl | rfl | rfl⟩ <;> exact absurd hlo (by decide)
    exact (congrArg tableBase (if_neg hne)).trans tableBase_zero

-- A space without tables, and an empty pool.
def bareVm : Vm :=
  { emptyVm with pageFrames := { items := [], maxSize := 800 } }

theorem markersAt_onPages : OnPages (markersAt heapEnd answers bareVm.vmem i) := by
  induction i
  case zero =>
    intro m hm
    rw [List.mem_singleton.mp hm]
    rfl
  case succ i hi =>
    rw [markersAt]
    unfold growMarker
    split
    case h_1 => exact nofun
    case h_2 hv =>
      rw [hv] at hi
      exact (placeMarker_onPages (fun _ => rfl) hi).right

theorem needs_bare : (growRange heapEnd (blocksFrom 0x10000000) bareVm.vmem i).Needs bareVm := by
  have hm := @markersAt_onPages heapEnd (blocksFrom 0x10000000) i
  refine ⟨?phys, ?virt, 0, (by decide : 0 < pagesFor 0x20000), .inl tableBase_zero⟩
  case phys =>
    rw [isUnaligned_eq_zero_iff, growRange, blocksFrom, BitVec.toNat_add, BitVec.toNat_ofNat]
    have h : (0x10000000 : Word).toNat = 0x10000000 := rfl
    omega
  case virt =>
    rw [isUnaligned_eq_zero_iff, growRange]
    unfold growMarker
    split
    case h_1 => rfl
    case h_2 hv =>
      rw [hv] at hm
      exact (placeMarker_onPages (fun _ => rfl) hm).left

end Example

end RoverOS.Vmm
