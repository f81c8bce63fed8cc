import RoverOS.Pmm.Init
import RoverOS.Pmm.Theorems.Reserved
import RoverOS.Pmm.Theorems.Select

-- When `initPMM` makes one region of each free entry of the memory map that holds a block: the three
-- loops count and number different entries, and what is reserved and allocated in between must stay in the
-- bitmaps.

namespace RoverOS.Pmm

open MemRegion

def holdsBlock (e : MmapEntry) : Prop :=
  isFree e ∧ e.bytes / orderMinBlockSize ≠ 0

instance (e : MmapEntry) : Decidable (holdsBlock e) :=
  inferInstanceAs (Decidable (_ ∧ _))

-- The calls of `createRegion` go to different slots of the table, one for each such entry.
structure OneEach (entries : List MmapEntry) : Prop where
  below : ∀ c ∈ regionCalls entries, c.1 < countRegions entries
  once  : ((regionCalls entries).map Prod.fst).Nodup
  each  : ∀ i e, entries[i]? = some e →
    ((regionCalls entries).map Prod.snd).count i = if holdsBlock e then 1 else 0

structure Describes (r : MemRegion) (e : MmapEntry) : Prop where
  type       : r.type = setRegionType e
  base       : r.base = e.phys
  limit      : r.limit = u64 (e.phys + e.bytes)
  blockCount : r.blockCount = blocksIn e.bytes

-- Every region that was created is still there, and every slot has been used.
structure Built (entries : List MmapEntry) (s : Regions) : Prop where
  length : s.region.length = countRegions entries
  kept   : ∀ c ∈ regionCalls entries, ∃ r e,
    s.region[c.1]? = some r ∧ entries[c.2]? = some e ∧ Describes r e
  slots  : ∀ n < countRegions entries, ∃ r, s.region[n]? = some r ∧
    ∃ (i : Nat) (e : MmapEntry), entries[i]? = some e ∧ holdsBlock e ∧ Describes r e

-- The first free entry that is not below 1 MB.
def IsFirst (entries : List MmapEntry) (i : Nat) : Prop :=
  (∃ e, entries[i]? = some e ∧ isFree e ∧ 0x100000 ≤ e.phys) ∧
    ∀ j < i, ∀ e, entries[j]? = some e → isFree e → e.phys < 0x100000

-- The loops agree: the free entries hold a block exactly when they are given a region, and the first
-- region gets the number that the last loop leaves.
structure Agree (entries : List MmapEntry) : Prop where
  same : ∀ i e, entries[i]? = some e → isFree e → (holdsBlock e ↔ ¬isParsed e ∨ IsFirst entries i)
  last : ∀ i, IsFirst entries i →
    u32 ((entries.take (i + 1)).countP (isFree ·)) + 1 = entries.countP (holdsBlock ·)
  few  : (∀ i, ¬IsFirst entries i) → entries.countP (holdsBlock ·) ≤ 2 ^ 32

-- The slots of the table when `initPMM` begins.
def emptyTable (entries : List MmapEntry) : List MemRegion :=
  List.replicate (countRegions entries) zeroRegion

-- A call of `createRegion` fills its slot.
def fillSlot (entries : List MmapEntry) (region : List MemRegion) (c : RegionCall) : List MemRegion :=
  region.modify c.1 fun old => entries[c.2]?.elim old (fillRegion old)

-- The words that `allocPhysAddress` writes for an allocation are in the bitmaps of the region it is found in.
def Reservable (region : List MemRegion) (a : MmapEntry) : Prop :=
  ∀ k r, regionAround a.phys region = some k → region[k]? = some r →
    AllIn r (reserveBlocksAccesses r (kalign a.phys) (blocksFor a.bytes))

-- For each call the allocations that its filter accepts are, in the regions that are filled by then.
def AmapFits (entries amap : List MmapEntry) : List RegionCall → List MemRegion → Prop
  | [],         _      => True
  | c :: calls, region =>
    (∀ e, entries[c.2]? = some e → ∀ a ∈ amap, Accepts e a → Reservable (fillSlot entries region c) a) ∧
      AmapFits entries amap calls (fillSlot entries region c)

-- `allocPhys` selects a region for the request, and its accesses to the bitmaps of that region are in them.
def Served (q : PhysRequest) (s : Regions) : Prop :=
  ∃ i r o, Selects q.bytes q.type q.flags s i ∧ s.region[i]? = some r ∧
    r.order[orderOf q.bytes]? = some o ∧ AllIn r (allocRegionAccesses r (orderOf q.bytes))

-- Each request is, in the state that the ones before it leave.
def AllServed (requests : List PhysRequest) (s : Regions) : Prop :=
  ∀ pre q post s', requests = pre ++ q :: post → allocAll pre s = .ok s' → Served q s'

-- That state, for the first request.
def AfterFirst (entries amap : List MmapEntry) (s : Regions) : Prop :=
  createRegions entries amap (firstRegion 0 0 entries).toList { region := emptyTable entries } = .ok s

variable {entries es amap : List MmapEntry} {e : MmapEntry} {i j k n c rn frn : Nat}
variable {r r' : MemRegion} {region : List MemRegion} {s s' : Regions} {calls : List RegionCall}

section Loops

theorem countRegions_eq : countRegions entries = entries.countP (holdsBlock ·) := by
  induction entries
  case nil => rfl
  case cons e es hi =>
    by_cases hf : isFree e <;> by_cases hb : e.bytes / orderMinBlockSize = 0 <;>
      simp [countRegions, holdsBlock, hf, hb, hi, -Nat.div_eq_zero_iff]

theorem laterRegions_snd : (laterRegions rn i es).map Prod.snd =
    es.findIdxs (fun e => isFree e ∧ ¬isParsed e) i := by
  induction es generalizing rn i
  case nil => rfl
  case cons e es hi =>
    by_cases hf : isFree e <;> by_cases hp : isParsed e <;> simp [laterRegions, hf, hp, hi]

theorem laterRegions_fst : (laterRegions (u32 c) i es).map Prod.fst =
    (List.range' c (laterRegions (u32 c) i es).length).map u32 := by
  induction es generalizing c i
  case nil => rfl
  case cons e es hi =>
    unfold laterRegions
    split
    case isTrue => exact hi
    case isFalse =>
      split
      case isTrue  => exact hi
      case isFalse =>
        rw [List.map_cons, List.length_cons, List.range'_succ, List.map_cons, u32_succ, hi]

theorem setRegionType_low :
    (setRegionType e ≠ memoryTypeLow ∧ setRegionType e ≠ memoryTypeHgh) ↔ e.phys < 0x100000 := by
  unfold setRegionType
  split
  case isTrue h  => simp [h, memoryType1MB, memoryTypeLow, memoryTypeHgh]
  case isFalse h => split <;> simp [h, memoryTypeLow, memoryTypeHgh]

theorem isFirst_cons : IsFirst (e :: es) i ↔ (i = 0 ∧ isFree e ∧ 0x100000 ≤ e.phys) ∨
    ∃ j, i = j + 1 ∧ (isFree e → e.phys < 0x100000) ∧ IsFirst es j := by
  cases i
  case zero   => simp [IsFirst]
  case succ i =>
    simp only [IsFirst, List.getElem?_cons_succ, Nat.add_right_cancel_iff, Nat.succ_ne_zero, false_and,
      false_or, exists_eq_left']
    constructor
    case mp =>
      rintro ⟨h, hb⟩
      exact ⟨hb 0 (Nat.succ_pos i) e rfl, h, fun j hj => hb (j + 1) (Nat.succ_lt_succ hj)⟩
    case mpr =>
      rintro ⟨he, h, hb⟩
      refine ⟨h, fun j hj => ?_⟩
      cases j
      case zero   => exact fun e' h' => by cases h'; exact he
      case succ j => exact hb j (Nat.lt_of_succ_lt_succ hj)

theorem firstRegion_eq : firstRegion (u32 c) i es = some (n, k) ↔
    ∃ j, k = i + j ∧ IsFirst es j ∧ n = u32 (c + (es.take (j + 1)).countP (isFree ·)) := by
  induction es generalizing c i
  case nil => simp [firstRegion, IsFirst]
  case cons e es hi =>
    -- What comes behind an entry that is passed over, when `m` is its share of the count.
    have hnext (c' m : Nat) (he : isFree e → e.phys < 0x100000) (hm : c' = c + m)
        (hc : m = if isFree e then 1 else 0) : firstRegion (u32 c') (i + 1) es = some (n, k) ↔
        ∃ j, k = i + j ∧ IsFirst (e :: es) j ∧
          n = u32 (c + ((e :: es).take (j + 1)).countP (isFree ·)) := by
      rw [hi]
      constructor
      case mp =>
        rintro ⟨j, rfl, hf, rfl⟩
        refine ⟨j + 1, by omega, isFirst_cons.mpr (.inr ⟨j, rfl, he, hf⟩), ?_⟩
        rw [List.take_succ_cons, List.countP_cons, hm, hc]
        simp only [decide_eq_true_eq]
        congr 1
        omega
      case mpr =>
        rintro ⟨j, rfl, hf, rfl⟩
        rcases isFirst_cons.mp hf with ⟨_, hfree, hp⟩ | ⟨j', rfl, _, hf⟩
        · exact absurd (he hfree) (by omega)
        · refine ⟨j', by omega, hf, ?_⟩
          rw [List.take_succ_cons, List.countP_cons, hm, hc]
          simp only [decide_eq_true_eq]
          congr 1
          omega
    unfold firstRegion
    by_cases hf : isFree e
    case neg =>
      rw [if_pos hf]
      exact hnext c 0 (fun h => absurd h hf) rfl (if_neg hf).symm
    case pos =>
      rw [if_neg (not_not_intro hf), u32_succ]
      dsimp only
      split
      case isTrue hlow => exact hnext (c + 1) 1 (fun _ => setRegionType_low.mp hlow) rfl (if_pos hf).symm
      case isFalse hhigh =>
        have hp : 0x100000 ≤ e.phys := by
          rw [setRegionType_low] at hhigh
          omega
        have hz {j : Nat} : IsFirst (e :: es) j ↔ j = 0 := by
          rw [isFirst_cons]
          constructor
          case mp =>
            rintro (⟨h, _⟩ | ⟨j', _, hlow, _⟩)
            · exact h
            · exact absurd (hlow hf) (by omega)
          case mpr => exact fun h => .inl ⟨h, hf, hp⟩
        simp only [hz, Option.some.injEq, Prod.mk.injEq]
        constructor
        case mp =>
          rintro ⟨rfl, rfl⟩
          exact ⟨0, rfl, rfl, by simp [hf]⟩
        case mpr =>
          rintro ⟨j, rfl, rfl, rfl⟩
          exact ⟨by simp [hf], rfl⟩

end Loops

section Numbers

def laterCalls (entries : List MmapEntry) : List RegionCall :=
  laterRegions 0 0 (entriesAfter (firstRegion 0 0 entries) entries)

theorem firstRegion_some : firstRegion 0 0 entries = some (frn, k) ↔
    IsFirst entries k ∧ frn = u32 ((entries.take (k + 1)).countP (isFree ·)) := by
  have h := @firstRegion_eq entries 0 k frn 0
  rw [show u32 0 = 0 from rfl] at h
  simpa using h

theorem firstRegion_none : firstRegion 0 0 entries = none ↔ ∀ k, ¬IsFirst entries k := by
  rw [Option.eq_none_iff_forall_ne_some]
  constructor
  case mp  => exact fun h k hk => h _ (firstRegion_some.mpr ⟨hk, rfl⟩)
  case mpr => exact fun h c hc => h c.2 (firstRegion_some.mp hc).left

theorem isFirst_unique (h : IsFirst entries i) (h' : IsFirst entries j) : i = j := by
  have ⟨⟨e, he, hf, hp⟩, hb⟩ := h
  have ⟨⟨e', he', hf', hp'⟩, hb'⟩ := h'
  by_contra hne
  rcases Nat.lt_or_gt_of_ne hne with hlt | hlt
  · exact absurd (hb' i hlt e he hf) (by omega)
  · exact absurd (hb j hlt e' he' hf') (by omega)

theorem mem_positions {p : MmapEntry → Prop} [DecidablePred p] :
    i ∈ entries.findIdxs (p ·) ↔ ∃ e, entries[i]? = some e ∧ p e := by
  rw [List.mem_findIdxs_iff_exists_getElem_pos]
  simp only [decide_eq_true_eq, List.getElem?_eq_some_iff]
  constructor
  case mp =>
    rintro ⟨hi, h⟩
    exact ⟨_, ⟨hi, rfl⟩, h⟩
  case mpr =>
    rintro ⟨e, ⟨hi, rfl⟩, h⟩
    exact ⟨hi, h⟩

theorem isParsed_markParsed (e : MmapEntry) : isParsed (markParsed e) := by
  rw [isParsed, markParsed, Nat.and_or_distrib_right, Nat.and_self]
  intro h
  exact absurd (Nat.or_eq_zero_iff.mp h).right (by decide)

-- The first region's entry is not looked at again.
theorem mem_laterCalls : i ∈ (laterCalls entries).map Prod.snd ↔
    (∃ e, entries[i]? = some e ∧ isFree e ∧ ¬isParsed e) ∧ ¬IsFirst entries i := by
  rw [laterCalls, laterRegions_snd, mem_positions]
  cases hf : firstRegion 0 0 entries
  case none => simp [entriesAfter, firstRegion_none.mp hf i]
  case some c =>
    have ⟨hc, _⟩ := firstRegion_some.mp hf
    simp only [entriesAfter, List.getElem?_modify]
    by_cases hi : c.2 = i
    case pos =>
      subst hi
      simp only [if_pos, hc, not_true_eq_false, and_false, iff_false]
      rintro ⟨e, he, _, hp⟩
      have ⟨e', _, he'⟩ := Option.map_eq_some_iff.mp he
      exact hp (he' ▸ isParsed_markParsed e')
    case neg =>
      have hn : ¬IsFirst entries i := fun h => hi (isFirst_unique hc h)
      simp [hi, hn]

theorem regionCalls_eq : regionCalls entries = (firstRegion 0 0 entries).toList ++ laterCalls entries :=
  rfl

theorem mem_regionCalls : i ∈ (regionCalls entries).map Prod.snd ↔
    ∃ e, entries[i]? = some e ∧ isFree e ∧ (¬isParsed e ∨ IsFirst entries i) := by
  rw [regionCalls_eq, List.map_append, List.mem_append, mem_laterCalls]
  have hfirst : i ∈ (firstRegion 0 0 entries).toList.map Prod.snd ↔ IsFirst entries i := by
    cases hf : firstRegion 0 0 entries
    case none   => simp [firstRegion_none.mp hf i]
    case some c =>
      obtain ⟨hc, _⟩ := firstRegion_some.mp hf
      simp only [Option.toList_some, List.map_singleton, List.mem_singleton]
      exact ⟨fun h => h ▸ hc, fun h => isFirst_unique h hc⟩
  rw [hfirst]
  constructor
  case mp =>
    rintro (h | ⟨⟨e, he, hf, hp⟩, _⟩)
    · obtain ⟨e, he, hf, _⟩ := h.left
      exact ⟨e, he, hf, .inr h⟩
    · exact ⟨e, he, hf, .inl hp⟩
  case mpr =>
    rintro ⟨e, he, hf, h⟩
    by_cases hi : IsFirst entries i
    case pos => exact .inl hi
    case neg => exact .inr ⟨⟨e, he, hf, h.resolve_right hi⟩, hi⟩

theorem nodup_positions : ((regionCalls entries).map Prod.snd).Nodup := by
  rw [regionCalls_eq, List.map_append, List.nodup_append]
  refine ⟨?first, ?later, ?apart⟩
  case first => cases firstRegion 0 0 entries <;> simp
  case later => rw [laterCalls, laterRegions_snd]; exact List.nodup_findIdxs
  case apart =>
    intro i hi j hj he
    subst he
    cases hf : firstRegion 0 0 entries
    case none => simp [hf] at hi
    case some c =>
      simp only [hf, Option.toList_some, List.map_singleton, List.mem_singleton] at hi
      exact (mem_laterCalls.mp hj).right (hi ▸ (firstRegion_some.mp hf).left)

theorem each_iff : (∀ i e, entries[i]? = some e →
      ((regionCalls entries).map Prod.snd).count i = if holdsBlock e then 1 else 0) ↔
    ∀ i e, entries[i]? = some e → isFree e → (holdsBlock e ↔ ¬isParsed e ∨ IsFirst entries i) := by
  refine forall₃_congr fun i e he => ?_
  have hm : i ∈ (regionCalls entries).map Prod.snd ↔ isFree e ∧ (¬isParsed e ∨ IsFirst entries i) := by
    rw [mem_regionCalls]
    simp only [he, Option.some.injEq, exists_eq_left']
  rw [nodup_positions.count]
  by_cases hi : i ∈ (regionCalls entries).map Prod.snd
  case pos =>
    have ⟨hf, hc⟩ := hm.mp hi
    rw [if_pos hi]
    by_cases hb : holdsBlock e <;> simp [hf, hc, hb]
  case neg =>
    rw [if_neg hi]
    by_cases hf : isFree e
    case neg => simp [hf, holdsBlock]
    case pos =>
      have hc : ¬(¬isParsed e ∨ IsFirst entries i) := fun h => hi (hm.mpr ⟨hf, h⟩)
      rw [iff_false_intro hc]
      by_cases hb : holdsBlock e <;> simp [hf, hb]

-- Then there are as many calls as slots.
theorem length_regionCalls
    (h : ∀ i e, entries[i]? = some e → isFree e → (holdsBlock e ↔ ¬isParsed e ∨ IsFirst entries i)) :
    (regionCalls entries).length = entries.countP (holdsBlock ·) := by
  have hp : ((regionCalls entries).map Prod.snd).Perm (entries.findIdxs (holdsBlock ·)) := by
    rw [List.perm_ext_iff_of_nodup nodup_positions List.nodup_findIdxs]
    intro i
    rw [mem_regionCalls, mem_positions]
    refine exists_congr fun e => and_congr_right fun he => ?_
    exact ⟨fun ⟨hf, hc⟩ => (h i e he hf).mpr hc, fun hb => ⟨hb.left, (h i e he hb.left).mp hb⟩⟩
  have hl := hp.length_eq
  rwa [List.length_map, List.length_findIdxs] at hl

theorem laterCalls_fst :
    (laterCalls entries).map Prod.fst = (List.range (laterCalls entries).length).map u32 := by
  rw [List.range_eq_range']
  exact laterRegions_fst (c := 0)

theorem mem_numbers (h : k ≤ 2 ^ 32) : n ∈ (List.range k).map u32 ↔ n < k := by
  rw [List.mem_map]
  constructor
  case mp =>
    rintro ⟨j, hj, rfl⟩
    exact Nat.lt_of_le_of_lt (Nat.mod_le _ _) (List.mem_range.mp hj)
  case mpr => exact fun hn => ⟨n, List.mem_range.mpr hn, u32_of_lt (by omega)⟩

theorem nodup_numbers : ((List.range k).map u32).Nodup ↔ k ≤ 2 ^ 32 := by
  constructor
  case mp =>
    intro h
    by_contra hk
    have he := List.inj_on_of_nodup_map h (List.mem_range.mpr (by omega : 0 < k))
      (List.mem_range.mpr (by omega : 2 ^ 32 < k)) rfl
    omega
  case mpr =>
    intro hk
    refine List.nodup_range.map_on fun i hi j hj he => ?_
    have hi := List.mem_range.mp hi
    have hj := List.mem_range.mp hj
    rwa [u32_of_lt (by omega), u32_of_lt (by omega)] at he

-- Without a first region the numbers go up from 0.
theorem numbers_none (hf : firstRegion 0 0 entries = none)
    (hl : (regionCalls entries).length = countRegions entries) :
    ((∀ c ∈ regionCalls entries, c.1 < countRegions entries) ∧
      ((regionCalls entries).map Prod.fst).Nodup) ↔ countRegions entries ≤ 2 ^ 32 := by
  have hc : regionCalls entries = laterCalls entries := by rw [regionCalls_eq, hf]; rfl
  rw [← hl, hc, laterCalls_fst, nodup_numbers]
  refine and_iff_right_of_imp fun hk c hm => ?_
  have hm := List.mem_map_of_mem (f := Prod.fst) hm
  rw [laterCalls_fst] at hm
  exact (mem_numbers hk).mp hm

-- With one, its number must be the one that is left.
theorem numbers_some (hf : firstRegion 0 0 entries = some (frn, i))
    (hl : (regionCalls entries).length = countRegions entries) :
    ((∀ c ∈ regionCalls entries, c.1 < countRegions entries) ∧
      ((regionCalls entries).map Prod.fst).Nodup) ↔ frn + 1 = countRegions entries := by
  have hc : regionCalls entries = (frn, i) :: laterCalls entries := by rw [regionCalls_eq, hf]; rfl
  have hfrn : frn < 2 ^ 32 := (firstRegion_some.mp hf).right ▸ u32_lt _
  rw [hc, List.length_cons] at hl
  rw [← hl, hc, List.map_cons, List.nodup_cons, laterCalls_fst, nodup_numbers]
  constructor
  case mp =>
    rintro ⟨hb, hn, hk⟩
    have hlt := hb (frn, i) (List.mem_cons_self ..)
    rw [mem_numbers hk] at hn
    dsimp only at hlt
    omega
  case mpr =>
    intro he
    have hk : (laterCalls entries).length ≤ 2 ^ 32 := by omega
    rw [mem_numbers hk]
    refine ⟨fun c hm => ?_, by omega, hk⟩
    cases List.mem_cons.mp hm
    case inl h => subst h; dsimp only; omega
    case inr h =>
      have hm := List.mem_map_of_mem (f := Prod.fst) h
      rw [laterCalls_fst, mem_numbers hk] at hm
      omega

theorem oneEach_iff : OneEach entries ↔ Agree entries := by
  have hiff (hs : ∀ i e, entries[i]? = some e → isFree e →
      (holdsBlock e ↔ ¬isParsed e ∨ IsFirst entries i)) :
      ((∀ c ∈ regionCalls entries, c.1 < countRegions entries) ∧
        ((regionCalls entries).map Prod.fst).Nodup) ↔
        (∀ i, IsFirst entries i →
          u32 ((entries.take (i + 1)).countP (isFree ·)) + 1 = entries.countP (holdsBlock ·)) ∧
          ((∀ i, ¬IsFirst entries i) → entries.countP (holdsBlock ·) ≤ 2 ^ 32) := by
    have hl := (length_regionCalls hs).trans countRegions_eq.symm
    cases hf : firstRegion 0 0 entries
    case none =>
      have hn := firstRegion_none.mp hf
      rw [numbers_none hf hl, countRegions_eq]
      exact ⟨fun h => ⟨fun i hi => absurd hi (hn i), fun _ => h⟩, fun h => h.right hn⟩
    case some c =>
      have ⟨hc, hfrn⟩ := firstRegion_some.mp hf
      rw [numbers_some hf hl, countRegions_eq, hfrn]
      exact ⟨fun h => ⟨fun i hi => isFirst_unique hc hi ▸ h, fun hn => absurd hc (hn c.2)⟩,
        fun h => h.left c.2 hc⟩
  constructor
  case mp =>
    intro h
    have hs := each_iff.mp h.each
    have ⟨hl, hf⟩ := (hiff hs).mp ⟨h.below, h.once⟩
    exact ⟨hs, hl, hf⟩
  case mpr =>
    intro h
    have ⟨hb, ho⟩ := (hiff h.same).mpr ⟨h.last, h.few⟩
    exact ⟨hb, ho, each_iff.mpr h.same⟩

end Numbers

section Outlines

theorem above_outline (h : Above k r r') : outline r' = outline r := by
  rw [h.frame]
  rfl

theorem setChildren_above {idx bit : Nat} (h : setChildren idx bit i n r = .ok r') : Above 0 r r' := by
  induction n generalizing idx bit i r
  case zero =>
    cases h
    exact .refl _ _
  case succ n hi =>
    have ⟨r₁, h₁, h⟩ := Except.bind_ok_iff.mp h
    have ha := modify_above h₁
    exact Above.trans ⟨ha.frame, fun i hi => absurd hi (Nat.not_lt_zero i)⟩ (hi h) le_rfl

theorem setBit_above {order idx bit : Nat} (h : setBit r order idx bit = .ok r') : Above 0 r r' := by
  have ⟨r₁, h₁, h⟩ := Except.bind_ok_iff.mp h
  have ⟨r₂, h₂, h⟩ := Except.bind_ok_iff.mp h
  exact (setChildren_above h₁).trans ((modify_above h₂).trans (setParents_above h) (by omega)) (by omega)

theorem allocRegion_above {order ptr : Nat} (h : allocRegion r order = .ok (ptr, r')) : Above 0 r r' := by
  unfold allocRegion at h
  split at h
  case h_1 => cases h
  case h_2 =>
    split at h
    case isTrue  => cases h; exact .refl _ _
    case isFalse =>
      have ⟨found, _, h⟩ := Except.bind_ok_iff.mp h
      split at h
      case h_1 => cases h; exact .refl _ _
      case h_2 =>
        have ⟨r₁, h₁, h⟩ := Except.bind_ok_iff.mp h
        cases h
        exact setBit_above h₁

theorem allocPhys_outlines {bytes type : Nat} {flags : BitVec 16} {ret : Nat × Nat}
    (h : allocPhys bytes type flags s = .ok (ret, s')) : outlines s'.region = outlines s.region := by
  have ⟨_, _, h⟩ := Except.bind_ok_iff.mp h
  dsimp only at h
  split at h
  case isTrue  => cases h; rfl
  case isFalse =>
    have ⟨best, _, h⟩ := Except.bind_ok_iff.mp h
    split at h
    case h_1 => cases h
    case h_2 i =>
      split at h
      case h_1 => cases h
      case h_2 r hr =>
        have ⟨⟨ptr, r'⟩, h₁, h⟩ := Except.bind_ok_iff.mp h
        cases h
        exact outlines_set hr (above_outline (allocRegion_above h₁))

theorem allocAll_outlines {requests : List PhysRequest} (h : allocAll requests s = .ok s') :
    outlines s'.region = outlines s.region := by
  induction requests generalizing s
  case nil => cases h; rfl
  case cons q requests hi =>
    have ⟨⟨ret, s₁⟩, h₁, h⟩ := Except.bind_ok_iff.mp h
    exact (hi h).trans (allocPhys_outlines h₁)

theorem allocPhysAddress_outlines {addr bytes ret : Nat}
    (h : allocPhysAddress addr bytes s = .ok (ret, s')) : outlines s'.region = outlines s.region := by
  rcases allocPhysAddress_ok h with ⟨_, _, rfl⟩ | ⟨i, r, r', _, hr, hb, _, rfl⟩
  · rfl
  · exact outlines_set hr (reserveBlocks_marked hb).outline_eq

theorem reserveAll_outlines (h : reserveAll e amap s = .ok s') : outlines s'.region = outlines s.region := by
  induction amap generalizing s
  case nil => cases h; rfl
  case cons a amap hi =>
    unfold reserveAll at h
    split at h
    case isTrue  => exact hi h
    case isFalse =>
      obtain ⟨⟨ret, s₁⟩, h₁, h⟩ := Except.bind_ok_iff.mp h
      exact (hi h).trans (allocPhysAddress_outlines h₁)

end Outlines

section Run

-- What region `n` is filled with, apart from its orders.
def DescribesAt (region : List MemRegion) (n : Nat) (e : MmapEntry) : Prop :=
  ∃ r, region[n]? = some r ∧ Describes r e

theorem DescribesAt.congr {region' : List MemRegion} (hd : DescribesAt region n e)
    (h : outlines region' = outlines region) : DescribesAt region' n e := by
  obtain ⟨r, hr, hd⟩ := hd
  have hg : (outlines region')[n]? = some (outline r) := by rw [h, outlines, List.getElem?_map, hr]; rfl
  rw [outlines, List.getElem?_map] at hg
  obtain ⟨r', hr', he⟩ := Option.map_eq_some_iff.mp hg
  have ht := congrArg MemRegion.type he
  have hb := congrArg MemRegion.base he
  have hl := congrArg MemRegion.limit he
  have hc := congrArg MemRegion.blockCount he
  exact ⟨r', hr', ht.trans hd.type, hb.trans hd.base, hl.trans hd.limit, hc.trans hd.blockCount⟩

theorem createRegion_describes (h : createRegion rn e amap s = .ok s') :
    DescribesAt s'.region rn e ∧ s'.region.length = s.region.length ∧
      ∀ n e', n ≠ rn → DescribesAt s.region n e' → DescribesAt s'.region n e' := by
  unfold createRegion at h
  split at h
  case h_1 => cases h
  case h_2 old hold =>
    obtain ⟨hlt, _⟩ := List.getElem?_eq_some_iff.mp hold
    have hf := reserveAll_outlines h
    have hnew : DescribesAt (s.region.set rn (fillRegion old e)) rn e :=
      ⟨_, List.getElem?_set_self hlt, rfl, rfl, rfl, rfl⟩
    refine ⟨hnew.congr hf, ?_, fun n e' hn hd => DescribesAt.congr ?_ hf⟩
    · have hl := congrArg List.length hf
      simpa [outlines] using hl
    · obtain ⟨r, hr, hd⟩ := hd
      exact ⟨r, (List.getElem?_set_ne hn.symm).trans hr, hd⟩

theorem createRegions_describes (h : createRegions entries amap calls s = .ok s')
    (hn : (calls.map Prod.fst).Nodup) : s'.region.length = s.region.length ∧
      (∀ c ∈ calls, ∃ e, entries[c.2]? = some e ∧ DescribesAt s'.region c.1 e) ∧
      ∀ n e, n ∉ calls.map Prod.fst → DescribesAt s.region n e → DescribesAt s'.region n e := by
  fun_induction createRegions entries amap calls s
  case case1 =>
    cases h
    exact ⟨rfl, fun c hc => absurd hc (List.not_mem_nil), fun _ _ _ h => h⟩
  case case2 => cases h
  case case3 rn i calls s e he hi =>
    have ⟨s₁, h₁, h⟩ := Except.bind_ok_iff.mp h
    rw [List.map_cons, List.nodup_cons] at hn
    have ⟨hd, hl, hk⟩ := createRegion_describes h₁
    have ⟨hl', hd', hk'⟩ := hi s₁ h hn.right
    refine ⟨hl'.trans hl, fun c hc => ?_, fun n e' hc hd => ?_⟩
    case refine_1 =>
      cases List.mem_cons.mp hc
      case inl hc => exact hc ▸ ⟨e, he, hk' rn e hn.left hd⟩
      case inr hc => exact hd' c hc
    case refine_2 =>
      rw [List.map_cons, List.mem_cons, not_or] at hc
      exact hk' n e' hc.right (hk n e' hc.left hd)

-- The mark that the first region's entry gets is not read for a region.
theorem describesAt_entriesAfter {first : Option RegionCall}
    (he : (entriesAfter first entries)[i]? = some e) (hd : DescribesAt region n e) :
    ∃ e', entries[i]? = some e' ∧ DescribesAt region n e' := by
  cases first
  case none => exact ⟨e, he, hd⟩
  case some c =>
    simp only [entriesAfter, List.getElem?_modify] at he
    have ⟨e', he', hm⟩ := Option.map_eq_some_iff.mp he
    refine ⟨e', he', ?_⟩
    split at hm
    case isFalse => exact hm ▸ hd
    case isTrue =>
      have ⟨r, hr, hd⟩ := hd
      subst hm
      exact ⟨r, hr, hd.type, hd.base, hd.limit, hd.blockCount⟩

theorem initPMM_describes {requests : List PhysRequest} (h : initPMM entries amap requests = .ok s)
    (hn : ((regionCalls entries).map Prod.fst).Nodup) : s.region.length = countRegions entries ∧
      ∀ c ∈ regionCalls entries, ∃ e, entries[c.2]? = some e ∧ DescribesAt s.region c.1 e := by
  obtain ⟨s₁, h₁, h⟩ := Except.bind_ok_iff.mp h
  obtain ⟨s₂, h₂, h₃⟩ := Except.bind_ok_iff.mp h
  rw [regionCalls_eq, List.map_append, List.nodup_append] at hn
  obtain ⟨hn₁, hn₂, hne⟩ := hn
  obtain ⟨hl₁, hd₁, _⟩ := createRegions_describes h₁ hn₁
  have ho := allocAll_outlines h₂
  obtain ⟨hl₂, hd₂, hk⟩ := createRegions_describes h₃ hn₂
  refine ⟨?_, fun c hc => ?_⟩
  case refine_1 =>
    have hl := congrArg List.length ho
    simp only [outlines, List.length_map] at hl
    rw [hl₂, hl, hl₁, List.length_replicate]
  case refine_2 =>
    cases List.mem_append.mp hc
    case inl hc =>
      obtain ⟨e, he, hd⟩ := hd₁ c hc
      have hnot : c.1 ∉ (laterCalls entries).map Prod.fst := fun hm =>
        hne c.1 (List.mem_map_of_mem hc) c.1 hm rfl
      exact ⟨e, he, hk c.1 e hnot (hd.congr ho)⟩
    case inr hc =>
      obtain ⟨e, he, hd⟩ := hd₂ c hc
      exact describesAt_entriesAfter he hd

-- As many different numbers as slots leave no slot out.
theorem OneEach.exists_call (h : OneEach entries) (hn : n < countRegions entries) :
    ∃ c ∈ regionCalls entries, c.1 = n := by
  have hl := (length_regionCalls (each_iff.mp h.each)).trans countRegions_eq.symm
  have hsub : ((regionCalls entries).map Prod.fst).toFinset ⊆ Finset.range (countRegions entries) := by
    intro k hk
    have ⟨c, hc, he⟩ := List.mem_map.mp (List.mem_toFinset.mp hk)
    exact Finset.mem_range.mpr (he ▸ h.below c hc)
  have heq := Finset.eq_of_subset_of_card_le hsub (by
    rw [Finset.card_range, List.toFinset_card_of_nodup h.once, List.length_map, hl])
  have hm : n ∈ ((regionCalls entries).map Prod.fst).toFinset := heq ▸ Finset.mem_range.mpr hn
  exact List.mem_map.mp (List.mem_toFinset.mp hm)

theorem OneEach.holdsBlock (h : OneEach entries) {c : RegionCall} (hc : c ∈ regionCalls entries)
    (he : entries[c.2]? = some e) : holdsBlock e := by
  by_contra hb
  have hcount := h.each c.2 e he
  rw [if_neg hb] at hcount
  exact List.count_eq_zero.mp hcount (List.mem_map_of_mem hc)

theorem OneEach.built {requests : List PhysRequest} (h : OneEach entries)
    (hs : initPMM entries amap requests = .ok s) : Built entries s := by
  have ⟨hl, hd⟩ := initPMM_describes hs h.once
  refine ⟨hl, fun c hc => ?_, fun n hn => ?_⟩
  case refine_1 =>
    have ⟨e, he, r, hr, hd⟩ := hd c hc
    exact ⟨r, e, hr, he, hd⟩
  case refine_2 =>
    have ⟨c, hc, hcn⟩ := h.exists_call hn
    have ⟨e, he, r, hr, hd⟩ := hd c hc
    exact ⟨r, hcn ▸ hr, c.2, e, he, h.holdsBlock hc he, hd⟩

end Run

section Return

variable {T : List MemRegion} {requests : List PhysRequest} {q : PhysRequest} {t old : MemRegion} {c : RegionCall}
  {a : MmapEntry} {addr bytes : Nat}

theorem allocPhysAddress_none (hl : s.buddyLock = false) (hn : regionAround addr s.region = none) :
    allocPhysAddress addr bytes s = .ok (memoryAllocationFailed, s) := by
  rw [allocPhysAddress, hl, hn]
  rfl

theorem allocPhysAddress_some (hl : s.buddyLock = false) (hi : regionAround addr s.region = some i)
    (hr : s.region[i]? = some r) (h : reserveBlocks (kalign addr) (blocksFor bytes) r = .ok r') :
    allocPhysAddress addr bytes s = .ok (addr, { s with region := s.region.set i r' }) := by
  rw [allocPhysAddress, hl, hi]
  simp only [hr]
  exact Except.bind_ok_iff.mpr ⟨(), rfl, Except.bind_ok_iff.mpr ⟨r', h, rfl⟩⟩

-- The regions differ from those of a table only in what is marked.
structure Tracks (T : List MemRegion) (s : Regions) : Prop where
  length  : s.region.length = T.length
  keeps {i : Nat} {t r : MemRegion} : T[i]? = some t → s.region[i]? = some r → Keeps t r
  uniform : ∀ t ∈ T, AllUniform t
  lock    : s.buddyLock = false

theorem makeOrders_size {os os' : List MemOrder} {blc : Nat} (h : os'.map MemOrder.size = os.map MemOrder.size) :
    (makeOrders blc os').map MemOrder.size = (makeOrders blc os).map MemOrder.size := by
  induction os generalizing os' blc
  case nil =>
    rw [List.map_nil, List.map_eq_nil_iff] at h
    rw [h]
  case cons o os hi =>
    rcases os' with _ | ⟨o', os'⟩
    · simp at h
    · obtain ⟨ho, hos⟩ := List.cons.inj h
      rw [makeOrders, makeOrders, List.map_cons, List.map_cons, hi hos]
      split
      · rfl
      · rw [ho]

theorem Keeps.filled (h : Keeps t r) (hu : AllUniform t) : Keeps (fillRegion t e) (fillRegion r e) where
  frame := by
    have hflags : r.flags = t.flags := by rw [h.frame]
    simp only [fillRegion, hflags]
  size      := makeOrders_size h.size
  uniform _ := (h.uniform hu).filled

namespace Tracks

theorem empty : Tracks (emptyTable entries) { region := emptyTable entries } where
  length := rfl
  keeps ht hr := by
    cases ht.symm.trans hr
    exact .refl _
  uniform t ht := List.eq_of_mem_replicate ht ▸ allUniform_zeroRegion
  lock := rfl

variable (h : Tracks T s)
include h

theorem exists_slot (hr : s.region[i]? = some r) : ∃ t, T[i]? = some t :=
  ⟨_, List.getElem?_eq_getElem (h.length ▸ (List.getElem?_eq_some_iff.mp hr).1)⟩

theorem exists_region (ht : T[i]? = some t) : ∃ r, s.region[i]? = some r :=
  ⟨_, List.getElem?_eq_getElem (h.length.symm ▸ (List.getElem?_eq_some_iff.mp ht).1)⟩

theorem outlines_eq : outlines s.region = outlines T := by
  apply List.ext_getElem?
  intro i
  rw [outlines, outlines, List.getElem?_map, List.getElem?_map]
  cases ht : T[i]?
  case none =>
    rw [List.getElem?_eq_none_iff, ← h.length] at ht
    rw [List.getElem?_eq_none_iff.mpr ht]
  case some t =>
    obtain ⟨r, hr⟩ := h.exists_region ht
    rw [hr, Option.map_some, Option.map_some, outline, outline, (h.keeps ht hr).frame]

theorem step (hr : s.region[i]? = some r) (hk : Keeps r r') :
    Tracks T { s with region := s.region.set i r' } where
  length := List.length_set.trans h.length
  keeps := by
    intro j t x ht hx
    by_cases hij : i = j
    case pos =>
      subst hij
      rw [List.getElem?_set_self (List.getElem?_eq_some_iff.mp hr).1] at hx
      cases hx
      exact (h.keeps ht hr).trans hk
    case neg =>
      rw [List.getElem?_set_ne hij] at hx
      exact h.keeps ht hx
  uniform := h.uniform
  lock    := h.lock

theorem fill (ht : T[i]? = some t) (hr : s.region[i]? = some r) :
    Tracks (T.set i (fillRegion t e)) { s with region := s.region.set i (fillRegion r e) } where
  length := by simp only [List.length_set, h.length]
  keeps := by
    intro j t' x ht' hx
    by_cases hij : i = j
    case pos =>
      subst hij
      rw [List.getElem?_set_self (List.getElem?_eq_some_iff.mp ht).1] at ht'
      rw [List.getElem?_set_self (List.getElem?_eq_some_iff.mp hr).1] at hx
      cases ht'
      cases hx
      exact (h.keeps ht hr).filled (h.uniform t (List.mem_of_getElem? ht))
    case neg =>
      rw [List.getElem?_set_ne hij] at ht' hx
      exact h.keeps ht' hx
  uniform := by
    intro t' ht'
    rcases List.mem_or_eq_of_mem_set ht' with hold | rfl
    · exact h.uniform t' hold
    · exact (h.uniform t (List.mem_of_getElem? ht)).filled
  lock := h.lock

theorem allocPhysAddress_iff : (∃ p, allocPhysAddress a.phys a.bytes s = .ok p) ↔ Reservable T a := by
  have hat : regionAround a.phys s.region = regionAround a.phys T := regionAround_congr h.outlines_eq
  constructor
  case mp =>
    rintro ⟨⟨ret, s'⟩, hok⟩ k t hk ht
    rw [← hat] at hk
    rcases allocPhysAddress_ok hok with ⟨hn, _⟩ | ⟨i, r, r', hi, hr, hres, _⟩
    · rw [hk] at hn
      cases hn
    · cases hk.symm.trans hi
      have hkeep := h.keeps ht hr
      rw [← hkeep.allIn_iff, ← hkeep.reserveBlocksAccesses_eq]
      exact reserveBlocks_returns_iff.mp ⟨r', hres⟩
  case mpr =>
    intro hfit
    cases hk : regionAround a.phys s.region
    case none => exact ⟨_, allocPhysAddress_none h.lock hk⟩
    case some k =>
      obtain ⟨hlt, _⟩ := List.findIdx?_eq_some_iff_getElem.mp hk
      have hr : s.region[k]? = some s.region[k] := List.getElem?_eq_getElem hlt
      obtain ⟨t, ht⟩ := h.exists_slot hr
      have hkeep := h.keeps ht hr
      have hin := hfit k t (hat ▸ hk) ht
      rw [← hkeep.allIn_iff, ← hkeep.reserveBlocksAccesses_eq] at hin
      obtain ⟨r', hres⟩ := reserveBlocks_returns_iff.mpr hin
      exact ⟨_, allocPhysAddress_some h.lock hk hr hres⟩

theorem allocPhysAddress {ret : Nat} (hok : allocPhysAddress addr bytes s = .ok (ret, s')) : Tracks T s' := by
  rcases allocPhysAddress_ok hok with ⟨_, _, rfl⟩ | ⟨i, r, r', _, hr, hres, _, rfl⟩
  · exact h
  · exact h.step hr (reserveBlocks_marked hres).keeps

theorem reserveAll_iff : (∃ s', reserveAll e amap s = .ok s') ↔ ∀ a ∈ amap, Accepts e a → Reservable T a := by
  induction amap generalizing s
  case nil => simp [reserveAll]
  case cons a amap hi =>
    rw [List.forall_mem_cons, reserveAll]
    split
    case isTrue hskip =>
      rw [hi h]
      exact (and_iff_right fun ha => absurd hskip ha).symm
    case isFalse hacc =>
      have hfirst : (∃ p, Pmm.allocPhysAddress a.phys a.bytes s = .ok p) ↔ (Accepts e a → Reservable T a) := by
        rw [h.allocPhysAddress_iff]
        exact ⟨fun hr _ => hr, fun hr => hr hacc⟩
      refine returns_bind hfirst fun p hp => ?_
      exact hi (h.allocPhysAddress hp)

theorem reserveAll (hok : reserveAll e amap s = .ok s') : Tracks T s' := by
  induction amap generalizing s
  case nil =>
    cases hok
    exact h
  case cons a amap hi =>
    unfold Pmm.reserveAll at hok
    split at hok
    case isTrue => exact hi h hok
    case isFalse =>
      obtain ⟨⟨ret, s₁⟩, h₁, hok⟩ := Except.bind_ok_iff.mp hok
      exact hi (h.allocPhysAddress h₁) hok

variable (amap) in
theorem createRegion (hlt : c.1 < T.length) (he : entries[c.2]? = some e) :
    ((∃ s', createRegion c.1 e amap s = .ok s') ↔
      ∀ a ∈ amap, Accepts e a → Reservable (fillSlot entries T c) a) ∧
      ∀ s', Pmm.createRegion c.1 e amap s = .ok s' → Tracks (fillSlot entries T c) s' := by
  have ht : T[c.1]? = some T[c.1] := List.getElem?_eq_getElem hlt
  obtain ⟨r, hr⟩ := h.exists_region ht
  have hslot : fillSlot entries T c = T.set c.1 (fillRegion T[c.1] e) := by
    apply List.ext_getElem?
    intro j
    rw [fillSlot, he, List.getElem?_modify]
    by_cases hj : c.1 = j
    · subst hj
      simp only [List.getElem?_set_self hlt, ht, if_true]
      rfl
    · simp only [List.getElem?_set_ne hj, if_neg hj, Option.map_eq_map, Option.map_id']
  have hfill := h.fill (e := e) ht hr
  rw [Pmm.createRegion, hr, hslot]
  exact ⟨hfill.reserveAll_iff, fun s' hok => hfill.reserveAll hok⟩

variable (amap) in
theorem createRegions {calls : List RegionCall}
    (hc : ∀ c ∈ calls, c.1 < T.length ∧ ∃ e, entries[c.2]? = some e) :
    ((∃ s', createRegions entries amap calls s = .ok s') ↔ AmapFits entries amap calls T) ∧
      ∀ s', Pmm.createRegions entries amap calls s = .ok s' → Tracks (calls.foldl (fillSlot entries) T) s' := by
  induction calls generalizing s T
  case nil =>
    refine ⟨by simp [Pmm.createRegions, AmapFits], fun s' hok => ?_⟩
    cases hok
    exact h
  case cons c calls hi =>
    obtain ⟨⟨hlt, e, he⟩, hrest⟩ := List.forall_mem_cons.mp hc
    obtain ⟨hfirst, htrack⟩ := h.createRegion amap hlt he
    have hlen : (fillSlot entries T c).length = T.length := List.length_modify _ _ _
    have hrest : ∀ c' ∈ calls, c'.1 < (fillSlot entries T c).length ∧ ∃ e, entries[c'.2]? = some e := by
      rwa [hlen]
    simp only [Pmm.createRegions, he, AmapFits, Option.some.injEq, forall_eq']
    refine ⟨returns_bind hfirst fun s₁ h₁ => (hi (htrack s₁ h₁) hrest).1, fun s' hok => ?_⟩
    obtain ⟨s₁, h₁, hok⟩ := Except.bind_ok_iff.mp hok
    exact (hi (htrack s₁ h₁) hrest).2 s' hok

theorem allocPhys_iff : (∃ p, allocPhys q.bytes q.type q.flags s = .ok p) ↔ Served q s := by
  constructor
  case mp =>
    rintro ⟨⟨⟨ptr, actual⟩, s'⟩, hok⟩
    obtain ⟨i, r, r', hi, hr, hreg, _⟩ := allocPhys_cases hok
    obtain ⟨o, ho⟩ : ∃ o, r.order[orderOf q.bytes]? = some o := by
      unfold allocRegion at hreg
      split at hreg
      case h_1 => cases hreg
      case h_2 o ho => exact ⟨o, ho⟩
    exact ⟨i, r, o, hi, hr, ho, (allocRegion_returns_iff ho).mp ⟨_, hreg⟩⟩
  case mpr =>
    rintro ⟨i, r, o, hi, hr, ho, hin⟩
    obtain ⟨⟨ptr, r'⟩, hreg⟩ := (allocRegion_returns_iff ho).mpr hin
    have hin : allocIn (orderOf q.bytes) s (some i) = .ok ((ptr, orderBlockSize (orderOf q.bytes)),
        { s with region := s.region.set i r' }) := by
      simp only [allocIn, hr]
      exact Except.bind_ok_iff.mpr ⟨_, hreg, rfl⟩
    rw [allocPhys_eq h.lock]
    exact ⟨_, Except.bind_ok_iff.mpr ⟨some i, hi, hin⟩⟩

theorem allocPhys {ret : Nat × Nat} (hok : allocPhys q.bytes q.type q.flags s = .ok (ret, s')) : Tracks T s' := by
  obtain ⟨ptr, actual⟩ := ret
  obtain ⟨i, r, r', _, hr, hreg, _, rfl⟩ := allocPhys_cases hok
  exact h.step hr (allocRegion_rule .trans .set .refl hreg)

theorem allocAll (hok : allocAll requests s = .ok s') : Tracks T s' := by
  induction requests generalizing s
  case nil =>
    cases hok
    exact h
  case cons q requests hi =>
    obtain ⟨⟨ret, s₁⟩, h₁, hok⟩ := Except.bind_ok_iff.mp hok
    exact hi (h.allocPhys h₁) hok

omit h in
theorem allServed_cons : AllServed (q :: requests) s ↔
    Served q s ∧ ∀ p, Pmm.allocPhys q.bytes q.type q.flags s = .ok p → AllServed requests p.2 := by
  constructor
  case mp =>
    intro hs
    refine ⟨hs [] q requests s rfl rfl, fun p hp pre q' post s' heq hok => ?_⟩
    refine hs (q :: pre) q' post s' (by rw [heq, List.cons_append]) ?_
    exact Except.bind_ok_iff.mpr ⟨p, hp, hok⟩
  case mpr =>
    rintro ⟨hq, hrest⟩ pre q' post s' heq hok
    rcases pre with _ | ⟨q₀, pre⟩
    · cases heq
      cases hok
      exact hq
    · obtain ⟨rfl, rfl⟩ := List.cons.inj heq
      obtain ⟨p, hp, hok⟩ := Except.bind_ok_iff.mp hok
      exact hrest p hp pre q' post s' rfl hok

theorem allocAll_iff : (∃ s', Pmm.allocAll requests s = .ok s') ↔ AllServed requests s := by
  induction requests generalizing s
  case nil =>
    refine iff_of_true ⟨s, rfl⟩ fun pre q post s' heq => ?_
    simp at heq
  case cons q requests hi =>
    rw [allServed_cons, Pmm.allocAll]
    refine returns_bind h.allocPhys_iff fun p hp => (hi (h.allocPhys hp)).trans ?_
    refine ⟨fun hs p' hp' => ?_, fun hs => hs p hp⟩
    cases hp.symm.trans hp'
    exact hs

end Tracks

-- The mark is not read by the last loop.
theorem createRegion_markParsed : createRegion rn (markParsed e) amap s = createRegion rn e amap s := by
  have hall {s : Regions} : reserveAll (markParsed e) amap s = reserveAll e amap s := by
    induction amap generalizing s
    case nil => rfl
    case cons a amap hi =>
      rw [reserveAll, reserveAll]
      simp only [hi]
      rfl
  unfold createRegion
  simp only [hall]
  rfl

theorem createRegions_entriesAfter {first : Option RegionCall} :
    createRegions (entriesAfter first entries) amap calls s = createRegions entries amap calls s := by
  induction calls generalizing s
  case nil => rfl
  case cons c calls hi =>
    obtain ⟨rn, i⟩ := c
    rw [createRegions, createRegions]
    simp only [hi]
    rcases first with _ | ⟨n, k⟩
    · rfl
    · simp only [entriesAfter, List.getElem?_modify]
      cases entries[i]?
      case none => rfl
      case some e =>
        by_cases hk : k = i
        · simp only [if_pos hk, Option.map_eq_map, Option.map_some, createRegion_markParsed]
        · simp only [if_neg hk, Option.map_eq_map, Option.map_some]

theorem amapFits_append {xs ys : List RegionCall} : AmapFits entries amap (xs ++ ys) T ↔
    AmapFits entries amap xs T ∧ AmapFits entries amap ys (xs.foldl (fillSlot entries) T) := by
  induction xs generalizing T
  case nil => exact (and_iff_right trivial).symm
  case cons c xs hi =>
    simp only [List.cons_append, AmapFits, hi, List.foldl_cons, and_assoc]

theorem length_fillSlots {xs : List RegionCall} : (xs.foldl (fillSlot entries) T).length = T.length := by
  induction xs generalizing T
  case nil => rfl
  case cons c xs hi => exact hi.trans (List.length_modify ..)

theorem OneEach.initPMM_returns_iff (h : OneEach entries) : (∃ s, initPMM entries amap requests = .ok s) ↔
    AmapFits entries amap (regionCalls entries) (emptyTable entries) ∧
      ∀ s, AfterFirst entries amap s → AllServed requests s := by
  have hcalls : ∀ c ∈ regionCalls entries,
      c.1 < (emptyTable entries).length ∧ ∃ e, entries[c.2]? = some e := by
    intro c hc
    obtain ⟨e, he, _⟩ := mem_regionCalls.mp (List.mem_map_of_mem hc)
    refine ⟨?_, e, he⟩
    rw [emptyTable, List.length_replicate]
    exact h.below c hc
  rw [regionCalls_eq] at hcalls ⊢
  obtain ⟨hfirst, htrack⟩ := (@Tracks.empty entries).createRegions amap
    fun c hc => hcalls c (List.mem_append_left _ hc)
  rw [amapFits_append, and_assoc]
  refine returns_bind hfirst fun s₁ h₁ => ?_
  have ht₁ := htrack s₁ h₁
  have hserved : (∃ s₂, allocAll requests s₁ = .ok s₂) ↔ ∀ s, AfterFirst entries amap s → AllServed requests s := by
    rw [ht₁.allocAll_iff]
    refine ⟨fun hs s hs₁ => ?_, fun hs => hs s₁ h₁⟩
    cases h₁.symm.trans hs₁
    exact hs
  rw [and_comm]
  refine returns_bind hserved fun s₂ h₂ => ?_
  have hlater : ∀ c ∈ laterCalls entries,
      c.1 < ((firstRegion 0 0 entries).toList.foldl (fillSlot entries) (emptyTable entries)).length ∧
        ∃ e, entries[c.2]? = some e := by
    rw [length_fillSlots]
    exact fun c hc => hcalls c (List.mem_append_right _ hc)
  refine Iff.trans ?_ ((ht₁.allocAll h₂).createRegions amap hlater).1
  simp only [createRegions_entriesAfter]
  rfl

end Return

section Example

def highEntry : MmapEntry :=
  { magic := 0, flags := 0, type := MmapEntry.typeFree, phys := 0x200000, virt := 0, bytes := 0x8000 }

example : regionCalls [regionEntry, highEntry] = [(1, 0), (0, 1)] := by
  decide

-- An allocation of the bootloader is reserved, and a block is requested before the second region is there.
example : ∃ s, initPMM [regionEntry, highEntry] [inside] [{ bytes := 0x4000, type := 0, flags := 0 }] = .ok s :=
  ⟨_, rfl⟩

end Example

end RoverOS.Pmm
