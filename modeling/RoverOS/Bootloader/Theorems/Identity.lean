import RoverOS.Bootloader.Theorems.Linear

-- Which memory maps `idMapMem` maps to themselves.

namespace RoverOS.Bootloader

open Paging

-- The memory that is not to be mapped.
def Descriptor.Withheld (desc : Descriptor) : Prop :=
  desc.type = .reservedMemoryType ∨ desc.type = .unusableMemory ∨ desc.type = .unacceptedMemoryType

instance (desc : Descriptor) : Decidable desc.Withheld :=
  inferInstanceAs (Decidable (_ ∨ _))

def Descriptor.page (desc : Descriptor) (i : Nat) : Word :=
  pageAt (BitVec.ofNat 64 desc.physicalStart) i

def Descriptor.Apart (d d' : Descriptor) : Prop :=
  d.physicalStart + d.numberOfPages * 0x1000 ≤ d'.physicalStart ∨
    d'.physicalStart + d'.numberOfPages * 0x1000 ≤ d.physicalStart

-- What the firmware promises of its memory map, on a processor whose physical addresses have 52 bits.
structure MemoryMap (descs : List Descriptor) : Prop where
  aligned  : ∀ desc ∈ descs, desc.physicalStart % 0x1000 = 0
  nonempty : ∀ desc ∈ descs, 0 < desc.numberOfPages
  below    : ∀ desc ∈ descs, desc.physicalStart + desc.numberOfPages * 0x1000 ≤ 2 ^ 52
  apart    : descs.Pairwise Descriptor.Apart

def IdMapped (s : Boot) (virt : Word) : Prop :=
  ∃ t, testPath s virt = some t ∧ t.page.frame = virt ∧ t.page.write = true

structure Identity (s : Boot) (descs : List Descriptor) : Prop where
  mapped   : ∀ desc ∈ descs, ¬desc.Withheld → ∀ i < desc.numberOfPages, IdMapped s (desc.page i)
  unmapped : ∀ desc ∈ descs, desc.Withheld → ∀ i < desc.numberOfPages, testPath s (desc.page i) = none

-- Neither of them takes the other's place in the tables, which know 48 bits of an address.
def Descriptor.Distinct (d d' : Descriptor) : Prop :=
  ¬(d.Withheld ∧ d'.Withheld) → ∀ i < d.numberOfPages, ∀ j < d'.numberOfPages, ¬SamePage (d.page i) (d'.page j)

-- The last descriptor is left out, and `i*PAGE_SZ` reaches 4 GB.
structure Mappable (descs : List Descriptor) : Prop where
  last     : ∀ desc ∈ descs.getLast?, desc.Withheld
  small    : ∀ desc ∈ descs, ¬desc.Withheld → desc.numberOfPages ≤ 2 ^ 20
  distinct : descs.Pairwise Descriptor.Distinct

variable {clearMem : ClearMem} {s s' s₀ : Boot} {descs : List Descriptor} {d d' desc : Descriptor} {i j n b : Nat}
variable {c : MapCall} {calls calls' : List MapCall} {phys virt v w : Word} {write execute : Bool}

section Calls

def identity (phys : Word) : MapCall :=
  { phys, virt := phys, write := true, execute := false }

-- How many turns `mapPages` takes.
def Descriptor.turns (desc : Descriptor) : Nat :=
  if descPages desc = 0 then 1 else descPages desc

def Descriptor.idCalls (desc : Descriptor) : List MapCall :=
  if desc.Withheld then [] else (List.range desc.turns).map fun i => identity (desc.page (i % 2 ^ 20))

def idCalls (descs : List Descriptor) : List MapCall :=
  descs.dropLast.flatMap Descriptor.idCalls

theorem mapCalls_append : mapCalls clearMem (calls ++ calls') s =
    (do let s ← mapCalls clearMem calls s; mapCalls clearMem calls' s) := by
  induction calls generalizing s
  case nil => rfl
  case cons c calls hi =>
    rw [List.cons_append, mapCalls, mapCalls]
    cases mapPage clearMem c.phys c.virt c.write c.execute s
    case error e => rfl
    case ok s₁   => exact hi

theorem mapFrom_eq_mapCalls : mapFrom clearMem phys virt write execute b n s = mapCalls clearMem
    ((List.range' b n).map fun i => ⟨pageAt phys (i % 2 ^ 20), pageAt virt (i % 2 ^ 20), write, execute⟩) s := by
  induction n generalizing b s
  case zero => rfl
  case succ n hi =>
    rw [List.range'_succ, List.map_cons, mapCalls, mapFrom]
    simp only [add_offset]
    cases mapPage clearMem (pageAt phys (b % 2 ^ 20)) (pageAt virt (b % 2 ^ 20)) write execute s
    case error e => rfl
    case ok s₁   => exact hi

theorem idMapDesc_eq_mapCalls : idMapDesc clearMem desc s = mapCalls clearMem desc.idCalls s := by
  rw [Descriptor.idCalls]
  by_cases hw : desc.Withheld
  case pos =>
    rw [if_pos hw]
    exact if_pos hw
  case neg =>
    rw [if_neg hw, List.range_eq_range']
    exact (if_neg hw).trans mapFrom_eq_mapCalls

theorem idMapMem_eq_mapCalls : idMapMem clearMem descs s = mapCalls clearMem (idCalls descs) s := by
  induction descs generalizing s
  case nil => rfl
  case cons desc descs hi =>
    cases descs
    case nil => rfl
    case cons d descs =>
      change (do let s ← idMapDesc clearMem desc s; idMapMem clearMem (d :: descs) s) = _
      have hcalls : idCalls (desc :: d :: descs) = desc.idCalls ++ idCalls (d :: descs) := List.flatMap_cons
      rw [hcalls, mapCalls_append, idMapDesc_eq_mapCalls]
      exact congrArg (mapCalls clearMem desc.idCalls s >>= ·) (funext fun _ => hi)

end Calls

section Pages

theorem MemoryMap.page_toNat (h : MemoryMap descs) (hd : d ∈ descs) (hi : i < d.numberOfPages) :
    (d.page i).toNat = d.physicalStart + i * 0x1000 := by
  have hb := h.below d hd
  have hp : (BitVec.ofNat 64 d.physicalStart).toNat = d.physicalStart := by
    rw [BitVec.toNat_ofNat]
    omega
  rw [Descriptor.page, pageAt_toNat (n := d.numberOfPages) (by omega) hi, hp]

theorem MemoryMap.kalign_page (h : MemoryMap descs) (hd : d ∈ descs) (hi : i < d.numberOfPages) :
    kalign (d.page i) = d.page i := by
  have ha := h.aligned d hd
  apply kalign_of_aligned
  rw [isUnaligned_eq_zero_iff, h.page_toNat hd hi]
  omega

theorem MemoryMap.turns_eq (h : MemoryMap descs) (hd : d ∈ descs) :
    d.turns = if d.numberOfPages % 2 ^ 32 = 0 then 1 else d.numberOfPages % 2 ^ 32 := by
  have hb := h.below d hd
  have hp : descPages d = d.numberOfPages % 2 ^ 32 := by
    rw [descPages, Descriptor.bytes, efiPageSize, u64_of_lt (by omega), Nat.mul_div_cancel _ (by decide), u32]
  rw [Descriptor.turns, hp]

-- Only the first 4 GB of a descriptor are asked for, and none of its neighbours.
theorem MemoryMap.mem_idCalls (h : MemoryMap descs) (hc : c ∈ idCalls descs) :
    ∃ d ∈ descs.dropLast, ¬d.Withheld ∧ ∃ i < d.numberOfPages, i < 2 ^ 20 ∧ c = identity (d.page i) := by
  obtain ⟨d, hd, hc⟩ := List.mem_flatMap.mp hc
  have hmem : d ∈ descs := List.mem_of_mem_dropLast hd
  have hn := h.nonempty d hmem
  rw [Descriptor.idCalls] at hc
  by_cases hw : d.Withheld
  case pos =>
    rw [if_pos hw] at hc
    exact absurd hc List.not_mem_nil
  case neg =>
    rw [if_neg hw] at hc
    obtain ⟨i, hi, rfl⟩ := List.mem_map.mp hc
    rw [List.mem_range, h.turns_eq hmem] at hi
    refine ⟨d, hd, hw, i % 2 ^ 20, ?_, Nat.mod_lt i (by decide), rfl⟩
    split at hi <;> omega

theorem MemoryMap.mem_idCalls_of_small (h : MemoryMap descs) (hd : d ∈ descs.dropLast) (hw : ¬d.Withheld)
    (hs : d.numberOfPages ≤ 2 ^ 20) (hi : i < d.numberOfPages) : identity (d.page i) ∈ idCalls descs := by
  refine List.mem_flatMap.mpr ⟨d, hd, ?_⟩
  rw [Descriptor.idCalls, if_neg hw]
  refine List.mem_map.mpr ⟨i, ?_, ?_⟩
  · rw [List.mem_range, h.turns_eq (List.mem_of_mem_dropLast hd), if_neg (by omega)]
    omega
  · rw [Nat.mod_eq_of_lt (by omega)]

theorem MemoryMap.page_ne (h : MemoryMap descs) (hd : d ∈ descs) (hd' : d' ∈ descs) (ha : d.Apart d')
    (hi : i < d.numberOfPages) (hj : j < d'.numberOfPages) : d.page i ≠ d'.page j := by
  intro he
  have he := congrArg BitVec.toNat he
  rw [h.page_toNat hd hi, h.page_toNat hd' hj] at he
  rcases ha with ha | ha <;> omega

-- Within 4 GB no two pages are taken for each other.
theorem MemoryMap.eq_of_samePage (h : MemoryMap descs) (hd : d ∈ descs) (hi : i < d.numberOfPages)
    (hj : j < d.numberOfPages) (hs : d.numberOfPages ≤ 2 ^ 20) (hp : SamePage (d.page i) (d.page j)) : i = j := by
  rw [samePage_iff_page, h.page_toNat hd hi, h.page_toNat hd hj] at hp
  omega

end Pages

section Last

theorem lastCall_some (h : lastCall calls v = some c) : c ∈ calls ∧ SamePage v c.virt := by
  have hs := List.find?_some h
  exact ⟨List.mem_reverse.mp (List.mem_of_find?_eq_some h), of_decide_eq_true hs⟩

theorem exists_lastCall (hc : c ∈ calls) (hs : SamePage v c.virt) : ∃ c', lastCall calls v = some c' :=
  Option.isSome_iff_exists.mp (List.find?_isSome.mpr ⟨c, List.mem_reverse.mpr hc, decide_eq_true hs⟩)

theorem lastCall_none (h : ∀ c ∈ calls, ¬SamePage v c.virt) : lastCall calls v = none := by
  refine List.find?_eq_none.mpr fun c hc hs => ?_
  exact h c (List.mem_reverse.mp hc) (of_decide_eq_true hs)

theorem lastCall_congr (hs : SamePage v w) : lastCall calls v = lastCall calls w := by
  have he (c : MapCall) : SamePage v c.virt ↔ SamePage w c.virt := by
    rw [SamePage, SamePage, hs.left, hs.right]
  exact congrArg (calls.reverse.find? ·) (funext fun c => decide_eq_decide.mpr (he c))

variable (hm : MemoryMap descs) (r : Represents s (lastCall (idCalls descs)))

include hm

theorem MemoryMap.phys_lt (hc : c ∈ idCalls descs) : c.phys.toNat < 2 ^ 52 := by
  obtain ⟨d, hd, -, i, hi, -, rfl⟩ := hm.mem_idCalls hc
  have hmem := List.mem_of_mem_dropLast hd
  have hb := hm.below d hmem
  change (d.page i).toNat < 2 ^ 52
  rw [hm.page_toNat hmem hi]
  omega

include r

theorem testPath_page : (testPath s v).map Trace.page = (lastCall (idCalls descs) v).map MapCall.page :=
  r.testPath (fun _ hc => hm.phys_lt hc) v

theorem testPath_none_iff : testPath s v = none ↔ lastCall (idCalls descs) v = none := by
  rw [← Option.map_eq_none_iff (f := Trace.page), testPath_page hm r, Option.map_eq_none_iff]

theorem idMapped_iff : IdMapped s v ↔ lastCall (idCalls descs) v = some (identity v) := by
  have hp := testPath_page (v := v) hm r
  constructor
  case mp =>
    rintro ⟨t, ht, hf, -⟩
    rw [ht] at hp
    obtain ⟨c, hc, he⟩ := Option.map_eq_some_iff.mp hp.symm
    obtain ⟨d, hd, -, i, hi, -, rfl⟩ := hm.mem_idCalls (lastCall_some hc).left
    have hk : kalign (d.page i) = d.page i := hm.kalign_page (List.mem_of_mem_dropLast hd) hi
    have hv : kalign (d.page i) = v := (congrArg Page.frame he).trans hf
    rw [hc, ← hv, hk]
  case mpr =>
    intro h
    obtain ⟨d, hd, -, i, hi, -, he⟩ := hm.mem_idCalls (lastCall_some h).left
    have hv : v = d.page i := congrArg MapCall.phys he
    rw [h] at hp
    obtain ⟨t, ht, he⟩ := Option.map_eq_some_iff.mp hp
    refine ⟨t, ht, ?_, congrArg Page.write he⟩
    rw [he, hv]
    exact hm.kalign_page (List.mem_of_mem_dropLast hd) hi

theorem idMapped_page (h : IdMapped s v) :
    ∃ d ∈ descs.dropLast, ¬d.Withheld ∧ ∃ i < d.numberOfPages, i < 2 ^ 20 ∧ v = d.page i := by
  obtain ⟨d, hd, hw, i, hi, hlt, he⟩ := hm.mem_idCalls (lastCall_some ((idMapped_iff hm r).mp h)).left
  exact ⟨d, hd, hw, i, hi, hlt, congrArg MapCall.phys he⟩

end Last

section Iff

instance : Std.Symm Descriptor.Apart where
  symm _ _ := Or.symm

instance : Std.Symm Descriptor.Distinct where
  symm _ _ h hw i hi j hj hs := h (fun hb => hw hb.symm) j hj i hi ⟨hs.left.symm, hs.right.symm⟩

theorem MemoryMap.apart_of_ne (h : MemoryMap descs) (hd : d ∈ descs) (hd' : d' ∈ descs) (hne : d ≠ d') : d.Apart d' :=
  h.apart.forall hd hd' hne

theorem Mappable.distinct_of_ne (h : Mappable descs) (hd : d ∈ descs) (hd' : d' ∈ descs) (hne : d ≠ d') :
    d.Distinct d' :=
  h.distinct.forall hd hd' hne

-- A descriptor that is to be mapped is not the last one.
theorem Mappable.mem_dropLast (h : Mappable descs) (hd : d ∈ descs) (hw : ¬d.Withheld) : d ∈ descs.dropLast := by
  have hne := List.ne_nil_of_mem hd
  rw [← List.dropLast_concat_getLast hne] at hd
  rcases List.mem_append.mp hd with hd | hd
  case inl => exact hd
  case inr =>
    obtain rfl := List.mem_singleton.mp hd
    exact absurd (h.last _ (List.getLast?_eq_some_getLast hne)) hw

variable (hm : MemoryMap descs) (r : Represents s (lastCall (idCalls descs)))

include hm r

theorem Mappable.identity (h : Mappable descs) : Identity s descs where
  mapped desc hd hw i hi := by
    have hs := h.small desc hd hw
    have hcall := hm.mem_idCalls_of_small (h.mem_dropLast hd hw) hw hs hi
    obtain ⟨c, hc⟩ := exists_lastCall (v := desc.page i) hcall ⟨rfl, rfl⟩
    obtain ⟨hmem, hp⟩ := lastCall_some hc
    obtain ⟨d, hd', hw', j, hj, -, rfl⟩ := hm.mem_idCalls hmem
    by_cases he : desc = d
    case pos =>
      subst he
      obtain rfl : i = j := hm.eq_of_samePage hd hi hj hs hp
      exact (idMapped_iff hm r).mpr hc
    case neg =>
      exact absurd hp (h.distinct_of_ne hd (List.mem_of_mem_dropLast hd') he (fun hb => hw hb.left) i hi j hj)
  unmapped desc hd hw i hi := by
    refine (testPath_none_iff hm r).mpr (lastCall_none fun c hc => ?_)
    obtain ⟨d, hd', hw', j, hj, -, rfl⟩ := hm.mem_idCalls hc
    have he : desc ≠ d := fun he => hw' (he ▸ hw)
    exact h.distinct_of_ne hd (List.mem_of_mem_dropLast hd') he (fun hb => hw' hb.right) i hi j hj

theorem Identity.last (h : Identity s descs) : ∀ desc ∈ descs.getLast?, desc.Withheld := by
  intro desc hl
  by_contra hw
  have hd : desc ∈ descs := List.mem_of_getLast? hl
  have hn := hm.nonempty desc hd
  obtain ⟨d, hd', -, i, hi, -, he⟩ := idMapped_page hm r (h.mapped desc hd hw 0 hn)
  have ha : d.Apart desc := by
    obtain ⟨front, rfl⟩ := List.getLast?_eq_some_iff.mp hl
    rw [List.dropLast_concat] at hd'
    exact (List.pairwise_append.mp hm.apart).right.right d hd' desc List.mem_cons_self
  exact hm.page_ne (List.mem_of_mem_dropLast hd') hd ha hi hn he.symm

theorem Identity.small (h : Identity s descs) : ∀ desc ∈ descs, ¬desc.Withheld → desc.numberOfPages ≤ 2 ^ 20 := by
  intro desc hd hw
  by_contra hlt
  have hn : 2 ^ 20 < desc.numberOfPages := Nat.lt_of_not_le hlt
  obtain ⟨d, hd', -, i, hi, hl, he⟩ := idMapped_page hm r (h.mapped desc hd hw (2 ^ 20) hn)
  have hmem := List.mem_of_mem_dropLast hd'
  by_cases heq : desc = d
  case pos =>
    subst heq
    have he := congrArg BitVec.toNat he
    rw [hm.page_toNat hd hn, hm.page_toNat hd hi] at he
    omega
  case neg => exact hm.page_ne hd hmem (hm.apart_of_ne hd hmem heq) hn hi he

theorem Identity.distinct (h : Identity s descs) : descs.Pairwise Descriptor.Distinct := by
  refine hm.apart.imp_of_mem fun {d d'} hd hd' ha hw i hi j hj hp => ?_
  have hc : lastCall (idCalls descs) (d.page i) = lastCall (idCalls descs) (d'.page j) := lastCall_congr hp
  by_cases hd₁ : d.Withheld
  case pos =>
    have hd₂ : ¬d'.Withheld := fun hd₂ => hw ⟨hd₁, hd₂⟩
    rw [(testPath_none_iff hm r).mp (h.unmapped d hd hd₁ i hi), (idMapped_iff hm r).mp (h.mapped d' hd' hd₂ j hj)] at hc
    cases hc
  case neg =>
    rw [(idMapped_iff hm r).mp (h.mapped d hd hd₁ i hi)] at hc
    by_cases hd₂ : d'.Withheld
    case pos =>
      rw [(testPath_none_iff hm r).mp (h.unmapped d' hd' hd₂ j hj)] at hc
      cases hc
    case neg =>
      rw [(idMapped_iff hm r).mp (h.mapped d' hd' hd₂ j hj)] at hc
      exact hm.page_ne hd hd' ha hi hj (congrArg MapCall.phys (Option.some.inj hc))

theorem identity_iff : Identity s descs ↔ Mappable descs :=
  ⟨fun h => ⟨h.last hm r, h.small hm r, h.distinct hm r⟩, fun h => h.identity hm r⟩

end Iff

-- All of the memory that is to be mapped is mapped to itself, and nothing else that the map knows.
theorem idMapMem_identity_iff {tables : Tables} {allocMap : Nat → MmapEntry} {pool : List Word} (hc : Clears clearMem)
    (h₀ : initPml clearMem (.start tables allocMap pool) = .ok s₀) (hf : Fresh (supply s₀)) (hm : MemoryMap descs) :
    (∀ s, idMapMem clearMem descs s₀ = .ok s → (Identity s descs ↔ Mappable descs)) ∧
      (3 * (idCalls descs).length ≤ 1023 + 1024 * s₀.pool.length → ∃ s, idMapMem clearMem descs s₀ = .ok s) := by
  obtain ⟨r, hl⟩ := initPml_represents hc h₀ hf
  rw [idMapMem_eq_mapCalls]
  exact ⟨fun s h => identity_iff hm (r.mapCalls hc h hf), fun hn => r.mapCalls_enough hc hf (by omega)⟩

section Example

def reservedLast : List Descriptor := [⟨.conventionalMemory, 0x2000, 0, 1⟩, ⟨.reservedMemoryType, 0x100000, 0, 1⟩]

def conventionalLast : List Descriptor := [⟨.reservedMemoryType, 0x2000, 0, 1⟩, ⟨.conventionalMemory, 0x100000, 0, 0x100⟩]

theorem memoryMap_reservedLast : MemoryMap reservedLast :=
  ⟨by decide, by decide, by decide, List.pairwise_pair.mpr (.inl (by decide))⟩

theorem memoryMap_conventionalLast : MemoryMap conventionalLast :=
  ⟨by decide, by decide, by decide, List.pairwise_pair.mpr (.inl (by decide))⟩

-- The only page of memory that is not reserved is mapped.
theorem idMapMem_identity_reservedLast : ∃ s₀ s,
    initPml clearRange (.start (fun _ _ => 0) (fun _ => zeroEntry) (0x100000 :: 0x900000 :: chunks 3)) = .ok s₀ ∧
      idMapMem clearRange reservedLast s₀ = .ok s ∧ Identity s reservedLast := by
  obtain ⟨s₀, h₀, r, -, -⟩ := @ready_start 3 (by decide)
  obtain ⟨hiff, henough⟩ := idMapMem_identity_iff clearRange_clears h₀ r.right memoryMap_reservedLast
  have hn : (idCalls reservedLast).length = 1 := rfl
  obtain ⟨s, h⟩ := henough (by omega)
  refine ⟨s₀, s, h₀, h, (hiff s h).mpr ⟨?_, by decide, List.pairwise_pair.mpr fun _ i hi j hj => ?_⟩⟩
  · rintro _ ⟨⟩
    decide
  · obtain rfl : i = 0 := Nat.lt_one_iff.mp hi
    obtain rfl : j = 0 := Nat.lt_one_iff.mp hj
    decide

-- When memory that can be used comes last, none of its pages is mapped.
theorem idMapMem_skips_last : ¬∀ clearMem tables allocMap pool s₀ s descs, Clears clearMem →
    initPml clearMem (.start tables allocMap pool) = .ok s₀ → Fresh (supply s₀) → MemoryMap descs →
      idMapMem clearMem descs s₀ = .ok s → Identity s descs := by
  intro h
  obtain ⟨s₀, h₀, hr, -, -⟩ := @ready_start 3 (by decide)
  have hi := h _ _ _ _ s₀ s₀ conventionalLast clearRange_clears h₀ hr.right memoryMap_conventionalLast rfl
  obtain ⟨r, -⟩ := initPml_represents clearRange_clears h₀ hr.right
  exact absurd (hi.last memoryMap_conventionalLast r _ rfl) (by decide)

end Example

end RoverOS.Bootloader
