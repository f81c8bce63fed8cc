import RoverOS.Bootloader.Mmap

-- What the handed-over map calls free is free in the firmware's map, as long as nothing is merged:
-- each of the two merges gives an entry the bytes of the last one.

namespace RoverOS.Bootloader

open MmapEntry

def Descriptor.Covers (desc : Descriptor) (x : Nat) : Prop :=
  desc.physicalStart ≤ x ∧ x < desc.physicalStart + desc.bytes

def IsFree (desc : Descriptor) : Prop :=
  convertMmapType desc.type = typeFree

instance (desc : Descriptor) (x : Nat) : Decidable (desc.Covers x) :=
  inferInstanceAs (Decidable (_ ∧ _))

instance (desc : Descriptor) : Decidable (IsFree desc) :=
  inferInstanceAs (Decidable (_ = _))

-- All that the entries handed over call free is in a free descriptor.
def FreeSound (descs : List Descriptor) (k : Kmmap) : Prop :=
  ∀ i < k.mp, (k.entry i).type = typeFree →
    ∀ x, (k.entry i).phys ≤ x → x < (k.entry i).phys + (k.entry i).bytes →
      ∃ desc ∈ descs, IsFree desc ∧ desc.Covers x

structure FirmwareMap (descs : List Descriptor) : Prop where
  bound : ∀ desc ∈ descs, desc.physicalStart + desc.numberOfPages * efiPageSize < 2 ^ 64
  apart : descs.Pairwise fun d d' => ∀ x, ¬(d.Covers x ∧ d'.Covers x)

-- The entry that is written for a descriptor.
def toEntry (desc : Descriptor) : MmapEntry where
  magic := magicNumber
  flags := 0
  type  := convertMmapType desc.type
  phys  := desc.physicalStart
  virt  := desc.virtualStart
  bytes := desc.bytes

-- While the map is built, no descriptor passes the merge test with one that is two or more before
-- it; afterwards no two free entries that are handed over pass the overlap test.
structure NeverMerges (descs : List Descriptor) : Prop where
  build : ∀ i j d d', descs[i]? = some d → descs[j]? = some d' → i + 1 < j →
    ¬mergesDesc (toEntry d) d'
  after : ∀ i j d d', descs[i]? = some d → descs[j]? = some d' → i + 1 < descs.length →
    j + 1 < descs.length → IsFree d → IsFree d' → i ≠ j → ¬overlaps (toEntry d) (toEntry d')

variable {k : Kmmap} {d d' desc : Descriptor} {descs pre : List Descriptor} {c n i : Nat}

-- The entries up to `mp` are those of the descriptors so far.
structure Lists (pre : List Descriptor) (k : Kmmap) : Prop where
  length : pre.length = k.mp + 1
  entry  : ∀ i d, pre[i]? = some d → k.entry i = toEntry d
  clear  : ∀ i, k.mp < i → (k.entry i).flags = 0

@[simp]
theorem mapLoader_entry : (mapLoader k desc).entry = k.entry := by
  unfold mapLoader
  dsimp only
  split <;> split <;> rfl

@[simp]
theorem mapLoader_mp : (mapLoader k desc).mp = k.mp := by
  unfold mapLoader
  dsimp only
  split <;> split <;> rfl

theorem Lists.mapLoader (h : Lists pre k) : Lists pre (mapLoader k desc) where
  length := by simpa using h.length
  entry  := by simpa using h.entry
  clear  := by simpa using h.clear

theorem mergeDescToMMAP_false (h : Lists pre k) (hn : ∀ i d, pre[i]? = some d → i < k.mp →
    ¬mergesDesc (toEntry d) desc) :
    mergeDescToMMAP k desc = (false, mapLoader k desc) := by
  refine if_neg fun hany => ?_
  have ⟨z, hz, hm⟩ := List.any_eq_true.mp hany
  rw [mapLoader_mp, List.mem_range] at hz
  have hlen := h.length
  have hget : pre[z]? = some pre[z] := List.getElem?_eq_getElem (by omega)
  rw [mapLoader_entry, h.entry z _ hget] at hm
  exact hn z _ hget hz (of_decide_eq_true hm)

theorem Lists.write (h : Lists pre k) :
    Lists (pre ++ [desc]) (writeKmmapEntry { k with mp := k.mp + 1 } (k.mp + 1) desc) := by
  have hlen := h.length
  constructor
  case length => simp [writeKmmapEntry, Kmmap.set, hlen]
  case entry =>
    intro i d hi
    by_cases hik : i = k.mp + 1
    case pos =>
      subst hik
      rw [← hlen, List.getElem?_concat_length] at hi
      cases hi
      simp [writeKmmapEntry, Kmmap.set, toEntry, h.clear (k.mp + 1) (by omega)]
    case neg =>
      have hlt : i < pre.length := by
        have ⟨hlt, _⟩ := List.getElem?_eq_some_iff.mp hi
        simp only [List.length_append, List.length_singleton] at hlt
        omega
      rw [List.getElem?_append_left hlt] at hi
      simp [writeKmmapEntry, Kmmap.set, hik, h.entry i d hi]
  case clear =>
    intro i hi
    simp only [writeKmmapEntry, Kmmap.set] at hi ⊢
    rw [Function.update_of_ne (by omega)]
    exact h.clear i (by omega)

theorem addDescriptors_lists {rest : List Descriptor} (h : Lists pre k)
    (hn : ∀ i j d d', (pre ++ rest)[i]? = some d → (pre ++ rest)[j]? = some d' → i + 1 < j →
      ¬mergesDesc (toEntry d) d') :
    Lists (pre ++ rest) (addDescriptors rest k) := by
  induction rest generalizing pre k
  case nil => simpa [addDescriptors] using h
  case cons desc rest hi =>
    have hlen := h.length
    have hmerge : mergeDescToMMAP k desc = (false, Bootloader.mapLoader k desc) := by
      refine mergeDescToMMAP_false h fun i d hd hlt => hn i pre.length d desc ?_ ?_ (by omega)
      · rw [List.getElem?_append_left (by omega), hd]
      · simp
    unfold addDescriptors
    rw [hmerge]
    have h' : Lists (pre ++ [desc]) _ := (h.mapLoader : Lists pre (Bootloader.mapLoader k desc)).write
    have happ : pre ++ desc :: rest = (pre ++ [desc]) ++ rest := by simp
    rw [happ] at hn ⊢
    exact hi h' hn

-- The free entries stay those of their descriptors.
structure KeepsFree (descs : List Descriptor) (k : Kmmap) : Prop where
  length : descs.length = k.mp + 1
  entry  : ∀ i d, descs[i]? = some d → i < k.mp → (k.entry i).type = typeFree → k.entry i = toEntry d

theorem KeepsFree.mergeKmmapEntry (h : KeepsFree descs k) (hn : NeverMerges descs) (hc : c < k.mp) :
    KeepsFree descs (mergeKmmapEntry k c) ∧ (mergeKmmapEntry k c).mp = k.mp := by
  unfold Bootloader.mergeKmmapEntry
  dsimp only
  split
  case isTrue => exact ⟨h, rfl⟩
  case isFalse =>
    split
    case h_1 => exact ⟨h, rfl⟩
    case h_2 z hz =>
      have hmem := List.mem_range.mp (List.mem_of_find?_eq_some hz)
      have hfound := List.find?_some hz
      simp only [decide_eq_true_eq] at hfound
      have ⟨hzc, htype, hover⟩ := hfound
      have hlen := h.length
      -- Two free entries would overlap, so the two that are merged are not free.
      have hnot : (k.entry c).type ≠ typeFree := by
        intro hfree
        have hc' : descs[c]? = some descs[c] := List.getElem?_eq_getElem (by omega)
        have hz' : descs[z]? = some descs[z] := List.getElem?_eq_getElem (by omega)
        have hec := h.entry c _ hc' hc hfree
        have hez := h.entry z _ hz' hmem (htype.trans hfree)
        rw [hec, hez] at hover
        rw [hez, hec] at htype
        rw [hec] at hfree
        exact hn.after c z _ _ hc' hz' (by omega) (by omega) hfree (htype.trans hfree) hzc.symm hover
      refine ⟨⟨hlen, fun i d hd hi hfree => ?_⟩, rfl⟩
      by_cases hic : i = c
      case pos =>
        rw [hic] at hfree
        simp [Kmmap.set, typeIgnore, typeFree] at hfree
      case neg =>
        by_cases hiz : i = z
        case pos =>
          rw [hiz] at hfree
          simp only [Kmmap.set, Function.update_of_ne hzc, Function.update_self] at hfree
          exact absurd (htype.symm.trans hfree) hnot
        case neg =>
          simp only [Kmmap.set, Function.update_of_ne hic, Function.update_of_ne hiz] at hfree ⊢
          exact h.entry i d hd hi hfree

theorem KeepsFree.mergeEntries (h : KeepsFree descs k) (hn : NeverMerges descs)
    (hc : c + n ≤ k.mp) : KeepsFree descs (mergeEntries c n k) := by
  induction n generalizing c k
  case zero => exact h
  case succ n hi =>
    have ⟨h', hmp⟩ := h.mergeKmmapEntry hn (by omega : c < k.mp)
    exact hi h' (by omega)

theorem KeepsFree.freeSound (h : KeepsFree descs k) : FreeSound descs k := by
  intro i hi hfree x hl hu
  have hlen := h.length
  have hget : descs[i]? = some descs[i] := List.getElem?_eq_getElem (by omega)
  have he := h.entry i _ hget hi hfree
  rw [he] at hfree hl hu
  exact ⟨descs[i], List.getElem_mem _, hfree, hl, hu⟩

theorem lists_initial :
    Lists [desc] (mapLoader (writeKmmapEntry .empty 0 desc) desc) := by
  apply Lists.mapLoader
  constructor
  case length => rfl
  case entry =>
    intro i d hd
    have hi : i = 0 := by
      have ⟨hlt, _⟩ := List.getElem?_eq_some_iff.mp hd
      simpa using hlt
    subst hi
    cases hd
    rfl
  case clear =>
    intro i hi
    have hi : i ≠ 0 := by
      rintro rfl
      exact Nat.lt_irrefl _ hi
    simp [writeKmmapEntry, Kmmap.set, Kmmap.empty, hi]

-- No byte is called free that is not, when no merge happens.
theorem initMMAP_freeSound (hn : NeverMerges (desc :: descs)) :
    FreeSound (desc :: descs) (initMMAP desc descs) := by
  have h := addDescriptors_lists (lists_initial : Lists [desc] _) hn.build
  have hk : KeepsFree (desc :: descs) (addDescriptors descs
      (mapLoader (writeKmmapEntry .empty 0 desc) desc)) :=
    ⟨h.length, fun i d hd _ _ => h.entry i d hd⟩
  exact (hk.mergeEntries hn (by omega)).freeSound

section Example

def pages (type : EfiMemoryType) (first n : Nat) : Descriptor where
  type          := type
  physicalStart := first * 0x1000
  virtualStart  := 0
  numberOfPages := n

def gapMap : List Descriptor :=
  [pages .reservedMemoryType 1 1, pages .conventionalMemory 2 8]

-- A hole keeps the two free ranges apart.
theorem initMMAP_freeSound_gap :
    FreeSound (pages .conventionalMemory 0 1 :: gapMap)
      (initMMAP (pages .conventionalMemory 0 1) gapMap) := by
  apply initMMAP_freeSound
  constructor
  case build =>
    intro i j d d' hi hj hij
    have ⟨hlt, _⟩ := List.getElem?_eq_some_iff.mp hj
    simp only [gapMap, List.length_cons, List.length_nil] at hlt
    obtain ⟨rfl, rfl⟩ : i = 0 ∧ j = 2 := by omega
    cases hi
    cases hj
    decide
  case after =>
    intro i j d d' hi hj hli hlj hd hd' hij
    simp only [gapMap, List.length_cons, List.length_nil] at hli hlj
    rcases (by omega : i = 1 ∨ j = 1) with rfl | rfl
    · cases hi
      exact absurd hd (by decide)
    · cases hj
      exact absurd hd' (by decide)

def adjacentMap : List Descriptor :=
  [pages .conventionalMemory 1 1, pages .reservedMemoryType 2 100]

theorem firmwareMap_adjacent : FirmwareMap (pages .conventionalMemory 0 1 :: adjacentMap) where
  bound := by decide
  apart := by
    simp only [adjacentMap, List.pairwise_cons, List.mem_cons, List.not_mem_nil, or_false,
      forall_eq_or_imp, forall_eq]
    simp only [Descriptor.Covers, Descriptor.bytes, pages, efiPageSize, u64]
    refine ⟨⟨?_, ?_⟩, ⟨?_, ?_⟩⟩ <;> simp <;> omega

-- The two free pages are merged, and the result is as long as the reserved range behind them.
theorem initMMAP_not_freeSound :
    ¬∀ desc descs, FirmwareMap (desc :: descs) → FreeSound (desc :: descs) (initMMAP desc descs) := by
  intro hc
  have h := hc _ _ firmwareMap_adjacent 1 (by decide) (by decide) 0x2000 (by decide) (by decide)
  revert h
  simp only [adjacentMap, List.mem_cons, List.not_mem_nil, or_false, exists_eq_or_imp,
    exists_eq_left]
  decide

end Example

end RoverOS.Bootloader
