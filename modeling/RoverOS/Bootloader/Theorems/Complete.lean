import RoverOS.Bootloader.Theorems.Free
import RoverOS.Mmap.Theorems.Lookup

-- Which memory maps of the firmware the kernel gets as a whole.

namespace RoverOS.Bootloader

open MmapEntry

-- `addr` is the address of a byte of the descriptor.
def Descriptor.Has (desc : Descriptor) (addr : Word) : Prop :=
  desc.physicalStart ≤ addr.toNat ∧ addr.toNat < desc.physicalStart + desc.numberOfPages * efiPageSize

instance (desc : Descriptor) (addr : Word) : Decidable (desc.Has addr) :=
  inferInstanceAs (Decidable (_ ∧ _))

-- There is always a first descriptor. None of them goes on behind the last address.
structure EfiMap where
  first    : Descriptor
  rest     : List Descriptor
  inside   : ∀ d ∈ first :: rest, d.physicalStart + d.numberOfPages * efiPageSize ≤ 2 ^ 64
  disjoint : (first :: rest).Pairwise fun d e => ∀ addr, d.Has addr → ¬e.Has addr

def EfiMap.descs (m : EfiMap) : List Descriptor :=
  m.first :: m.rest

def EfiMap.last (m : EfiMap) : Descriptor :=
  m.descs.getLast (List.cons_ne_nil _ _)

def EfiMap.kmmap (m : EfiMap) : Kmmap :=
  initMMAP m.first m.rest

-- Each byte is in an entry that the kernel is told of, and in one of the descriptor's own type.
def EfiMap.Complete (m : EfiMap) : Prop :=
  ∀ d ∈ m.descs, ∀ addr, d.Has addr →
    (∃ i < m.kmmap.mp, (m.kmmap.entry i).Covers addr) ∧
      ∃ i < m.kmmap.mp, (m.kmmap.entry i).type = convertMmapType d.type ∧ (m.kmmap.entry i).Covers addr

-- No descriptor continues one of its type that is already below the last entry, and in the entries
-- before the last there are no two of one type that touch each other.
structure Unmerged (descs : List Descriptor) : Prop where
  build : ∀ i j e d, descs[i]? = some e → descs[j]? = some d → i + 1 < j → ¬mergesDesc (toEntry e) d
  after : ∀ i j d e, descs[i]? = some d → descs[j]? = some e → i + 1 < descs.length → j + 1 < descs.length → i ≠ j →
    (toEntry d).type = (toEntry e).type → ¬overlaps (toEntry d) (toEntry e)

variable {k : Kmmap} {descs descs' : List Descriptor} {desc d e : Descriptor} {m : EfiMap} {addr : Word}
variable {c i j n : Nat}

section Entries

theorem convertMmapType_ne_ignore (t : EfiMemoryType) : convertMmapType t ≠ typeIgnore := by
  cases t <;> simp [convertMmapType, typeIgnore, typeResv, typeFree, typeUefi, typeAcpi, typeMmio, typeOther]

-- An entry that is written has no more bytes than the descriptor.
theorem Descriptor.Has.of_covers (h : (toEntry desc).Covers addr) : desc.Has addr := by
  have hle : desc.bytes ≤ desc.numberOfPages * efiPageSize := Nat.mod_le _ _
  obtain ⟨-, hlo, hhi⟩ := h
  simp only [toEntry] at hlo hhi
  exact ⟨hlo, by omega⟩

theorem Descriptor.Has.covers (h : desc.Has addr) (hb : desc.numberOfPages * efiPageSize < 2 ^ 64) :
    (toEntry desc).Covers addr := by
  refine ⟨convertMmapType_ne_ignore _, h.left, ?_⟩
  simp only [toEntry, Descriptor.bytes, u64_of_lt hb]
  exact h.right

theorem Lists.get_of_le_mp (h : Lists descs k) (hi : i ≤ k.mp) : ∃ d, descs[i]? = some d := by
  have hm := h.length
  exact ⟨_, List.getElem?_eq_getElem (by omega)⟩

theorem Lists.type_ne_ignore (h : Lists descs k) (hi : i ≤ k.mp) : (k.entry i).type ≠ typeIgnore := by
  obtain ⟨d, hd⟩ := h.get_of_le_mp hi
  rw [h.entry i d hd]
  exact convertMmapType_ne_ignore d.type

end Entries

section Run

theorem Unmerged.not_overlaps (hu : Unmerged descs) (h : Lists descs k) (hi : i < k.mp) (hj : j < k.mp) (hne : i ≠ j)
    (ht : (k.entry i).type = (k.entry j).type) : ¬overlaps (k.entry i) (k.entry j) := by
  have hm := h.length
  obtain ⟨d, hd⟩ := h.get_of_le_mp hi.le
  obtain ⟨e, he⟩ := h.get_of_le_mp hj.le
  rw [h.entry i d hd, h.entry j e he] at ht ⊢
  exact hu.after i j d e hd he (by omega) (by omega) hne ht

-- `mergeKmmapEntry` finds nothing to merge the entry with.
def Kmmap.Loose (k : Kmmap) (c : Nat) : Prop :=
  ∀ z < k.mp, z ≠ c → (k.entry z).type = (k.entry c).type → ¬overlaps (k.entry c) (k.entry z)

theorem mergeKmmapEntry_of_loose (h : k.Loose c) : mergeKmmapEntry k c = k := by
  have hnone : (List.range k.mp).find? (fun z =>
      z ≠ c ∧ (k.entry z).type = (k.entry c).type ∧ overlaps (k.entry c) (k.entry z)) = none := by
    simp only [List.find?_eq_none, List.mem_range, decide_eq_true_eq]
    rintro z hz ⟨hne, ht, ho⟩
    exact h z hz hne ht ho
  rw [mergeKmmapEntry]
  split
  case isTrue  => rfl
  case isFalse => rw [hnone]

theorem Unmerged.isLoose (hu : Unmerged descs) (h : Lists descs k) (hc : c < k.mp) : k.Loose c :=
  fun _ hz hne ht => hu.not_overlaps h hc hz (Ne.symm hne) ht.symm

theorem mergeEntries_lists (hu : Unmerged descs) (h : Lists descs k) (hn : c + n ≤ k.mp) : mergeEntries c n k = k := by
  induction n generalizing c
  case zero      => rfl
  case succ n hi =>
    rw [mergeEntries, mergeKmmapEntry_of_loose (hu.isLoose h (by omega))]
    exact hi (by omega)

theorem initMMAP_lists {first : Descriptor} {rest : List Descriptor} (hu : Unmerged (first :: rest)) :
    Lists (first :: rest) (initMMAP first rest) := by
  have ha := addDescriptors_lists (lists_initial : Lists [first] _) hu.build
  rw [initMMAP, mergeEntries_lists hu ha (by omega)]
  exact ha

end Run

section Merged

-- A descriptor is merged, which keeps the number of entries, or written behind the last one.
theorem addDescriptors_cases (desc : Descriptor) (descs : List Descriptor) (k : Kmmap) :
    ((∃ z < k.mp, mergesDesc (k.entry z) desc) ∧
      ∃ k', k'.mp = k.mp ∧ addDescriptors (desc :: descs) k = addDescriptors descs k') ∨
    ((∀ z < k.mp, ¬mergesDesc (k.entry z) desc) ∧ addDescriptors (desc :: descs) k =
      addDescriptors descs (writeKmmapEntry { mapLoader k desc with mp := (mapLoader k desc).mp + 1 }
        ((mapLoader k desc).mp + 1) desc)) := by
  have hany : ((List.range (mapLoader k desc).mp).any fun z => mergesDesc ((mapLoader k desc).entry z) desc) = true ↔
      ∃ z < k.mp, mergesDesc (k.entry z) desc := by
    rw [mapLoader_mp, mapLoader_entry]
    simp only [List.any_eq_true, List.mem_range, decide_eq_true_eq]
  rw [addDescriptors, mergeDescToMMAP]
  by_cases h : ∃ z < k.mp, mergesDesc (k.entry z) desc
  case pos =>
    rw [if_pos (hany.mpr h)]
    refine .inl ⟨h, _, ?_, rfl⟩
    exact mapLoader_mp
  case neg =>
    rw [if_neg (hany.not.mpr h)]
    exact .inr ⟨fun z hz hm => h ⟨z, hz, hm⟩, rfl⟩

theorem addDescriptors_mp_le : (addDescriptors descs k).mp ≤ k.mp + descs.length := by
  induction descs generalizing k
  case nil => exact le_rfl
  case cons desc descs hi =>
    rw [List.length_cons]
    rcases addDescriptors_cases desc descs k with ⟨-, k', hmp, heq⟩ | ⟨-, heq⟩
    case inl =>
      have := hi (k := k')
      rw [heq]
      omega
    case inr =>
      rw [heq]
      refine le_trans hi ?_
      change (mapLoader k desc).mp + 1 + descs.length ≤ _
      rw [mapLoader_mp]
      omega

-- Where all descriptors have got an entry, none has been merged.
theorem not_merges_of_addDescriptors (h : Lists descs k)
    (hmp : (addDescriptors descs' k).mp + 1 = (descs ++ descs').length) (hj : descs.length ≤ j)
    (he : (descs ++ descs')[i]? = some e) (hd : (descs ++ descs')[j]? = some d) (hij : i + 1 < j) :
    ¬mergesDesc (toEntry e) d := by
  induction descs' generalizing k descs
  case nil =>
    rw [List.append_nil] at hd
    have := (List.getElem?_eq_some_iff.mp hd).choose
    omega
  case cons desc descs' hi =>
    have hm := h.length
    rcases addDescriptors_cases desc descs' k with ⟨-, k', hk, heq⟩ | ⟨hnone, heq⟩
    case inl =>
      have hle : (addDescriptors descs' k').mp ≤ k'.mp + descs'.length := addDescriptors_mp_le
      rw [heq, List.length_append, List.length_cons] at hmp
      omega
    case inr =>
      rcases Nat.eq_or_lt_of_le hj with rfl | hlt
      case inl =>
        rw [List.getElem?_append_left (by omega)] at he
        rw [List.getElem?_append_right le_rfl, Nat.sub_self] at hd
        obtain rfl : desc = d := Option.some.inj hd
        rw [← h.entry _ _ he]
        exact hnone i (by omega)
      case inr =>
        rw [heq] at hmp
        rw [List.append_cons] at hmp he hd
        have h' : Lists (descs ++ [desc]) _ := (h.mapLoader : Lists descs (mapLoader k desc)).write
        refine hi h' hmp ?_ he hd
        rw [List.length_append]
        exact hlt

-- An entry that is merged away is one to ignore.
theorem mergeKmmapEntry_cases (k : Kmmap) (c : Nat) :
    (mergeKmmapEntry k c = k ∧ ((k.entry c).type ≠ typeIgnore → k.Loose c)) ∨
      ((mergeKmmapEntry k c).entry c).type = typeIgnore := by
  rw [mergeKmmapEntry]
  split
  case isTrue h => exact .inl ⟨rfl, fun hne => absurd h hne⟩
  case isFalse h =>
    split
    case h_1 hnone =>
      refine .inl ⟨rfl, fun _ z hz hne ht ho => ?_⟩
      have := List.find?_eq_none.mp hnone z (List.mem_range.mpr hz)
      exact this (decide_eq_true ⟨hne, ht, ho⟩)
    case h_2 z hz =>
      right
      simp only [Kmmap.set, Function.update_self]

theorem mergeKmmapEntry_ignore (h : (k.entry i).type = typeIgnore) (c : Nat) :
    ((mergeKmmapEntry k c).entry i).type = typeIgnore := by
  rw [mergeKmmapEntry]
  split
  case isTrue => exact h
  case isFalse =>
    split
    case h_1 => exact h
    case h_2 z hz =>
      simp only [Kmmap.set, Function.update_apply]
      split
      case isTrue => rfl
      case isFalse =>
        split
        case isTrue hi =>
          rw [← hi]
          exact h
        case isFalse => exact h

theorem mergeEntries_ignore (h : (k.entry i).type = typeIgnore) : ((mergeEntries c n k).entry i).type = typeIgnore := by
  induction n generalizing c k
  case zero      => exact h
  case succ n hi => exact hi (mergeKmmapEntry_ignore h c)

theorem mergeKmmapEntry_mp : (mergeKmmapEntry k c).mp = k.mp := by
  rw [mergeKmmapEntry]
  split
  case isTrue  => rfl
  case isFalse => split <;> rfl

theorem mergeEntries_mp : (mergeEntries c n k).mp = k.mp := by
  induction n generalizing c k
  case zero      => rfl
  case succ n hi => exact hi.trans mergeKmmapEntry_mp

-- Where no entry is to be ignored in the end, none has been merged.
theorem mergeEntries_kept (hn : c + n ≤ k.mp)
    (hk : ∀ i < k.mp, ((mergeEntries c n k).entry i).type ≠ typeIgnore) :
    mergeEntries c n k = k ∧ ∀ i, c ≤ i → i < c + n → k.Loose i := by
  induction n generalizing c
  case zero => exact ⟨rfl, fun i hc hi => by omega⟩
  case succ n hi =>
    rw [mergeEntries] at hk ⊢
    rcases mergeKmmapEntry_cases k c with ⟨heq, hl⟩ | hign
    case inl =>
      rw [heq] at hk ⊢
      obtain ⟨hrest, hloose⟩ := hi (by omega) hk
      refine ⟨hrest, fun i hc hin => ?_⟩
      rcases Nat.eq_or_lt_of_le hc with rfl | hlt
      · exact hl fun h => hk c (by omega) (mergeEntries_ignore h)
      · exact hloose i hlt (by omega)
    case inr => exact absurd (mergeEntries_ignore hign) (hk c (by omega))

-- `Unmerged` says no more than that nothing is merged.
theorem initMMAP_lists_iff {first : Descriptor} {rest : List Descriptor} :
    Lists (first :: rest) (initMMAP first rest) ↔ Unmerged (first :: rest) := by
  refine ⟨fun h => ?_, initMMAP_lists⟩
  have hmp : (initMMAP first rest).mp = (addDescriptors rest (mapLoader (writeKmmapEntry .empty 0 first) first)).mp :=
    mergeEntries_mp
  obtain ⟨heq, hloose⟩ := mergeEntries_kept (Nat.zero_add _).le fun i hi => h.type_ne_ignore (hmp ▸ Nat.le_of_lt hi)
  have hm := h.length
  constructor
  case build =>
    intro i j e d he hd hij
    exact not_merges_of_addDescriptors (lists_initial : Lists [first] _) (hmp ▸ hm.symm)
      (Nat.le_of_lt (by rw [List.length_singleton]; omega)) he hd hij
  case after =>
    intro i j d e hd he hi hj hne ht
    have hl := hloose i (Nat.zero_le i) (by omega) j (by omega) (Ne.symm hne)
    rw [initMMAP, heq] at h
    rw [h.entry _ _ hd, h.entry _ _ he] at hl
    exact hl ht.symm

end Merged

section Complete

theorem EfiMap.descs_ne_nil : m.descs ≠ [] :=
  List.cons_ne_nil _ _

theorem EfiMap.getElem_last (h : Lists m.descs m.kmmap) : m.descs[m.kmmap.mp]? = some m.last := by
  have hm := h.length
  have hl : m.descs.getLast? = some m.last := List.getLast?_eq_some_getLast descs_ne_nil
  rw [← hl, List.getLast?_eq_getElem?, hm, Nat.add_sub_cancel]

theorem EfiMap.index_unique (hi : m.descs[i]? = some d) (hj : m.descs[j]? = some e) (hd : d.Has addr) (he : e.Has addr) :
    i = j := by
  have hp := List.pairwise_iff_getElem.mp m.disjoint
  obtain ⟨hil, rfl⟩ := List.getElem?_eq_some_iff.mp hi
  obtain ⟨hjl, rfl⟩ := List.getElem?_eq_some_iff.mp hj
  rcases Nat.lt_trichotomy i j with hlt | heq | hgt
  · exact absurd he (hp i j hil hjl hlt addr hd)
  · exact heq
  · exact absurd hd (hp j i hjl hil hgt addr he)

-- A descriptor with all addresses has 0 bytes in its entry.
theorem EfiMap.lt_of_covers (hd : d ∈ m.descs) (h : (toEntry d).Covers addr) : d.numberOfPages * efiPageSize < 2 ^ 64 := by
  have hin := m.inside d hd
  obtain ⟨-, hlo, hhi⟩ := h
  simp only [toEntry] at hlo
  simp only [toEntry, Descriptor.bytes, u64] at hhi
  omega

-- The entry that has a byte of a descriptor is its own.
theorem EfiMap.covers_iff (h : Lists m.descs m.kmmap) (hi : m.descs[i]? = some d) (hd : d.Has addr) (hj : j ≤ m.kmmap.mp) :
    (m.kmmap.entry j).Covers addr ↔ j = i ∧ d.numberOfPages * efiPageSize < 2 ^ 64 := by
  obtain ⟨e, he⟩ := h.get_of_le_mp hj
  rw [h.entry _ _ he]
  constructor
  case mp =>
    intro hc
    have heq : j = i := EfiMap.index_unique he hi (.of_covers hc) hd
    subst heq
    obtain rfl : e = d := Option.some.inj (he.symm.trans hi)
    exact ⟨rfl, EfiMap.lt_of_covers (List.mem_of_getElem? hi) hc⟩
  case mpr =>
    rintro ⟨rfl, hb⟩
    obtain rfl : e = d := Option.some.inj (he.symm.trans hi)
    exact hd.covers hb

-- Each descriptor has an entry of its own, and the last one of them is not counted.
theorem initMMAP_complete_iff (hu : Unmerged m.descs) :
    m.Complete ↔ m.last.numberOfPages = 0 ∧ ∀ d ∈ m.descs, d.numberOfPages * efiPageSize < 2 ^ 64 := by
  have h : Lists m.descs m.kmmap := initMMAP_lists hu
  have hlast := EfiMap.getElem_last h
  constructor
  case mp =>
    intro hc
    constructor
    case left =>
      by_contra hne
      have hin := m.inside m.last (List.mem_of_getElem? hlast)
      have hpos : 0 < m.last.numberOfPages * efiPageSize := Nat.mul_pos (Nat.pos_of_ne_zero hne) (by decide)
      have hhas : m.last.Has (BitVec.ofNat 64 m.last.physicalStart) := by
        rw [Descriptor.Has, BitVec.toNat_ofNat, Nat.mod_eq_of_lt (by omega)]
        omega
      obtain ⟨⟨i, hi, hcov⟩, -⟩ := hc _ (List.mem_of_getElem? hlast) _ hhas
      have heq := (EfiMap.covers_iff h hlast hhas hi.le).mp hcov
      omega
    case right =>
      intro d hd
      by_contra hge
      have hin := m.inside d hd
      have hhas : d.Has 0#64 := by
        rw [Descriptor.Has, BitVec.toNat_ofNat]
        omega
      obtain ⟨i, hi⟩ := List.getElem?_of_mem hd
      obtain ⟨⟨j, hj, hcov⟩, -⟩ := hc d hd _ hhas
      exact hge ((EfiMap.covers_iff h hi hhas hj.le).mp hcov).right
  case mpr =>
    rintro ⟨hempty, hfits⟩ d hd addr hhas
    obtain ⟨i, hi⟩ := List.getElem?_of_mem hd
    have hm := h.length
    have hlen : i < m.descs.length := (List.getElem?_eq_some_iff.mp hi).choose
    have hne : i ≠ m.kmmap.mp := by
      rintro rfl
      obtain rfl : m.last = d := Option.some.inj (hlast.symm.trans hi)
      rw [Descriptor.Has, hempty] at hhas
      omega
    have hcov := (EfiMap.covers_iff h hi hhas (by omega)).mpr ⟨rfl, hfits d hd⟩
    refine ⟨⟨i, by omega, hcov⟩, i, by omega, ?_, hcov⟩
    rw [h.entry _ _ hi]
    rfl

-- Two kinds of memory next to each other, and a descriptor without pages behind them.
def mapWithEmptyLast : EfiMap where
  first    := pages .conventionalMemory 1 2
  rest     := [pages .acpiReclaimMemory 3 1, pages .conventionalMemory 8 0]
  inside   := by decide
  disjoint := by
    simp only [List.pairwise_cons, List.mem_cons, List.not_mem_nil, or_false, Descriptor.Has, pages, efiPageSize]
    refine ⟨?_, ?_, fun _ h => h.elim, .nil⟩
    · rintro d (rfl | rfl) addr <;> simp only <;> omega
    · rintro d rfl addr
      simp only
      omega

theorem mapWithEmptyLast_unmerged : Unmerged mapWithEmptyLast.descs where
  build i j d e he hd hij := by
    have hj : j < 3 := (List.getElem?_eq_some_iff.mp hd).choose
    obtain ⟨rfl, rfl⟩ : i = 0 ∧ j = 2 := by omega
    obtain rfl := Option.some.inj he
    obtain rfl := Option.some.inj hd
    decide
  after i j d e hd he hi hj hne ht := by
    have hi : i < 2 := Nat.succ_lt_succ_iff.mp hi
    have hj : j < 2 := Nat.succ_lt_succ_iff.mp hj
    obtain ⟨rfl, rfl⟩ | ⟨rfl, rfl⟩ : i = 0 ∧ j = 1 ∨ i = 1 ∧ j = 0 := by omega
    all_goals
      obtain rfl := Option.some.inj hd
      obtain rfl := Option.some.inj he
      exact absurd ht (by decide)

theorem initMMAP_complete_emptyLast : mapWithEmptyLast.Complete :=
  (initMMAP_complete_iff mapWithEmptyLast_unmerged).mpr ⟨rfl, by decide⟩

def mapOfTwo : EfiMap where
  first    := pages .conventionalMemory 1 2
  rest     := [pages .acpiReclaimMemory 3 1]
  inside   := by decide
  disjoint := by
    simp only [List.pairwise_cons, List.mem_singleton, Descriptor.Has, pages, efiPageSize]
    refine ⟨?_, fun _ h => absurd h List.not_mem_nil, .nil⟩
    rintro d rfl addr
    simp only
    omega

theorem initMMAP_last_lost : ¬mapOfTwo.Complete := by
  intro h
  obtain ⟨⟨i, hi, hc⟩, -⟩ := h _ (List.mem_cons_of_mem _ List.mem_cons_self) 0x3000#64 (by decide)
  obtain rfl : i = 0 := Nat.lt_one_iff.mp hi
  exact absurd hc (by decide)

end Complete
end RoverOS.Bootloader
