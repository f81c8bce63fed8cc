import RoverOS.Mmap.Lookup

-- When the entry that is found is one that the address lies in.

namespace RoverOS

namespace MmapEntry

-- The entry says something about `addr`.
def Covers (e : MmapEntry) (addr : Word) : Prop :=
  e.type ≠ typeIgnore ∧ e.phys ≤ addr.toNat ∧ addr.toNat < e.phys + e.bytes

-- The address behind the last one is not in the address space any more.
def EndsInside (e : MmapEntry) : Prop :=
  e.phys + e.bytes < 2 ^ 64

-- `addr` is the first address behind the entry.
def EndsAt (e : MmapEntry) (addr : Word) : Prop :=
  e.type ≠ typeIgnore ∧ e.phys + e.bytes = addr.toNat

instance (e : MmapEntry) (addr : Word) : Decidable (e.Covers addr) :=
  inferInstanceAs (Decidable (_ ∧ _))

instance (e : MmapEntry) : Decidable e.EndsInside :=
  inferInstanceAs (Decidable (_ < _))

instance (e : MmapEntry) (addr : Word) : Decidable (e.EndsAt addr) :=
  inferInstanceAs (Decidable (_ ∧ _))

variable {e : MmapEntry} {addr : Word}

-- An end that wraps around is below the entry, and no address is between the two.
theorem Words.hit_iff (hw : e.Words) : e.Hit addr ↔ (e.Covers addr ∧ e.EndsInside) ∨ e.EndsAt addr := by
  have ha := addr.isLt
  obtain ⟨hp, hb⟩ := hw
  simp only [Hit, Covers, EndsInside, EndsAt, u64, ge_iff_le]
  by_cases hs : e.phys + e.bytes < 2 ^ 64
  case pos =>
    rw [Nat.mod_eq_of_lt hs]
    omega
  case neg => omega

end MmapEntry

namespace Mmaps

-- What a lookup should find: only entries of its own map are read, an entry that the address lies in
-- is returned where there is one, and `NULL` where there is none.
def Finds (maps : Mmaps) (alloc : Bool) (addr : Word) : Prop :=
  ∃ r, maps.getMmapEntry_internal addr alloc = .ok r ∧
    ((∃ e ∈ maps.map alloc, e.Covers addr) → ∃ i e, r = some i ∧ (maps.map alloc)[i]? = some e ∧ e.Covers addr) ∧
    ((∀ e ∈ maps.map alloc, ¬e.Covers addr) → r = none)

-- An entry that the address lies in stands before the limit and ends inside of the address space, and
-- no entry before it ends at the address.
def Reached (maps : Mmaps) (alloc : Bool) (addr : Word) : Prop :=
  ∃ i e, i < maps.limit alloc ∧ (maps.map alloc)[i]? = some e ∧ e.Covers addr ∧ e.EndsInside ∧
    ∀ e' ∈ (maps.map alloc).take i, ¬e'.EndsAt addr

-- No entry has the address, none before the limit ends at it, and the limit is inside of the map.
def Passed (maps : Mmaps) (alloc : Bool) (addr : Word) : Prop :=
  (∀ e ∈ maps.map alloc, ¬e.Covers addr) ∧ maps.limit alloc ≤ (maps.map alloc).length ∧
    ∀ e ∈ (maps.map alloc).take (maps.limit alloc), ¬e.EndsAt addr

section Lookup

variable {maps : Mmaps} {alloc : Bool} {addr : Word} {e : MmapEntry} {i : Nat}

theorem words_of_mem (h : e ∈ maps.map alloc) : e.Words := by
  apply maps.words
  cases alloc
  case false => exact List.mem_append_left _ h
  case true  => exact List.mem_append_right _ h

theorem hit_iff (h : e ∈ maps.map alloc) :
    e.Hit addr ↔ (e.Covers addr ∧ e.EndsInside) ∨ e.EndsAt addr :=
  (words_of_mem h).hit_iff

theorem getMmapEntry_some_iff : maps.getMmapEntry_internal addr alloc = .ok (some i) ↔
    ∃ e, i < maps.limit alloc ∧ (maps.map alloc)[i]? = some e ∧ e.Hit addr ∧
      ∀ e' ∈ (maps.map alloc).take i, ¬e'.Hit addr := by
  rw [getMmapEntry_internal, search_some_iff]
  constructor
  case mp =>
    rintro ⟨k, e, rfl, h⟩
    exact ⟨e, by simpa using h⟩
  case mpr =>
    rintro ⟨e, h⟩
    exact ⟨i, e, (Nat.zero_add i).symm, h⟩

-- Before an entry that nothing blocks, the first hit is an entry of the address too.
theorem Reached.found (h : maps.Reached alloc addr) : ∃ i e,
    maps.getMmapEntry_internal addr alloc = .ok (some i) ∧ (maps.map alloc)[i]? = some e ∧ e.Covers addr := by
  obtain ⟨i, e, hi, he, hc, hend, hf⟩ := h
  have hh : e.Hit addr := (hit_iff (List.mem_of_getElem? he)).mpr (.inl ⟨hc, hend⟩)
  obtain ⟨j, hj, hs⟩ := search_of_hit (i := 0) hi he hh
  rw [Nat.zero_add] at hs
  obtain ⟨e', -, he', hh', -⟩ := getMmapEntry_some_iff.mp hs
  refine ⟨j, e', hs, he', ?_⟩
  rcases (hit_iff (List.mem_of_getElem? he')).mp hh' with ⟨hc', -⟩ | hb
  case inl => exact hc'
  case inr =>
    rcases Nat.lt_or_eq_of_le hj with hlt | rfl
    case inl =>
      have hm : e' ∈ (maps.map alloc).take i :=
        List.mem_of_getElem? ((List.getElem?_take_of_lt hlt).trans he')
      exact absurd hb (hf e' hm)
    case inr =>
      obtain rfl : e = e' := Option.some.inj (he.symm.trans he')
      exact hc

theorem Reached.of_found (h : maps.getMmapEntry_internal addr alloc = .ok (some i))
    (he : (maps.map alloc)[i]? = some e) (hc : e.Covers addr) : maps.Reached alloc addr := by
  obtain ⟨e', hi, he', hh, hf⟩ := getMmapEntry_some_iff.mp h
  obtain rfl : e = e' := Option.some.inj (he.symm.trans he')
  refine ⟨i, e, hi, he, hc, ?_, ?_⟩
  case refine_1 =>
    rcases (hit_iff (List.mem_of_getElem? he)).mp hh with ⟨-, hend⟩ | hb
    case inl => exact hend
    case inr =>
      obtain ⟨-, -, hlt⟩ := hc
      obtain ⟨-, hat⟩ := hb
      omega
  case refine_2 =>
    intro e' hm hb
    exact hf e' hm ((hit_iff (List.mem_of_mem_take hm)).mpr (.inr hb))

theorem getMmapEntry_none_iff (hc : ∀ e ∈ maps.map alloc, ¬e.Covers addr) :
    maps.getMmapEntry_internal addr alloc = .ok none ↔ maps.Passed alloc addr := by
  rw [getMmapEntry_internal, search_none_iff, Passed, and_iff_right hc]
  refine and_congr_right fun _ => forall₂_congr fun e hm => not_congr ?_
  rw [hit_iff (List.mem_of_mem_take hm), or_iff_right]
  rintro ⟨h, -⟩
  exact hc e (List.mem_of_mem_take hm) h

-- The loop ends at the length of the memory map in both maps, and the end of a range counts as inside.
theorem getMmapEntry_finds_iff : maps.Finds alloc addr ↔ maps.Reached alloc addr ∨ maps.Passed alloc addr := by
  by_cases hc : ∃ e ∈ maps.map alloc, e.Covers addr
  case pos =>
    constructor
    case mp =>
      rintro ⟨r, hr, hs, -⟩
      obtain ⟨i, e, rfl, he, hc⟩ := hs hc
      exact .inl (.of_found hr he hc)
    case mpr =>
      rintro (h | ⟨hn, -⟩)
      case inl =>
        obtain ⟨i, e, hr, he, hc'⟩ := h.found
        refine ⟨some i, hr, fun _ => ⟨i, e, rfl, he, hc'⟩, fun hn => ?_⟩
        exact absurd hc' (hn e (List.mem_of_getElem? he))
      case inr =>
        obtain ⟨e, hm, he⟩ := hc
        exact absurd he (hn e hm)
  case neg =>
    have hn : ∀ e ∈ maps.map alloc, ¬e.Covers addr := fun e hm he => hc ⟨e, hm, he⟩
    constructor
    case mp =>
      rintro ⟨r, hr, -, hs⟩
      obtain rfl := hs hn
      exact .inr ((getMmapEntry_none_iff hn).mp hr)
    case mpr =>
      rintro (⟨i, e, -, he, h, -⟩ | h)
      case inl => exact absurd h (hn e (List.mem_of_getElem? he))
      case inr => exact ⟨none, (getMmapEntry_none_iff hn).mpr h, fun h => absurd h hc, fun _ => rfl⟩

end Lookup

section Shorter

def page (type phys : Nat) : MmapEntry := ⟨MmapEntry.magicNumber, 0, type, phys, 0, 0x1000⟩

theorem shorter_words : ∀ e ∈ [page 1 0x1000, page 1 0x2000] ++ [page 0xA 0x5000], e.Words := by
  intro e he
  simp only [List.cons_append, List.nil_append, List.mem_cons, List.not_mem_nil, or_false] at he
  rcases he with rfl | rfl | rfl <;> exact ⟨by decide, by decide⟩

-- Two pages of memory, one right behind the other, and one allocation.
def shorter : Mmaps := ⟨[page 1 0x1000, page 1 0x2000], [page 0xA 0x5000], shorter_words⟩

-- The second page's first address is found in the first page, and an address without an allocation is
-- looked for in an entry behind the end of the allocation map.
theorem getMmapEntry_boundary : ¬(∀ maps alloc addr, Mmaps.Finds maps alloc addr) ∧
    ¬shorter.Finds false 0x2000 ∧ ¬shorter.Finds true 0x9000 := by
  have hb : ¬shorter.Finds false 0x2000 := by
    rintro ⟨r, hr, hs, -⟩
    obtain ⟨i, e, rfl, he, hc⟩ := hs ⟨page 1 0x2000, by decide, by decide⟩
    have h0 : shorter.getMmapEntry_internal 0x2000 false = .ok (some 0) := by decide
    obtain rfl : i = 0 := Option.some.inj (Except.ok.inj (hr.symm.trans h0))
    obtain rfl : page 1 0x1000 = e := by simpa [shorter, map] using he
    exact absurd hc (by decide)
  refine ⟨fun h => hb (h shorter false 0x2000), hb, ?_⟩
  rintro ⟨r, hr, -⟩
  have h0 : shorter.getMmapEntry_internal 0x9000 true = .error .fault := by decide
  rw [h0] at hr
  cases hr

end Shorter

end Mmaps
end RoverOS
