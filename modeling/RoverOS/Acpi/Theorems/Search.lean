import RoverOS.Acpi.Madt

-- When the search finds what stands in the table, and reads nothing else.

open Bytes (Memory load)
open RoverOS.Ramdisk (Read loadWith readAny readImage)

namespace RoverOS.Acpi

def typeAt (m : Memory) (a : Nat) : Nat := load m a 1

def lengthAt (m : Memory) (a : Nat) : Nat := load m (a + 1) 1

-- The structures from `a` on fill the memory up to `stop`.
inductive Entries (m : Memory) (stop : Nat) : Nat → List Nat → Prop
  | nil : Entries m stop stop []
  | cons {a : Nat} {l : List Nat} :
    2 ≤ lengthAt m a → Entries m stop (a + lengthAt m a) l → Entries m stop a (a :: l)

def Madt.stop (madt : Madt) : Nat := madt.base.toNat + madt.length.toNat

-- What a search from `current` should return, where `after` are the structures behind it.
def expected (m : Memory) (type current : Nat) (checkInitial : Bool) (after : List Nat) : Nat :=
  if checkInitial ∧ typeAt m current = type then current
  else (after.find? fun e => typeAt m e = type).getD 0

-- The search returns the right structure, with all reads in the table.
def Exact (m : Memory) (madt : Madt) (type current : Nat) (checkInitial : Bool) (after : List Nat) : Prop :=
  ∃ fuel, findNextICS (readImage m madt.base.toNat madt.length.toNat) madt fuel type current checkInitial =
    .ok (expected m type current checkInitial after)

section Table

variable {m : Memory} {madt : Madt} {a n v stop type fuel clen : Nat} {l : List Nat}

theorem fetch_inside (hl : madt.base.toNat ≤ a) (hu : a + n ≤ madt.stop) :
    fetch (readImage m madt.base.toNat madt.length.toNat) a n = .ok (load m a n) := by
  have h : loadWith (readImage m madt.base.toNat madt.length.toNat) a n = .ok (load m a n) := by
    induction n generalizing a
    case zero => rfl
    case succ n hi =>
      rw [Madt.stop] at hu
      have hr : readImage m madt.base.toNat madt.length.toNat a = .ok (m a) := if_pos ⟨hl, by omega⟩
      rw [loadWith, hr, hi (by omega) (by rw [Madt.stop]; omega)]
      rfl
  rw [fetch, h]
  rfl

theorem fetch_behind (h : madt.stop ≤ a) :
    fetch (readImage m madt.base.toNat madt.length.toNat) a (n + 1) = .error (.exit .fault) := by
  rw [Madt.stop] at h
  have hr : readImage m madt.base.toNat madt.length.toNat a = .error .fault :=
    if_neg fun hin => Nat.not_lt.mpr h hin.right
  rw [fetch, loadWith, hr]
  rfl

-- The addresses of a table are below all overflows.
theorem Madt.stop_lt : madt.stop < 2 ^ 33 := by
  have hb := madt.base.isLt
  have hl := madt.length.isLt
  rw [Madt.stop]
  omega

theorem Entries.le (h : Entries m stop a l) : a ≤ stop := by
  induction h
  case nil => exact Nat.le_refl _
  case cons hle => omega

theorem Entries.tail {e : Nat} (h : Entries m stop a (e :: l)) : Entries m stop (a + lengthAt m a) l := by
  cases h
  case cons _ h => exact h

theorem Entries.drop {before after : List Nat} {e : Nat} (h : Entries m stop a (before ++ e :: after)) :
    a ≤ e ∧ Entries m stop e (e :: after) := by
  induction before generalizing a
  case nil =>
    cases h
    case cons hlen h => exact ⟨Nat.le_refl e, .cons hlen h⟩
  case cons e' before hind =>
    obtain ⟨hle, he⟩ := hind h.tail
    exact ⟨by omega, he⟩

theorem Entries.nil_eq (h : Entries m stop a []) : a = stop := by
  cases h
  rfl

theorem Entries.head_eq {e : Nat} (h : Entries m stop a (e :: l)) : e = a := by
  cases h
  rfl

theorem Entries.two_le {e : Nat} (h : Entries m stop a (e :: l)) : 2 ≤ lengthAt m a := by
  cases h
  case cons hlen _ => exact hlen

-- From the first structure on `clen` is the number of bytes behind the header.
theorem Madt.offset_of_le (hl : madt.header ≤ a) (hu : a < 2 ^ 64) : madt.offset a = a - madt.header := by
  rw [Madt.header] at hl ⊢
  have hb : sub64 a madt.base.toNat = a - madt.base.toNat := sub64_of_le (by omega) hu
  rw [Madt.offset, hb, sub64_of_le (by omega) (by omega)]
  omega

end Table

section Search

-- `clen` is behind the offset of `a` by at least the length of the structure at which the search began.
structure At (m : Memory) (madt : Madt) (clen a : Nat) (l : List Nat) : Prop where
  entries : Entries m madt.stop a (a :: l)
  header  : madt.header ≤ a
  clen    : clen + madt.header ≤ a + lengthAt m a

variable {m : Memory} {madt : Madt} {a e r type fuel clen : Nat} {l : List Nat}

-- A search begins at `a`.
theorem At.of_entries (he : Entries m madt.stop a (a :: l)) (hh : madt.header ≤ a) :
    At m madt (madt.offset a) a l := by
  have hs := madt.stop_lt
  have hle := he.le
  have hoff : madt.offset a = a - madt.header := Madt.offset_of_le hh (by omega)
  exact ⟨he, hh, by omega⟩

theorem At.inside (h : At m madt clen a l) : clen ≤ madt.length.toNat := by
  have hle := h.entries.tail.le
  have hc := h.clen
  rw [Madt.stop] at hle
  rw [Madt.header] at hc
  omega

theorem At.icsLength (h : At m madt clen a l) :
    icsLength (readImage m madt.base.toNat madt.length.toNat) a = .ok (lengthAt m a) := by
  have hs := madt.stop_lt
  have hle := h.entries.tail.le
  have h2 := h.entries.two_le
  have hh := h.header
  rw [Madt.header] at hh
  rw [Acpi.icsLength, u64_of_lt (by omega)]
  exact fetch_inside (by omega) (by omega)

theorem At.icsType (h : At m madt clen a l) :
    icsType (readImage m madt.base.toNat madt.length.toNat) a = .ok (typeAt m a) := by
  have hle := h.entries.tail.le
  have h2 := h.entries.two_le
  have hh := h.header
  rw [Madt.header] at hh
  exact fetch_inside (by omega) (by omega)

-- Behind the last structure the length of another one is read.
theorem At.search_last (h : At m madt clen a []) :
    searchLoop (readImage m madt.base.toNat madt.length.toNat) madt type (fuel + 1) clen a =
      .error (.exit .fault) := by
  have hs := madt.stop_lt
  have hstop : a + lengthAt m a = madt.stop := h.entries.tail.nil_eq
  rw [searchLoop, if_pos h.inside, h.icsLength]
  simp only [bind, Except.bind, hstop, u64_of_lt (by omega : madt.stop < 2 ^ 64), Acpi.icsLength,
    u64_of_lt (by omega : madt.stop + 1 < 2 ^ 64), fetch_behind (Nat.le_succ madt.stop)]

theorem At.next (h : At m madt clen a (e :: l)) :
    At m madt (u64 (clen + lengthAt m e)) e l ∧ e = a + lengthAt m a := by
  have he := h.entries.tail.head_eq
  have ht := h.entries.tail
  have hs := madt.stop_lt
  have hle := ht.tail.le
  have hh := h.header
  have hc := h.clen
  rw [← he] at ht hle
  have hlt : clen + lengthAt m e < 2 ^ 64 := by omega
  rw [u64_of_lt hlt]
  exact ⟨⟨ht, by omega, by omega⟩, he⟩

theorem At.search_next (h : At m madt clen a (e :: l)) :
    searchLoop (readImage m madt.base.toNat madt.length.toNat) madt type (fuel + 1) clen a =
      if typeAt m e = type then .ok e
      else searchLoop (readImage m madt.base.toNat madt.length.toNat) madt type fuel (u64 (clen + lengthAt m e)) e := by
  have hs := madt.stop_lt
  obtain ⟨hn, he⟩ := h.next
  have hlt : e < 2 ^ 64 := by
    have := hn.entries.le
    omega
  rw [searchLoop, if_pos h.inside, h.icsLength]
  simp only [bind, Except.bind, ← he, u64_of_lt hlt, hn.icsLength, hn.icsType]
  split_ifs <;> rfl

-- What the search returns is the first structure of the type.
theorem At.search_ok (h : At m madt clen a l)
    (hok : searchLoop (readImage m madt.base.toNat madt.length.toNat) madt type fuel clen a = .ok r) :
    l.find? (fun e => typeAt m e = type) = some r := by
  induction l generalizing a clen fuel
  case nil =>
    cases fuel
    case zero => cases hok
    case succ fuel =>
      rw [h.search_last] at hok
      cases hok
  case cons e l hind =>
    cases fuel
    case zero => cases hok
    case succ fuel =>
      rw [h.search_next] at hok
      by_cases ht : typeAt m e = type
      case pos =>
        rw [if_pos ht] at hok
        cases hok
        simp [ht]
      case neg =>
        rw [if_neg ht] at hok
        rw [List.find?_cons_of_neg (by simpa using ht)]
        exact hind h.next.left hok

theorem At.search_finds (h : At m madt clen a l) (hf : l.find? (fun e => typeAt m e = type) = some r) :
    ∃ fuel, searchLoop (readImage m madt.base.toNat madt.length.toNat) madt type fuel clen a = .ok r := by
  induction l generalizing a clen
  case nil => cases hf
  case cons e l hind =>
    by_cases ht : typeAt m e = type
    case pos =>
      rw [List.find?_cons_of_pos (by simpa using ht)] at hf
      cases hf
      exact ⟨1, by rw [h.search_next, if_pos ht]⟩
    case neg =>
      rw [List.find?_cons_of_neg (by simpa using ht)] at hf
      obtain ⟨fuel, hok⟩ := hind h.next.left hf
      exact ⟨fuel + 1, by rw [h.search_next, if_neg ht, hok]⟩

-- A search without a match reads behind the table, whatever stands there.
theorem At.search_iff (h : At m madt clen a l) :
    (∃ fuel, searchLoop (readImage m madt.base.toNat madt.length.toNat) madt type fuel clen a =
      .ok ((l.find? fun e => typeAt m e = type).getD 0)) ↔ ∃ e ∈ l, typeAt m e = type := by
  constructor
  case mp =>
    rintro ⟨fuel, hok⟩
    have hf := h.search_ok hok
    exact ⟨_, List.mem_of_find?_eq_some hf, by simpa using List.find?_some hf⟩
  case mpr =>
    rintro ⟨e, hm, ht⟩
    have hsome : (l.find? fun e => typeAt m e = type).isSome := List.find?_isSome.mpr ⟨e, hm, by simpa using ht⟩
    obtain ⟨r, hf⟩ := Option.isSome_iff_exists.mp hsome
    rw [hf]
    exact h.search_finds hf

end Search

-- In every well-formed table a search from any structure is right exactly when there is something to find:
-- `current` itself, or a structure behind it.
theorem findNextICS_exact_iff {m : Memory} {madt : Madt} {l before after : List Nat} {current : Nat}
    (hw : Entries m madt.stop madt.header l) (hl : l = before ++ current :: after) (type : Nat)
    (checkInitial : Bool) : Exact m madt type current checkInitial after ↔
      (checkInitial ∧ typeAt m current = type) ∨ ∃ e ∈ after, typeAt m e = type := by
  rw [hl] at hw
  obtain ⟨hle, he⟩ := hw.drop
  have hat : At m madt (madt.offset current) current after := .of_entries he hle
  rw [Exact, expected]
  cases checkInitial
  case false =>
    simp only [Bool.false_eq_true, false_and, if_false, false_or]
    exact hat.search_iff
  case true =>
    simp only [findNextICS_true hat.icsType, true_and]
    by_cases ht : typeAt m current = type
    case pos => exact iff_of_true ⟨0, by rw [if_pos ht, if_pos ht]⟩ (.inl ht)
    case neg =>
      simp only [if_neg ht, or_iff_right ht]
      exact hat.search_iff

section Sample

-- A table at 0x1000 with one IOAPIC and one processor. Behind it all bytes are 0xFF.
def sampleTable : List (BitVec 8) :=
  List.replicate 4 0 ++ [64, 0, 0, 0] ++ List.replicate 36 0 ++
  [1, 12, 0, 0, 0, 0, 0xC0, 0xFE, 0, 0, 0, 0] ++ [0, 8, 0, 0, 1, 0, 0, 0]

def sampleMemory : Memory :=
  fun a => if a < 0x1000 then 0 else sampleTable.getD (a - 0x1000) 0xFF

def sampleMadt : Madt where
  base   := 0x1000
  length := 64

theorem entries_of_lengths {m : Memory} (h₁ : lengthAt m 0x102C = 12) (h₂ : lengthAt m 0x1038 = 8) :
    Entries m sampleMadt.stop sampleMadt.header [0x102C, 0x1038] := by
  have hh : sampleMadt.header = 0x102C := rfl
  have hs : sampleMadt.stop = 0x1040 := rfl
  rw [hh, hs]
  refine .cons (by rw [h₁]; decide) ?_
  rw [h₁]
  refine .cons (by rw [h₂]; decide) ?_
  rw [h₂]
  exact .nil

theorem sample_entries : Entries sampleMemory sampleMadt.stop sampleMadt.header [0x102C, 0x1038] :=
  entries_of_lengths (by decide) (by decide)

theorem sample_offset : sampleMadt.offset 0x102C = 0 := by decide

-- The search for an override leaves the table.
theorem override_not_found : Entries sampleMemory sampleMadt.stop sampleMadt.header [0x102C, 0x1038] ∧
    ¬Exact sampleMemory sampleMadt ICS_ISO 0x102C false [0x1038] := by
  refine ⟨sample_entries, ?_⟩
  have hat : At sampleMemory sampleMadt 0 0x102C [0x1038] := ⟨sample_entries, by decide, by decide⟩
  have hno : ¬∃ e ∈ [0x1038], typeAt sampleMemory e = ICS_ISO := by decide
  rintro ⟨fuel, hok⟩
  rw [findNextICS_false, sample_offset] at hok
  exact hno (hat.search_iff.mp ⟨fuel, hok⟩)

theorem processor_found : Exact sampleMemory sampleMadt ICS_LAPIC 0x102C false [0x1038] :=
  (findNextICS_exact_iff sample_entries (rfl : _ = [] ++ 0x102C :: [0x1038]) ICS_LAPIC false).mpr
    (.inr ⟨0x1038, by decide, by decide⟩)

end Sample

end RoverOS.Acpi
