import RoverOS.Mmap.Basic

-- `mmap.c`: which entry of the memory map, or of the bootloader's allocations, an address lies in.

namespace RoverOS

namespace MmapEntry

-- The fields of the record are `uint64_t`s.
def Words (e : MmapEntry) : Prop :=
  e.phys < 2 ^ 64 ∧ e.bytes < 2 ^ 64

-- The search returns the first entry of which this is true.
def Hit (addr : Word) (e : MmapEntry) : Prop :=
  e.type ≠ typeIgnore ∧ e.phys ≤ addr.toNat ∧ u64 (e.phys + e.bytes) ≥ addr.toNat

instance (addr : Word) (e : MmapEntry) : Decidable (e.Hit addr) :=
  inferInstanceAs (Decidable (_ ∧ _))

end MmapEntry

-- What `initMmap` takes from the bootloader. `entries` and `aentries` are the lengths of the lists.
structure Mmaps where
  mmap     : List MmapEntry
  allocMap : List MmapEntry
  words    : ∀ e ∈ mmap ++ allocMap, e.Words

namespace Mmaps

def entries (maps : Mmaps) : Nat := maps.mmap.length

def map (maps : Mmaps) (alloc : Bool) : List MmapEntry :=
  if alloc then maps.allocMap else maps.mmap

-- The `limit` that is set to `aentries` is a variable of the branch's block, and ends with it.
def limit (maps : Mmaps) (_alloc : Bool) : Nat := maps.entries

-- The loop from `map[i]` on: `rest` is what is left of the array, `left` what is left to the limit.
-- An entry behind the end of the array is not the map's.
def search (addr : Word) (rest : List MmapEntry) (left i : Nat) : Except Exit (Option Nat) :=
  match rest, left with
  | _, 0              => .ok none
  | [], _ + 1         => .error .fault
  | e :: rest, left + 1 =>
    if e.type = MmapEntry.typeIgnore then search addr rest left (i + 1)
    else if e.phys ≤ addr.toNat ∧ u64 (e.phys + e.bytes) ≥ addr.toNat then .ok (some i)
    else search addr rest left (i + 1)

-- The pointer that is returned is the entry's index in its own map.
def getMmapEntry_internal (maps : Mmaps) (phys : Word) (alloc : Bool) : Except Exit (Option Nat) :=
  search phys (maps.map alloc) (maps.limit alloc) 0

def getMmapEntry (maps : Mmaps) (phys : Word) : Except Exit (Option Nat) :=
  maps.getMmapEntry_internal phys false

def getAllocMapEntry (maps : Mmaps) (phys : Word) : Except Exit (Option Nat) :=
  maps.getMmapEntry_internal phys true

section Search

variable {addr : Word} {e : MmapEntry} {rest : List MmapEntry} {left i j : Nat}

theorem search_cons : search addr (e :: rest) (left + 1) i =
    if e.Hit addr then .ok (some i) else search addr rest left (i + 1) := by
  rw [search]
  by_cases ht : e.type = MmapEntry.typeIgnore
  case pos => simp [MmapEntry.Hit, ht]
  case neg => simp [MmapEntry.Hit, ht]

-- The first hit before the limit.
theorem search_some_iff : search addr rest left i = .ok (some j) ↔
    ∃ k e, j = i + k ∧ k < left ∧ rest[k]? = some e ∧ e.Hit addr ∧ ∀ e' ∈ rest.take k, ¬e'.Hit addr := by
  induction left generalizing rest i
  case zero => simp [search]
  case succ left hi =>
    cases rest
    case nil => simp [search]
    case cons e rest =>
      rw [search_cons]
      split
      case isTrue hh =>
        constructor
        case mp =>
          intro h
          obtain rfl : i = j := by simpa using h
          exact ⟨0, e, rfl, by omega, rfl, hh, by simp⟩
        case mpr =>
          rintro ⟨k, e', rfl, -, -, -, hf⟩
          cases k
          case zero   => rfl
          case succ k => exact absurd hh (hf e (by simp))
      case isFalse hh =>
        rw [hi]
        constructor
        case mp =>
          rintro ⟨k, e', rfl, hk, he, hh', hf⟩
          refine ⟨k + 1, e', by omega, by omega, by simpa using he, hh', ?_⟩
          simpa using ⟨hh, hf⟩
        case mpr =>
          rintro ⟨k, e', rfl, hk, he, hh', hf⟩
          cases k
          case zero =>
            obtain rfl : e = e' := by simpa using he
            exact absurd hh' hh
          case succ k =>
            refine ⟨k, e', by omega, by omega, by simpa using he, hh', ?_⟩
            simp only [List.take_succ_cons, List.forall_mem_cons] at hf
            exact hf.right

-- Nothing is found, and the limit is not behind the end of the array.
theorem search_none_iff : search addr rest left i = .ok none ↔
    left ≤ rest.length ∧ ∀ e ∈ rest.take left, ¬e.Hit addr := by
  induction left generalizing rest i
  case zero => simp [search]
  case succ left hi =>
    cases rest
    case nil => simp [search]
    case cons e rest =>
      rw [search_cons]
      split
      case isTrue hh  => simp [hh]
      case isFalse hh => simp [hh, hi]

-- A hit before the limit ends the search, at the latest there.
theorem search_of_hit {k : Nat} (hk : k < left) (he : rest[k]? = some e) (hh : e.Hit addr) :
    ∃ j ≤ k, search addr rest left i = .ok (some (i + j)) := by
  induction k generalizing rest left i
  all_goals
    obtain ⟨left, rfl⟩ := Nat.exists_eq_add_one_of_ne_zero (Nat.ne_zero_of_lt hk)
    cases rest
  case zero.nil => simp at he
  case zero.cons e' rest =>
    obtain rfl : e' = e := by simpa using he
    exact ⟨0, Nat.le_refl 0, by rw [search_cons, if_pos hh, Nat.add_zero]⟩
  case succ.nil => simp at he
  case succ.cons k hi e' rest =>
    rw [search_cons]
    split
    case isTrue => exact ⟨0, Nat.zero_le _, rfl⟩
    case isFalse =>
      obtain ⟨j, hj, hs⟩ := hi (Nat.lt_of_succ_lt_succ hk) he (i := i + 1)
      exact ⟨j + 1, by omega, by rw [hs, Nat.add_right_comm, Nat.add_assoc]⟩

end Search

end Mmaps
end RoverOS
