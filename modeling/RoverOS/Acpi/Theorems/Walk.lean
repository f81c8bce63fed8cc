import RoverOS.Acpi.Theorems.Search
import RoverOS.Library.Iterate

-- The structures that the searches come by, in the table and behind it, and whether they come to an end.

open Bytes (Memory load)
open Iterate (Stops Moves stops_step stops_of_stop)
open RoverOS.Ramdisk (Read loadWith readAny loadWith_readAny)

namespace RoverOS.Acpi

-- The two variables of a search.
structure Cursor where
  clen  : Nat
  check : Nat

-- The length as the search reads it, from an address of 64 bits.
def stride (m : Memory) (a : Nat) : Nat := load m (u64 (a + 1)) 1

def advance (m : Memory) (s : Cursor) : Cursor :=
  let check := u64 (s.check + stride m s.check)
  { check, clen := u64 (s.clen + stride m check) }

namespace Madt

def start (madt : Madt) (current : Nat) : Cursor where
  clen  := madt.offset current
  check := current

def Inside (madt : Madt) (s : Cursor) : Prop :=
  s.clen ≤ madt.length.toNat

instance (madt : Madt) (s : Cursor) : Decidable (madt.Inside s) :=
  inferInstanceAs (Decidable (_ ≤ _))

end Madt

section Repeated

-- A search that is repeated from each structure of the type that it finds, until one of them is `done`.
variable (m : Memory) (madt : Madt) (type : Nat) (done : Nat → Prop)

def walk (s : Cursor) : Cursor :=
  if typeAt m (advance m s).check = type then madt.start (advance m s).check else advance m s

def Over (s : Cursor) : Prop :=
  ¬madt.Inside s ∨ (typeAt m (advance m s).check = type ∧ done (advance m s).check)

-- The structures that are found from `s` on.
inductive Met : Cursor → List Nat → Prop
  | past {s : Cursor} : ¬madt.Inside s → Met s []
  | skip {s : Cursor} {l : List Nat} :
    madt.Inside s → typeAt m (advance m s).check ≠ type → Met (advance m s) l → Met s l
  | last {s : Cursor} :
    madt.Inside s → typeAt m (advance m s).check = type → done (advance m s).check →
    Met s [(advance m s).check]
  | more {s : Cursor} {l : List Nat} :
    madt.Inside s → typeAt m (advance m s).check = type → ¬done (advance m s).check →
    Met (madt.start (advance m s).check) l → Met s ((advance m s).check :: l)

-- The same list, computed in at most `n` steps.
def meets [DecidablePred done] : Nat → Cursor → Option (List Nat)
  | 0,     _ => none
  | n + 1, s =>
    if madt.Inside s then
      if typeAt m (advance m s).check = type then
        if done (advance m s).check then some [(advance m s).check]
        else (meets n (madt.start (advance m s).check)).map ((advance m s).check :: ·)
      else meets n (advance m s)
    else some []

-- Before it comes by a structure of length 0 the search is over.
def Escapes (s : Cursor) : Prop :=
  ∀ n, stride m ((walk m madt type)^[n] s).check = 0 → ∃ k ≤ n, Over m madt type done ((walk m madt type)^[k] s)

end Repeated

section Walk

variable {m : Memory} {madt : Madt} {type a : Nat} {done : Nat → Prop} {s : Cursor} {l : List Nat}

theorem stride_lt : stride m a < 256 := Bytes.load_lt

theorem walk_of_type (h : typeAt m (advance m s).check = type) :
    walk m madt type s = madt.start (advance m s).check := if_pos h

theorem walk_of_ne (h : typeAt m (advance m s).check ≠ type) : walk m madt type s = advance m s := if_neg h

theorem met_of_meets [DecidablePred done] {n : Nat} (h : meets m madt type done n s = some l) :
    Met m madt type done s l := by
  induction n generalizing s l
  case zero => cases h
  case succ n hind =>
    rw [meets] at h
    split_ifs at h with hi ht hd
    case pos =>
      cases h
      exact .last hi ht hd
    case neg =>
      obtain ⟨l', hl, rfl⟩ := Option.map_eq_some_iff.mp h
      exact .more hi ht hd (hind hl)
    case neg => exact .skip hi ht (hind h)
    case neg =>
      cases h
      exact .past hi

-- The search finds its structures exactly when the walk comes to an end.
theorem met_iff_stops : (∃ l, Met m madt type done s l) ↔ Stops (walk m madt type) (Over m madt type done) s := by
  constructor
  case mp =>
    rintro ⟨l, h⟩
    induction h
    case past s ho => exact stops_of_stop (.inl ho)
    case last s _ ht hd => exact stops_of_stop (.inr ⟨ht, hd⟩)
    case skip s l hi ht _ hs =>
      have hn : ¬Over m madt type done s := by
        rintro (ho | ⟨ht', _⟩)
        case inl => exact ho hi
        case inr => exact ht ht'
      rw [stops_step hn, walk_of_ne ht]
      exact hs
    case more s l hi ht hd _ hs =>
      have hn : ¬Over m madt type done s := by
        rintro (ho | ⟨_, hd'⟩)
        case inl => exact ho hi
        case inr => exact hd hd'
      rw [stops_step hn, walk_of_type ht]
      exact hs
  case mpr =>
    rintro ⟨n, hn⟩
    induction n generalizing s
    case zero =>
      by_cases hi : madt.Inside s
      case neg => exact ⟨[], .past hi⟩
      case pos =>
        obtain ⟨ht, hd⟩ := hn.resolve_left (not_not_intro hi)
        exact ⟨_, .last hi ht hd⟩
    case succ n hind =>
      obtain ⟨l, hl⟩ := hind hn
      by_cases hi : madt.Inside s
      case neg => exact ⟨[], .past hi⟩
      case pos =>
        by_cases ht : typeAt m (advance m s).check = type
        case neg =>
          rw [walk_of_ne ht] at hl
          exact ⟨l, .skip hi ht hl⟩
        case pos =>
          rw [walk_of_type ht] at hl
          by_cases hd : done (advance m s).check
          case pos => exact ⟨_, .last hi ht hd⟩
          case neg => exact ⟨_, .more hi ht hd hl⟩

end Walk

section Sane

variable {m : Memory} {madt : Madt} {type a n : Nat} {done : Nat → Prop} {s : Cursor} {l : List Nat}

theorem u64_lt (n : Nat) : u64 n < 2 ^ 64 := Nat.mod_lt _ (by decide)

theorem Madt.offset_add (ha : a < 2 ^ 64) (h : madt.offset a + n < 2 ^ 64) :
    madt.offset (u64 (a + n)) = madt.offset a + n := by
  have hb := madt.base.isLt
  simp only [Madt.offset, sub64, u64, sizeofMadt] at h ⊢
  omega

-- What holds along a walk from any address: `clen` does not fall behind by more than a length, and a search
-- begins anew at every structure of the type.
structure Sane (m : Memory) (madt : Madt) (type : Nat) (s : Cursor) : Prop where
  check_lt : s.check < 2 ^ 64
  clen_lt  : s.clen < 2 ^ 64
  behind   : madt.offset s.check + stride m s.check ≤ s.clen + 255
  anew     : typeAt m s.check = type → s.clen = madt.offset s.check

theorem Sane.start (ha : a < 2 ^ 64) : Sane m madt type (madt.start a) where
  check_lt := ha
  clen_lt  := u64_lt _
  behind   := Nat.add_le_add_left (Nat.le_of_lt_succ stride_lt) _
  anew     := fun _ => rfl

theorem Sane.offset_advance (h : Sane m madt type s) (hi : madt.Inside s) :
    madt.offset (advance m s).check = madt.offset s.check + stride m s.check := by
  have hb := h.behind
  have hl := madt.length.isLt
  rw [Madt.Inside] at hi
  exact madt.offset_add h.check_lt (by omega)

theorem Sane.clen_advance (hi : madt.Inside s) :
    (advance m s).clen = s.clen + stride m (advance m s).check := by
  have hl := madt.length.isLt
  have hs : stride m (advance m s).check < 256 := stride_lt
  rw [Madt.Inside] at hi
  exact u64_of_lt (n := s.clen + stride m (advance m s).check) (by omega)

theorem Sane.walk (h : Sane m madt type s) (hi : madt.Inside s) : Sane m madt type (walk m madt type s) := by
  by_cases ht : typeAt m (advance m s).check = type
  case pos =>
    rw [walk_of_type ht]
    exact .start (u64_lt _)
  case neg =>
    rw [walk_of_ne ht]
    have hb := h.behind
    refine ⟨u64_lt _, u64_lt _, ?_, fun he => absurd he ht⟩
    rw [h.offset_advance hi, clen_advance hi]
    omega

theorem Sane.check_walk : (Acpi.walk m madt type s).check = (advance m s).check := by
  rw [Acpi.walk]
  split_ifs <;> rfl

-- A structure of length 0 is its own successor.
theorem Sane.fixed_iff (h : Sane m madt type s) : Acpi.walk m madt type s = s ↔ stride m s.check = 0 := by
  constructor
  case mp =>
    intro he
    have hc := congrArg Cursor.check he
    rw [check_walk] at hc
    have hs : stride m s.check < 256 := stride_lt
    have hlt := h.check_lt
    simp only [advance, u64] at hc
    omega
  case mpr =>
    intro hz
    have hc : u64 (s.check + stride m s.check) = s.check := by
      rw [hz, Nat.add_zero, u64_of_lt h.check_lt]
    have ha : advance m s = s := by
      rw [advance, hc, hz, Nat.add_zero, u64_of_lt h.clen_lt]
    by_cases ht : typeAt m s.check = type
    case pos =>
      rw [walk_of_type (ha.symm ▸ ht), ha, Madt.start, ← h.anew ht]
    case neg => rw [walk_of_ne (ha.symm ▸ ht), ha]

-- The walk comes to an end if it escapes the structures of length 0, as the offset grows by every other length.
theorem Sane.stops_iff (h : Sane m madt type s) :
    Stops (Acpi.walk m madt type) (Over m madt type done) s ↔ Escapes m madt type done s := by
  have pres : ∀ s, Sane m madt type s → ¬Over m madt type done s → Sane m madt type (Acpi.walk m madt type s) :=
    fun s hs hn => hs.walk (not_not.mp fun hi => hn (.inl hi))
  let left (s : Cursor) : Nat := madt.length.toNat + 256 - madt.offset s.check
  have lower : ∀ s, Sane m madt type s → ¬Over m madt type done s → Acpi.walk m madt type s ≠ s →
      left (Acpi.walk m madt type s) < left s := by
    intro s hs hn hne
    have hi : madt.Inside s := not_not.mp fun hi => hn (.inl hi)
    have hz : stride m s.check ≠ 0 := fun hz => hne (hs.fixed_iff.mpr hz)
    have hb := hs.behind
    simp only [left, check_walk, hs.offset_advance hi]
    rw [Madt.Inside] at hi
    omega
  rw [Iterate.stops_iff_moves left h pres lower]
  refine forall_congr' fun n => ?_
  by_cases hk : ∃ k < n, Over m madt type done ((Acpi.walk m madt type)^[k] s)
  case pos =>
    obtain ⟨k, hlt, ho⟩ := hk
    exact iff_of_true (fun _ => ⟨k, Nat.le_of_lt hlt, ho⟩) fun _ => ⟨k, Nat.le_of_lt hlt, ho⟩
  case neg =>
    have hs := Iterate.iterate_invariant (I := Sane m madt type) h pres fun k hlt ho => hk ⟨k, hlt, ho⟩
    rw [hs.fixed_iff]

end Sane

end RoverOS.Acpi
