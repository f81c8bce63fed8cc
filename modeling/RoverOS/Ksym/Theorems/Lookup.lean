import RoverOS.Ksym.Basic

-- When the symbol that is found is the one that the address lies in.

namespace RoverOS.Ksym

namespace ELF64Sym

-- A function or an object of the kernel.
def Named (sym : ELF64Sym) : Prop :=
  sym.type = STT_FUNC ∨ sym.type = STT_OBJECT

def range (sym : ELF64Sym) : Set Nat :=
  Set.Ico sym.value.toNat (sym.value.toNat + sym.size.toNat)

-- `ptr` lies in the range of a function or an object.
def Covers (sym : ELF64Sym) (ptr : Word) : Prop :=
  sym.Named ∧ ptr.toNat ∈ sym.range

-- The address behind the last one is not in the address space any more.
def EndsInside (sym : ELF64Sym) : Prop :=
  sym.value.toNat + sym.size.toNat < 2 ^ 64

instance (sym : ELF64Sym) : Decidable sym.EndsInside :=
  inferInstanceAs (Decidable (_ < _))

-- The symbol is taken for the one of `ptr`, which is not in it: a function or an object that ends
-- right before `ptr`, or a symbol that is neither and reaches up to `ptr`.
def Blocks (sym : ELF64Sym) (ptr : Word) : Prop :=
  (sym.Named ∧ ptr.toNat = sym.value.toNat + sym.size.toNat) ∨
  (¬sym.Named ∧ sym.type ≠ STT_NOTYPE ∧ sym.type ≠ STT_SECTION ∧ sym.EndsInside ∧
    sym.value.toNat ≤ ptr.toNat ∧ ptr.toNat ≤ sym.value.toNat + sym.size.toNat)

variable {sym : ELF64Sym} {ptr : Word}

theorem Named.ne_noType (h : sym.Named) : sym.type ≠ STT_NOTYPE := by
  rcases h with h | h <;> rw [h] <;> decide

theorem Named.ne_section (h : sym.Named) : sym.type ≠ STT_SECTION := by
  rcases h with h | h <;> rw [h] <;> decide

-- An end that wraps around is below the symbol, and no address is between the two.
theorem hit_iff : sym.Hit ptr ↔ sym.type ≠ STT_NOTYPE ∧ sym.type ≠ STT_SECTION ∧ sym.EndsInside ∧
    sym.value.toNat ≤ ptr.toNat ∧ ptr.toNat ≤ sym.value.toNat + sym.size.toNat := by
  have hv := sym.value.isLt
  have hs := sym.size.isLt
  have hp := ptr.isLt
  simp only [Hit, EndsInside, ge_iff_le, BitVec.le_def, BitVec.toNat_add]
  refine and_congr_right fun _ => and_congr_right fun _ => ?_
  omega

theorem Covers.hit (h : sym.Covers ptr) (he : sym.EndsInside) : sym.Hit ptr := by
  obtain ⟨hn, hl, hu⟩ := h
  exact hit_iff.mpr ⟨hn.ne_noType, hn.ne_section, he, hl, Nat.le_of_lt hu⟩

theorem Blocks.hit (h : sym.Blocks ptr) : sym.Hit ptr := by
  have hp := ptr.isLt
  rcases h with ⟨hn, he⟩ | ⟨_, h⟩
  case inl =>
    refine hit_iff.mpr ⟨hn.ne_noType, hn.ne_section, ?_, by omega, by omega⟩
    rw [EndsInside, ← he]
    exact hp
  case inr => exact hit_iff.mpr h

theorem Hit.covers_or_blocks (h : sym.Hit ptr) : sym.Covers ptr ∨ sym.Blocks ptr := by
  have h' := hit_iff.mp h
  obtain ⟨_, _, _, hl, hu⟩ := h'
  by_cases hn : sym.Named
  case neg => exact .inr <| .inr ⟨hn, hit_iff.mp h⟩
  case pos =>
    rcases Nat.lt_or_eq_of_le hu with hlt | he
    case inl => exact .inl ⟨hn, hl, hlt⟩
    case inr => exact .inr <| .inl ⟨hn, he⟩

end ELF64Sym

open ELF64Sym

-- No two functions or objects share an address.
def Apart (table : List ELF64Sym) : Prop :=
  table.Pairwise fun s t => s.Named → t.Named → Disjoint s.range t.range

-- What a lookup should find.
def Finds (table : List ELF64Sym) (ptr : Word) : Prop :=
  (∀ i (h : i < table.length), table[i].Covers ptr → getSymbol table ptr = some i) ∧
  ((∀ sym ∈ table, ¬sym.Covers ptr) → getSymbol table ptr = none)

-- The symbol that `ptr` lies in ends inside of the address space and stands before every symbol
-- that blocks it. Where there is none, nothing blocks `ptr`.
def Unblocked (table : List ELF64Sym) (ptr : Word) : Prop :=
  (∀ i (h : i < table.length), table[i].Covers ptr →
    ptr ≠ 0 ∧ table[i].EndsInside ∧ ∀ sym ∈ table.take i, ¬sym.Blocks ptr) ∧
  ((∀ sym ∈ table, ¬sym.Covers ptr) → ptr = 0 ∨ ∀ sym ∈ table, ¬sym.Blocks ptr)

section Lookup

variable {table : List ELF64Sym} {ptr : Word} {i j : Nat}

-- An address lies in one function or object at most.
theorem Apart.unique (ha : Apart table) (hi : i < table.length) (hj : j < i)
    (hc : table[i].Covers ptr) : ¬table[j].Covers ptr := by
  intro hc'
  have hd := List.pairwise_iff_getElem.mp ha j i (by omega) hi hj hc'.left hc.left
  exact Set.disjoint_left.mp hd hc'.right hc.right

theorem covered_iff (ha : Apart table) (hi : i < table.length) (hc : table[i].Covers ptr) :
    getSymbol table ptr = some i ↔
      ptr ≠ 0 ∧ table[i].EndsInside ∧ ∀ sym ∈ table.take i, ¬sym.Blocks ptr := by
  rw [getSymbol_some_iff]
  constructor
  case mp =>
    rintro ⟨hz, _, hh, hf⟩
    refine ⟨hz, (hit_iff.mp hh).2.2.1, fun sym hs hb => ?_⟩
    obtain ⟨j, hj, rfl⟩ := List.mem_take_iff_getElem.mp hs
    exact hf j (by omega) hb.hit
  case mpr =>
    rintro ⟨hz, he, hb⟩
    refine ⟨hz, hi, hc.hit he, ?_⟩
    intro j hj hh
    cases hh.covers_or_blocks
    case inl h => exact ha.unique hi hj hc h
    case inr h => exact hb _ (List.mem_take_iff_getElem.mpr ⟨j, by omega, rfl⟩) h

theorem uncovered_iff (hc : ∀ sym ∈ table, ¬sym.Covers ptr) :
    getSymbol table ptr = none ↔ ptr = 0 ∨ ∀ sym ∈ table, ¬sym.Blocks ptr := by
  rw [getSymbol_none_iff]
  refine or_congr_right (forall₂_congr fun sym hs => not_congr ?_)
  constructor
  case mp =>
    intro hh
    exact hh.covers_or_blocks.resolve_left (hc sym hs)
  case mpr => exact Blocks.hit

-- The end of a range counts as inside, and a symbol of every other type but two is searched too.
theorem getSymbol_finds_iff (ha : Apart table) : Finds table ptr ↔ Unblocked table ptr := by
  constructor
  case mp =>
    rintro ⟨hs, hn⟩
    exact ⟨fun i hi hc => (covered_iff ha hi hc).mp (hs i hi hc), fun hc => (uncovered_iff hc).mp (hn hc)⟩
  case mpr =>
    rintro ⟨hs, hn⟩
    exact ⟨fun i hi hc => (covered_iff ha hi hc).mpr (hs i hi hc), fun hc => (uncovered_iff hc).mpr (hn hc)⟩

end Lookup

section Adjacent

-- Two functions of 16 bytes, one right behind the other.
def lower : ELF64Sym := ⟨0x12, 0x1000, 0x10⟩
def upper : ELF64Sym := ⟨0x12, 0x1010, 0x10⟩

theorem lower_upper_apart : Apart [lower, upper] := by
  simp only [Apart, List.pairwise_cons, List.mem_singleton, forall_eq]
  refine ⟨fun _ _ => ?_, by simp⟩
  rw [Set.disjoint_left]
  intro n hl hu
  have hlt : n < 0x1010 := hl.right
  have hle : 0x1010 ≤ n := hu.left
  omega

theorem upper_covers : upper.Covers 0x1010 := ⟨.inl rfl, by decide, by decide⟩

-- The first instruction of the second function is found in the first one.
theorem getSymbol_boundary : Apart [lower, upper] ∧ ¬Finds [lower, upper] 0x1010 := by
  refine ⟨lower_upper_apart, ?_⟩
  intro h
  have hu : getSymbol [lower, upper] 0x1010 = some 1 := h.left 1 (by decide) upper_covers
  have hl : getSymbol [lower, upper] 0x1010 = some 0 := by decide
  rw [hl] at hu
  cases hu

theorem getSymbol_finds_upper : Finds [lower, upper] 0x1018 := by
  refine (getSymbol_finds_iff lower_upper_apart).mpr ⟨?_, ?_⟩
  case refine_1 =>
    intro i hi hc
    have hi' : i = 0 ∨ i = 1 := by
      have h : i < 2 := hi
      omega
    rcases hi' with rfl | rfl
    case inl =>
      have hlt : 0x1018 < 0x1010 := hc.right.right
      omega
    case inr =>
      have he : upper.EndsInside := by decide
      refine ⟨by decide, he, ?_⟩
      intro sym hs hb
      have hsym : sym = lower := List.mem_singleton.mp hs
      have hn : ¬lower.Hit 0x1018 := by decide
      exact hn (hsym ▸ hb.hit)
  case refine_2 =>
    intro hc
    exact absurd ⟨.inl rfl, by decide, by decide⟩ (hc upper (by simp))

end Adjacent

end RoverOS.Ksym
