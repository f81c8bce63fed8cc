import Mathlib

-- Positional numerals over a list of digits, in which a digit's place is its value.

namespace Numeral

variable {D : Type} [DecidableEq D] {digits l : List D} {d : D} {v : Nat}

-- The base is the number of digits, and the first digit of `l` counts the most.
def value (digits l : List D) : Nat :=
  l.foldl (fun v d => digits.length * v + digits.idxOf d) 0

@[simp]
theorem value_nil : value digits [] = 0 := rfl

@[simp]
theorem value_concat : value digits (l ++ [d]) = digits.length * value digits l + digits.idxOf d := by
  simp [value]

-- `l` is what is written for `v`.
structure Denotes (digits l : List D) (v : Nat) : Prop where
  nonempty  : l ≠ []
  known     : ∀ d ∈ l, d ∈ digits
  noLeading : ∀ d rest, l = d :: rest → digits.idxOf d = 0 → rest = []
  eval      : value digits l = v

theorem value_singleton : value digits [d] = digits.idxOf d := by
  simp [value]

theorem denotes_singleton (h : d ∈ digits) : Denotes digits [d] (digits.idxOf d) where
  nonempty  := List.cons_ne_nil d []
  known     := by simpa using h
  noLeading := by
    intro d' rest he _
    exact (List.cons.inj he).right.symm
  eval      := value_singleton

-- Only zero is written with a zero in front.
theorem Denotes.concat (h : Denotes digits l v) (hv : v ≠ 0) (hd : d ∈ digits) :
    Denotes digits (l ++ [d]) (digits.length * v + digits.idxOf d) where
  nonempty  := by simp
  known     := by
    intro d' hm
    rcases List.mem_append.mp hm with hm | hm
    case inl => exact h.known d' hm
    case inr =>
      rw [List.mem_singleton.mp hm]
      exact hd
  noLeading := by
    intro d' rest he hz
    cases hl : l
    case nil => exact absurd hl h.nonempty
    case cons d₀ l' =>
      have hd₀ : d₀ = d' := by
        rw [hl] at he
        exact (List.cons.inj he).left
      have hl' : l' = [] := h.noLeading d₀ l' hl (hd₀ ▸ hz)
      have hz₀ : v = 0 := by
        rw [← h.eval, hl, hl', value_singleton, hd₀, hz]
      exact absurd hz₀ hv
  eval      := by rw [value_concat, h.eval]

-- One digit says less than the base.
theorem Denotes.of_singleton (h : Denotes digits [d] v) : d ∈ digits ∧ v < digits.length := by
  have hd := h.known d (by simp)
  refine ⟨hd, ?_⟩
  rw [← h.eval, value_singleton]
  exact List.idxOf_lt_length_of_mem hd
section Unique

variable {l' : List D}

-- A digit that counts makes the number count.
theorem value_ne_zero (hb : digits ≠ []) (hd : d ∈ l) (hz : digits.idxOf d ≠ 0) : value digits l ≠ 0 := by
  induction l using List.reverseRecOn
  case nil => cases hd
  case append_singleton l d' hi =>
    rw [value_concat]
    have hlen : digits.length ≠ 0 := fun he => hb (List.eq_nil_of_length_eq_zero he)
    cases List.mem_append.mp hd
    case inl hm =>
      have hne := Nat.mul_ne_zero hlen (hi hm)
      omega
    case inr hm =>
      have hne : digits.idxOf d' ≠ 0 := List.mem_singleton.mp hm ▸ hz
      omega

-- What stands in front of the last digit is written for the number without it.
theorem Denotes.init (h : Denotes digits (l ++ [d]) v) (hl : l ≠ []) :
    Denotes digits l (v / digits.length) ∧ v / digits.length ≠ 0 := by
  have hd : d ∈ digits := h.known d (by simp)
  have hlt : digits.idxOf d < digits.length := List.idxOf_lt_length_of_mem hd
  have hv : v / digits.length = value digits l := by
    rw [← h.eval, value_concat, Nat.mul_add_div (by omega), Nat.div_eq_of_lt hlt, Nat.add_zero]
  rw [hv]
  have hfirst (d₁ : D) (rest : List D) (he : l = d₁ :: rest) : digits.idxOf d₁ ≠ 0 := by
    intro hz
    have hn := h.noLeading d₁ (rest ++ [d]) (by rw [he]; rfl) hz
    exact List.append_ne_nil_of_right_ne_nil rest (List.cons_ne_nil d []) hn
  constructor
  case left =>
    refine ⟨hl, fun d' hm => h.known d' (List.mem_append_left _ hm), fun d₁ rest he hz => ?_, rfl⟩
    exact absurd hz (hfirst d₁ rest he)
  case right =>
    have ⟨d₁, rest, he⟩ := List.exists_cons_of_ne_nil hl
    exact value_ne_zero (List.ne_nil_of_mem hd) (he ▸ List.mem_cons_self) (hfirst d₁ rest he)

-- A number is written in one way only.
theorem Denotes.unique (h : Denotes digits l v) (h' : Denotes digits l' v) : l = l' := by
  induction l using List.reverseRecOn generalizing l' v
  case nil => exact absurd rfl h.nonempty
  case append_singleton l d hi =>
    have ⟨l₁, d', he⟩ := (List.eq_nil_or_concat' l').resolve_left h'.nonempty
    subst he
    have hd : d ∈ digits := h.known d (by simp)
    have hd' : d' ∈ digits := h'.known d' (by simp)
    have hlt := List.idxOf_lt_length_of_mem hd
    have hlt' := List.idxOf_lt_length_of_mem hd'
    have hmod : digits.idxOf d = digits.idxOf d' := by
      have hm := congrArg (· % digits.length) (h.eval.trans h'.eval.symm)
      simpa only [value_concat, Nat.mul_add_mod, Nat.mod_eq_of_lt hlt, Nat.mod_eq_of_lt hlt'] using hm
    have hdd : d = d' := (List.idxOf_inj hd).mp hmod
    by_cases hl : l = []
    case pos =>
      subst hl
      have hz : v / digits.length = 0 := Nat.div_eq_of_lt h.of_singleton.right
      have hl₁ : l₁ = [] := Classical.not_not.mp fun hn => (h'.init hn).right hz
      rw [hl₁, hdd]
    case neg =>
      have hne := (h.init hl).right
      have hl₁ : l₁ ≠ [] := by
        intro he
        subst he
        exact hne (Nat.div_eq_of_lt h'.of_singleton.right)
      rw [hi (h.init hl).left (h'.init hl₁).left, hdd]

end Unique

end Numeral
