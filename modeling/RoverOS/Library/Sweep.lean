import Mathlib

-- A loop over indices that writes a cell for each of them, or leaves the index out. Different indices
-- may stand for the same cell, but then they write the same.

namespace Sweep

variable {S K E : Type}

-- A cell has what it had before. One that was not there may have become one that counts as empty.
def Kept (empty : E → Prop) (old new : Option E) : Prop :=
  new = old ∨ old = none ∧ ∃ e, new = some e ∧ empty e

inductive Loop (step : Nat → S → S → Prop) : Nat → Nat → S → S → Prop
  | done {b : Nat} {s : S} : Loop step b 0 s s
  | next {b n : Nat} {s s₁ s' : S} : step b s s₁ → Loop step (b + 1) n s₁ s' → Loop step b (n + 1) s s'

-- `wanted i` says that the index `i` is not left out, and `I` is an invariant of the loop over the
-- indices in `range`.
structure Rule (step : Nat → S → S → Prop) (I : S → Prop) (empty : E → Prop) (read : S → K → Option E)
    (same : K → K → Prop) (key : Nat → K) (val : Nat → E) (range wanted : Nat → Prop) : Prop where
  inv   : ∀ {i s s'}, range i → I s → step i s s' → I s'
  kept  : ∀ {i s s' k}, range i → I s → step i s s' → ¬same k (key i) → Kept empty (read s k) (read s' k)
  write : ∀ {i s s'}, range i → I s → step i s s' → wanted i → read s' (key i) = some (val i)
  skip  : ∀ {i s s'}, range i → I s → step i s s' → ¬wanted i → s' = s
  agree : ∀ {i j}, range i → range j → same (key i) (key j) → key i = key j ∧ val i = val j

variable {empty : E → Prop} {old mid new : Option E} {e : E} {step : Nat → S → S → Prop} {I : S → Prop}
variable {read : S → K → Option E} {same : K → K → Prop} {key : Nat → K} {val : Nat → E}
variable {range wanted : Nat → Prop} {b i n : Nat} {s s' : S} {k : K}

namespace Kept

theorem refl (old : Option E) : Kept empty old old :=
  .inl rfl

theorem trans (h₁ : Kept empty old mid) (h₂ : Kept empty mid new) : Kept empty old new := by
  rcases h₁ with rfl | ⟨ho, e, rfl, he⟩
  case inl => exact h₂
  case inr =>
    rcases h₂ with rfl | ⟨hm, _⟩
    case inl => exact .inr ⟨ho, e, rfl, he⟩
    case inr => cases hm

theorem of_some (h : Kept empty (some e) new) : new = some e := by
  rcases h with rfl | ⟨h, _⟩
  case inl => rfl
  case inr => cases h

-- A cell that is not empty had been there.
theorem some_of (h : Kept empty old (some e)) (he : ¬empty e) : old = some e := by
  rcases h with rfl | ⟨_, e', h, he'⟩
  case inl => rfl
  case inr =>
    cases h
    exact absurd he' he

end Kept

namespace Loop

variable (r : Rule step I empty read same key val range wanted)

include r

theorem inv (h : Loop step b n s s') (hr : ∀ i, b ≤ i → i < b + n → range i) (hi : I s) : I s' := by
  induction h
  case done => exact hi
  case next b n s s₁ s' h₁ _ ih =>
    exact ih (fun i hl hlt => hr i (by omega) (by omega)) (r.inv (hr b le_rfl (by omega)) hi h₁)

-- The cells that no index stands for.
theorem kept (h : Loop step b n s s') (hr : ∀ i, b ≤ i → i < b + n → range i) (hi : I s)
    (hk : ∀ i, b ≤ i → i < b + n → wanted i → ¬same k (key i)) : Kept empty (read s k) (read s' k) := by
  induction h
  case done => exact .refl _
  case next b n s s₁ s' h₁ _ ih =>
    have hb := hr b le_rfl (by omega)
    have hrest := ih (fun i hl hlt => hr i (by omega) (by omega)) (r.inv hb hi h₁)
      fun i hl hlt => hk i (by omega) (by omega)
    by_cases hw : wanted b
    case pos => exact (r.kept hb hi h₁ (hk b le_rfl (by omega) hw)).trans hrest
    case neg => rwa [r.skip hb hi h₁ hw] at hrest

-- The last write to a cell is as good as the one that the index asks for.
theorem written (h : Loop step b n s s') (hr : ∀ i, b ≤ i → i < b + n → range i) (hi : I s) (hl : b ≤ i)
    (hlt : i < b + n) (hw : wanted i) : read s' (key i) = some (val i) := by
  induction h generalizing i
  case done => omega
  case next b n s s₁ s' h₁ hrest ih =>
    have hb := hr b le_rfl (by omega)
    have hr' : ∀ i, b + 1 ≤ i → i < b + 1 + n → range i := fun i hl hlt => hr i (by omega) (by omega)
    have ih {j : Nat} (hl : b + 1 ≤ j) (hlt : j < b + 1 + n) (hw : wanted j) := ih hr' (r.inv hb hi h₁) hl hlt hw
    rcases Nat.eq_or_lt_of_le hl with rfl | hl
    case inr => exact ih hl (by omega) hw
    case inl =>
      by_cases hs : ∃ j, b + 1 ≤ j ∧ j < b + 1 + n ∧ wanted j ∧ same (key b) (key j)
      case pos =>
        obtain ⟨j, hlj, hltj, hwj, hs⟩ := hs
        obtain ⟨hkey, hval⟩ := r.agree hb (hr' j hlj hltj) hs
        rw [hkey, hval]
        exact ih hlj hltj hwj
      case neg =>
        have hk := hrest.kept r hr' (r.inv hb hi h₁) (k := key b) fun j hlj hltj hwj hsj =>
          hs ⟨j, hlj, hltj, hwj, hsj⟩
        rw [r.write hb hi h₁ hw] at hk
        exact hk.of_some

end Loop
end Sweep
