import Mathlib

-- Repeating a step until a condition holds, when only a fixpoint of the step keeps it from being reached.

open Function (iterate_add_apply iterate_fixed iterate_succ_apply')

namespace Iterate

variable {S : Type} {f : S → S} {stop I : S → Prop} {s : S} {n k : Nat}

-- The repetition comes to an end.
def Stops (f : S → S) (stop : S → Prop) (s : S) : Prop :=
  ∃ n, stop (f^[n] s)

-- No fixpoint is reached before the end.
def Moves (f : S → S) (stop : S → Prop) (s : S) : Prop :=
  ∀ n, f (f^[n] s) = f^[n] s → ∃ k ≤ n, stop (f^[k] s)

theorem stops_of_stop (h : stop s) : Stops f stop s := ⟨0, h⟩

theorem stops_step (h : ¬stop s) : Stops f stop s ↔ Stops f stop (f s) := by
  constructor
  case mp =>
    rintro ⟨n, hn⟩
    cases n
    case zero   => exact absurd hn h
    case succ n => exact ⟨n, hn⟩
  case mpr =>
    rintro ⟨n, hn⟩
    exact ⟨n + 1, hn⟩

-- Nothing changes behind a fixpoint.
theorem iterate_eq_of_fixed (h : f (f^[n] s) = f^[n] s) (hk : n ≤ k) : f^[k] s = f^[n] s := by
  obtain ⟨j, rfl⟩ := Nat.exists_eq_add_of_le' hk
  rw [iterate_add_apply]
  exact iterate_fixed h j

theorem iterate_invariant (hI : I s) (pres : ∀ s, I s → ¬stop s → I (f s)) (h : ∀ k < n, ¬stop (f^[k] s)) :
    I (f^[n] s) := by
  induction n
  case zero => exact hI
  case succ n hind =>
    rw [iterate_succ_apply']
    exact pres _ (hind fun k hk => h k (by omega)) (h n (by omega))

-- A measure that every step lowers, unless it changes nothing, brings the repetition to its end.
theorem stops_iff_moves (μ : S → Nat) (hI : I s) (pres : ∀ s, I s → ¬stop s → I (f s))
    (lower : ∀ s, I s → ¬stop s → f s ≠ s → μ (f s) < μ s) : Stops f stop s ↔ Moves f stop s := by
  constructor
  case mp =>
    rintro ⟨k, hk⟩ n hn
    rcases Nat.le_total k n with hle | hle
    case inl => exact ⟨k, hle, hk⟩
    case inr =>
      rw [iterate_eq_of_fixed hn hle] at hk
      exact ⟨n, Nat.le_refl n, hk⟩
  case mpr =>
    intro hm
    by_contra hs
    have hnever : ∀ n, ¬stop (f^[n] s) := fun n hn => hs ⟨n, hn⟩
    have hfall : ∀ n, μ (f^[n] s) + n ≤ μ s := by
      intro n
      induction n
      case zero => exact Nat.le_refl _
      case succ n hind =>
        have hne : f (f^[n] s) ≠ f^[n] s := by
          intro he
          obtain ⟨k, _, hk⟩ := hm n he
          exact hnever k hk
        have hlt := lower _ (iterate_invariant hI pres fun k _ => hnever k) (hnever n) hne
        rw [iterate_succ_apply']
        omega
    have := hfall (μ s + 1)
    omega

end Iterate
