import Mathlib

-- Runs of a labelled transition system, and the rule for what holds along them.

namespace Run

variable {S L : Type} {step : S → L → S → Prop} {allowed : S → L → Prop} {I : S → Prop} {s s' : S}

-- `s'` is reached from `s` by steps whose labels are allowed in the state before.
inductive Steps (step : S → L → S → Prop) (allowed : S → L → Prop) : S → S → Prop
  | refl (s : S) : Steps step allowed s s
  | step {s₁ s₂ s₃ : S} {l : L} :
    Steps step allowed s₁ s₂ → allowed s₂ l → step s₂ l s₃ → Steps step allowed s₁ s₃

theorem Steps.trans {s₁ s₂ s₃ : S} (h₁ : Steps step allowed s₁ s₂)
    (h₂ : Steps step allowed s₂ s₃) : Steps step allowed s₁ s₃ := by
  induction h₂
  case refl            => exact h₁
  case step ha hs hi   => exact .step hi ha hs

-- What every allowed step preserves holds at the end of a run.
theorem Steps.invariant (h : Steps step allowed s s') (init : I s)
    (pres : ∀ {s l s'}, I s → allowed s l → step s l s' → I s') : I s' := by
  induction h
  case refl          => exact init
  case step ha hs hi => exact pres hi ha hs

end Run
