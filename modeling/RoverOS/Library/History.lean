import Mathlib

-- Runs that remember their steps, and the rule for what holds after them exactly when none of their steps
-- went wrong.

variable {S L : Type}

-- A run and, for each of its steps, the state before it and its label.
inductive History (step : S → L → S → Prop) : S → List (S × L) → S → Prop
  | nil (s : S) : History step s [] s
  | snoc {s₁ s₂ s₃ : S} {l : L} {ls : List (S × L)} :
    History step s₁ ls s₂ → step s₂ l s₃ → History step s₁ (ls ++ [(s₂, l)]) s₃

namespace History

variable {step : S → L → S → Prop} {I : S → Prop} {s s' : S} {ls : List (S × L)}

theorem invariant (t : History step s ls s') (init : I s)
    (pres : ∀ {s l s'}, I s → step s l s' → I s') : I s' := by
  induction t
  case nil          => exact init
  case snoc _ hs hi => exact pres hi hs

-- A property that a wrong step always ends, that no other step touches and that never comes back.
theorem iff_forall (t : History step s ls s') (P : S → Prop) (wrong : S → L → Prop) (init : I s)
    (pres : ∀ {s l s'}, I s → step s l s' → I s')
    (keep : ∀ {s l s'}, I s → step s l s' → (P s' ↔ P s ∧ ¬wrong s l)) :
    P s' ↔ P s ∧ ∀ x ∈ ls, ¬wrong x.1 x.2 := by
  induction t
  case nil => simp
  case snoc t hs hi =>
    rw [keep (t.invariant init pres) hs, hi]
    simp only [List.mem_append, List.mem_singleton, or_imp, forall_and, forall_eq, and_assoc]

theorem invariant_unless (t : History step s ls s') (wrong : S → L → Prop) (init : I s)
    (pres : ∀ {s l s'}, I s → step s l s' → ¬wrong s l → I s') (h : ∀ x ∈ ls, ¬wrong x.1 x.2) : I s' := by
  induction t
  case nil          => exact init
  case snoc _ hs hi =>
    have ⟨hls, hl⟩ := List.forall_mem_append.mp h
    exact pres (hi hls) hs (hl _ (.head _))

-- A property that holds until a wrong step is made, and not right behind it.
theorem always_iff (t : History step s ls s') (P : S → Prop) (wrong : S → L → Prop) (init : I s)
    (good : ∀ {s}, I s → P s) (pres : ∀ {s l s'}, I s → step s l s' → ¬wrong s l → I s')
    (ends : ∀ {s l s'}, I s → step s l s' → wrong s l → ¬P s') :
    (P s' ∧ ∀ x ∈ ls, P x.1) ↔ ∀ x ∈ ls, ¬wrong x.1 x.2 := by
  induction t
  case nil => simp [good init]
  case snoc s₂ s₃ l ls t hs hi =>
    simp only [List.forall_mem_append, List.forall_mem_singleton]
    constructor
    case mp =>
      intro ⟨h₃, hls, h₂⟩
      have hw := hi.mp ⟨h₂, hls⟩
      exact ⟨hw, fun hl => ends (t.invariant_unless wrong init pres hw) hs hl h₃⟩
    case mpr =>
      intro ⟨hw, hl⟩
      have ⟨h₂, hls⟩ := hi.mpr hw
      exact ⟨good (pres (t.invariant_unless wrong init pres hw) hs hl), hls, h₂⟩

end History
