import Mathlib

-- Replacing a part in the middle of a list, when its elements are related to each other.

open List (IsChain Pairwise isChain_append pairwise_append)

namespace Splice

variable {α : Type} {R : α → α → Prop} {pre post : List α} (old new : List α)

theorem pairwise (h : (pre ++ (old ++ post)).Pairwise R) (hn : new.Pairwise R)
    (before : ∀ x ∈ pre, (∀ o ∈ old, R x o) → ∀ n ∈ new, R x n)
    (behind : ∀ y ∈ post, (∀ o ∈ old, R o y) → ∀ n ∈ new, R n y) :
    (pre ++ (new ++ post)).Pairwise R := by
  have ⟨h₁, h₂, h₁₂⟩ := pairwise_append.mp h
  have ⟨_, h₃, h₂₃⟩ := pairwise_append.mp h₂
  refine pairwise_append.mpr ⟨h₁, pairwise_append.mpr ⟨hn, h₃, ?_⟩, ?_⟩
  · exact fun n hn y hy => behind y hy (fun o ho => h₂₃ o ho y hy) n hn
  · intro x hx y hy
    cases List.mem_append.mp hy
    case inl hy => exact before x hx (fun o ho => h₁₂ x hx o (List.mem_append_left _ ho)) y hy
    case inr hy => exact h₁₂ x hx y (List.mem_append_right _ hy)

theorem isChain (h : (pre ++ (old ++ post)).IsChain R) (hn : new.IsChain R) (ho : old ≠ [])
    (hne : new ≠ []) (before : ∀ x, (∀ o ∈ old.head?, R x o) → ∀ n ∈ new.head?, R x n)
    (behind : ∀ y, (∀ o ∈ old.getLast?, R o y) → ∀ n ∈ new.getLast?, R n y) :
    (pre ++ (new ++ post)).IsChain R := by
  have ⟨h₁, h₂, h₁₂⟩ := isChain_append.mp h
  have ⟨_, h₃, h₂₃⟩ := isChain_append.mp h₂
  rw [List.head?_append_of_ne_nil _ ho] at h₁₂
  refine isChain_append.mpr ⟨h₁, isChain_append.mpr ⟨hn, h₃, ?_⟩, ?_⟩
  · exact fun n hn y hy => behind y (fun o ho => h₂₃ o ho y hy) n hn
  · rw [List.head?_append_of_ne_nil _ hne]
    exact fun x hx n hn => before x (fun o ho => h₁₂ x hx o ho) n hn

end Splice
