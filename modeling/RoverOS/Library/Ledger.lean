import Mathlib

-- Tokens that an owner takes, holds and gives back, and when all of those that it has not given back are
-- still in its hands.

open List (Perm)

-- A token that has been taken is never given out a second time.
structure Ledger (α : Type) where
  held  : List α
  taken : α → Prop
  live  : α → Prop -- taken and not given back

namespace Ledger

variable {α : Type} {l l' l₁ l₂ l₃ : Ledger α} {p : α} {lost lost' : List α}

-- What the owner does with its tokens, and those that it loses hold of.
inductive Moves : List α → Ledger α → Ledger α → Prop
  | refl (l : Ledger α) : Moves [] l l
  | take {l : Ledger α} {p : α} {held : List α} : ¬l.taken p → Perm held (p :: l.held) →
    Moves [] l ⟨held, fun q => q = p ∨ l.taken q, fun q => q = p ∨ l.live q⟩
  | give {l : Ledger α} {p : α} {held : List α} : Perm l.held (p :: held) →
    Moves [] l ⟨held, l.taken, fun q => q ≠ p ∧ l.live q⟩
  | lose {l : Ledger α} {lost held : List α} : Perm l.held (lost ++ held) →
    Moves lost l ⟨held, l.taken, l.live⟩
  | trans {l₁ l₂ l₃ : Ledger α} {lost lost' : List α} :
    Moves lost l₁ l₂ → Moves lost' l₂ l₃ → Moves (lost ++ lost') l₁ l₃

structure Valid (l : Ledger α) : Prop where
  nodup : l.held.Nodup
  live  : ∀ p ∈ l.held, l.live p
  taken : ∀ p, l.live p → l.taken p

-- Whatever has not been given back is held.
def Exact (l : Ledger α) : Prop :=
  ∀ p, l.live p → p ∈ l.held

theorem Moves.perm (h : Perm l.held l'.held) (ht : l'.taken = l.taken) (hl : l'.live = l.live) :
    Moves [] l l' := by
  obtain ⟨held, taken, live⟩ := l'
  subst ht hl
  exact .lose h

theorem Valid.moves (v : Valid l) (m : Moves lost l l') : Valid l' := by
  induction m
  case refl => exact v
  case take hn hp =>
    refine ⟨hp.nodup_iff.mpr (List.nodup_cons.mpr ⟨fun hm => ?_, v.nodup⟩), fun q hq => ?_, fun q hq => ?_⟩
    · exact hn (v.taken _ (v.live _ hm))
    · exact (List.mem_cons.mp (hp.mem_iff.mp hq)).imp_right (v.live q)
    · exact hq.imp_right (v.taken q)
  case give hp =>
    obtain ⟨hn, hd⟩ := List.nodup_cons.mp (hp.nodup_iff.mp v.nodup)
    refine ⟨hd, fun q hq => ⟨fun he => hn (he ▸ hq), ?_⟩, fun q hq => v.taken q hq.right⟩
    exact v.live q (hp.mem_iff.mpr (.tail _ hq))
  case lose hp =>
    have hd := (hp.nodup_iff.mp v.nodup)
    exact ⟨hd.of_append_right, fun q hq => v.live q (hp.mem_iff.mpr (List.mem_append_right _ hq)), v.taken⟩
  case trans h₁ h₂ => exact h₂ (h₁ v)

-- A token that is lost stays lost, and a token that is not lost can always be given back.
theorem exact_moves (v : Valid l) (m : Moves lost l l') : Exact l' ↔ Exact l ∧ lost = [] := by
  induction m
  case refl => simp
  case take l p held hn hp =>
    rw [and_iff_left rfl]
    constructor
    case mp =>
      intro he q hq
      refine ((List.mem_cons.mp (hp.mem_iff.mp (he q (.inr hq)))).resolve_left fun hqp => ?_)
      exact hn (hqp ▸ v.taken q hq)
    case mpr =>
      intro he q hq
      exact hp.mem_iff.mpr (List.mem_cons.mpr (hq.imp_right (he q)))
  case give l p held hp =>
    rw [and_iff_left rfl]
    constructor
    case mp =>
      intro he q hq
      refine hp.mem_iff.mpr (List.mem_cons.mpr ?_)
      by_cases hqp : q = p
      case pos => exact .inl hqp
      case neg => exact .inr (he q ⟨hqp, hq⟩)
    case mpr =>
      intro he q hq
      exact (List.mem_cons.mp (hp.mem_iff.mp (he q hq.right))).resolve_left hq.left
  case lose l lost held hp =>
    constructor
    case mp =>
      intro he
      refine ⟨fun q hq => hp.mem_iff.mpr (List.mem_append_right _ (he q hq)), ?_⟩
      refine List.eq_nil_iff_forall_not_mem.mpr fun q hq => ?_
      have hd := (List.nodup_append.mp (hp.nodup_iff.mp v.nodup)).right.right
      have hl := v.live q (hp.mem_iff.mpr (List.mem_append_left _ hq))
      exact hd q hq q (he q hl) rfl
    case mpr =>
      rintro ⟨he, rfl⟩ q hq
      exact hp.mem_iff.mp (he q hq)
  case trans m₁ _ h₁ h₂ =>
    rw [h₂ (v.moves m₁), h₁ v, List.append_eq_nil_iff, and_assoc]

-- The owner gives back no token but one that it has taken, and takes none twice.
theorem Moves.frame (m : Moves lost l l') (v : Valid l) :
    (∀ p, l.taken p → l'.taken p) ∧ ∀ p, l.taken p → l'.live p → l.live p := by
  induction m
  case refl => exact ⟨fun _ => id, fun _ _ => id⟩
  case take l p held hn hp =>
    exact ⟨fun q => .inr, fun q hq hl => hl.resolve_left fun he => hn (he ▸ hq)⟩
  case give => exact ⟨fun _ => id, fun _ _ h => h.right⟩
  case lose => exact ⟨fun _ => id, fun _ _ => id⟩
  case trans m₁ _ h₁ h₂ =>
    obtain ⟨t₁, f₁⟩ := h₁ v
    obtain ⟨t₂, f₂⟩ := h₂ (v.moves m₁)
    exact ⟨fun q hq => t₂ q (t₁ q hq), fun q hq hl => f₁ q hq (f₂ q (t₁ q hq) hl)⟩

end Ledger
