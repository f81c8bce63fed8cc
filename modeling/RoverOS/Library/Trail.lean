import Mathlib

-- Following pointers until a halt: the nodes on the way, and what is known when the way comes to an end.

variable {α : Type}

-- The way from a node leads through a list of nodes to the one where it halts.
inductive Trail (next : α → α) (halt : α → Prop) : α → List α → α → Prop
  | halt {p : α} : halt p → Trail next halt p [] p
  | step {p e : α} {l : List α} : ¬halt p → Trail next halt (next p) l e → Trail next halt p (p :: l) e

namespace Trail

variable {next : α → α} {halt : α → Prop} {first p q e e' : α} {l l' l₁ l₂ : List α}

-- The nodes that the way from `first` comes to, whether or not it ends.
inductive Reached (next : α → α) (halt : α → Prop) (first : α) : α → Prop
  | first : Reached next halt first first
  | next {p : α} : Reached next halt first p → ¬halt p → Reached next halt first (next p)

theorem halted (h : Trail next halt p l e) : halt e := by
  induction h
  case halt hp    => exact hp
  case step _ _ hi => exact hi

theorem eq_nil (h : Trail next halt p l e) (hp : halt p) : l = [] ∧ e = p := by
  cases h
  case halt      => exact ⟨rfl, rfl⟩
  case step hn _ => exact absurd hp hn

theorem exists_cons (h : Trail next halt p l e) (hp : ¬halt p) : ∃ l', l = p :: l' ∧ Trail next halt (next p) l' e := by
  cases h
  case halt h     => exact absurd h hp
  case step l _ h => exact ⟨l, rfl, h⟩

theorem unique (h : Trail next halt p l e) (h' : Trail next halt p l' e') : l = l' ∧ e = e' := by
  induction h generalizing l'
  case halt hp =>
    obtain ⟨rfl, rfl⟩ := h'.eq_nil hp
    exact ⟨rfl, rfl⟩
  case step hn _ hi =>
    obtain ⟨l₁, rfl, ht⟩ := h'.exists_cons hn
    obtain ⟨rfl, rfl⟩ := hi ht
    exact ⟨rfl, rfl⟩

theorem after (h : Trail next halt p (l₁ ++ q :: l₂) e) : ¬halt q ∧ Trail next halt (next q) l₂ e := by
  induction l₁ generalizing p
  case nil =>
    cases h
    case step hn h => exact ⟨hn, h⟩
  case cons r l₁ hi =>
    cases h
    case step _ h => exact hi h

-- A node does not lead to where another one behind it leads to: the way would never end.
theorem next_ne_next (h : Trail next halt p (l₁ ++ q :: l₂) e) {r : α} (hr : r ∈ l₂) : next q ≠ next r := by
  intro he
  obtain ⟨l₃, l₄, rfl⟩ := List.append_of_mem hr
  have hq := h.after.right
  have hr := hq.after.right
  have hl := congrArg List.length (hq.unique (he ▸ hr)).left
  simp only [List.length_append, List.length_cons] at hl
  omega

theorem not_halt_of_mem (h : Trail next halt p l e) (hq : q ∈ l) : ¬halt q := by
  obtain ⟨l₁, l₂, rfl⟩ := List.append_of_mem hq
  exact h.after.left

theorem Reached.mem (hp : Reached next halt first p) (h : Trail next halt first l e) : p ∈ l ∨ p = e := by
  induction hp
  case first =>
    cases h
    case halt => exact .inr rfl
    case step => exact .inl List.mem_cons_self
  case next p _ hn hi =>
    rcases hi with hm | rfl
    case inr => exact absurd h.halted hn
    case inl =>
      obtain ⟨l₁, l₂, rfl⟩ := List.append_of_mem hm
      obtain ⟨-, h'⟩ := h.after
      generalize next p = q at h'
      cases h'
      case halt => exact .inr rfl
      case step => exact .inl (List.mem_append_right _ (List.mem_cons_of_mem _ List.mem_cons_self))

theorem reached_end (h : Trail next halt p l e) (hp : Reached next halt first p) : Reached next halt first e := by
  induction h
  case halt         => exact hp
  case step hn _ hi => exact hi (hp.next hn)

theorem reached_of_mem (h : Trail next halt p l e) (hp : Reached next halt first p) (hq : q ∈ l) :
    Reached next halt first q := by
  induction h
  case halt => cases hq
  case step hn _ hi =>
    rcases List.mem_cons.mp hq with rfl | hq
    case inl => exact hp
    case inr => exact hi (hp.next hn) hq

-- A way on from a node that is reached is a way from the first one.
theorem Reached.extend (hp : Reached next halt first p) (h : Trail next halt p l e) :
    ∃ l', Trail next halt first l' e := by
  induction hp generalizing l
  case first         => exact ⟨l, h⟩
  case next _ hn hi => exact hi (.step hn h)

-- A node that the way to its end comes to is not come to again.
theorem not_reached_next (h : Trail next halt first l e) (hp : Reached next halt first p) (hn : ¬halt p) :
    ¬Reached next halt (next p) p := by
  intro hr
  have hm : p ∈ l := by
    cases hp.mem h
    case inl hm => exact hm
    case inr he => exact absurd (he ▸ h.halted) hn
  have ⟨l₁, l₂, hl⟩ := List.append_of_mem hm
  have ⟨_, ha⟩ := (hl ▸ h).after
  cases hr.mem ha
  case inr he => exact hn (he ▸ h.halted)
  case inl hm =>
    have ⟨l₃, l₄, hl₂⟩ := List.append_of_mem hm
    have ⟨_, hb⟩ := (hl₂ ▸ ha).after
    have he := congrArg List.length (ha.unique hb).left
    simp only [hl₂, List.length_append, List.length_cons] at he
    omega

theorem Reached.trans (hp : Reached next halt first p) (hq : Reached next halt p q) : Reached next halt first q := by
  induction hq
  case first        => exact hp
  case next _ hn hi => exact hi.next hn

theorem Reached.iterate (hn : ∀ q, Reached next halt p q → ¬halt q) (n : Nat) : Reached next halt p (next^[n] p) := by
  induction n
  case zero      => exact .first
  case succ n hi =>
    rw [Function.iterate_succ_apply']
    exact hi.next (hn _ hi)

theorem Reached.of_repeat (hn : ∀ q, Reached next halt first q → ¬halt q) {i j : Nat} (hij : i < j)
    (he : next^[i] first = next^[j] first) :
    Reached next halt (next (next^[i] first)) (next^[i] first) := by
  have ⟨k, hk⟩ := Nat.exists_eq_add_of_lt hij
  have hp := Reached.iterate hn i
  have hr : next^[i] first = next^[k] (next (next^[i] first)) := by
    rw [← Function.iterate_succ_apply, ← Function.iterate_add_apply, he, hk]
    congr 1
    omega
  have h := Reached.iterate (fun q hq => hn q ((hp.next (hn _ hp)).trans hq)) k
  rw [← hr] at h
  exact h

-- Where there are only finitely many nodes, the way ends unless it comes to one of them again.
theorem ends_iff [Finite α] : (∃ l e, Trail next halt first l e) ↔
    ∀ p, Reached next halt first p → ¬halt p → ¬Reached next halt (next p) p := by
  constructor
  case mp =>
    intro ⟨l, e, h⟩ p hp hn
    exact h.not_reached_next hp hn
  case mpr =>
    intro hc
    by_contra hne
    have hgo : ∀ p, Reached next halt first p → ¬halt p := by
      intro p hp hh
      have ⟨l, h⟩ := hp.extend (.halt hh)
      exact hne ⟨l, p, h⟩
    have ⟨i, j, hij, he⟩ := Finite.exists_ne_map_eq_of_infinite fun n => next^[n] first
    have hi := Reached.iterate hgo i
    have hj := Reached.iterate hgo j
    cases Nat.lt_or_gt_of_ne hij
    case inl h => exact hc _ hi (hgo _ hi) (.of_repeat hgo h he)
    case inr h => exact hc _ hj (hgo _ hj) (.of_repeat hgo h he.symm)

theorem nodup (h : Trail next halt p l e) : l.Nodup := by
  induction h
  case halt => exact .nil
  case step p e l hn h hi =>
    refine List.nodup_cons.mpr ⟨fun hm => ?_, hi⟩
    have hp : Trail next halt p (p :: l) e := .step hn h
    exact hp.not_reached_next .first hn (h.reached_of_mem .first hm)

end Trail
