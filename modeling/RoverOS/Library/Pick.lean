import Mathlib

-- One pass over a list that keeps the greatest element so far, and the lesser one of the last comparison.

namespace Pick

variable {α β : Type} [LinearOrder β] {f : α → β} {l : List α} {a b m x : α} {o : Option α}

-- Of two elements that are equally great, the later one is kept.
def step (f : α → β) (s : Option α × Option α) (x : α) : Option α × Option α :=
  match s.1 with
  | none   => (some x, s.2)
  | some m => if f x < f m then (some m, some x) else (some x, some m)

-- The last one of the greatest elements.
def Last (f : α → β) (l : List α) (a : α) : Prop :=
  ∃ front back, l = front ++ a :: back ∧ (∀ b ∈ front, f b ≤ f a) ∧ ∀ b ∈ back, f b < f a

-- `b` loses the last comparison, and `a` wins it.
def Final (f : α → β) (l : List α) (a b : α) : Prop :=
  ∃ front x, l = front ++ [x] ∧
    (b = x ∧ f x < f a ∧ Last f front a ∨ a = x ∧ f b ≤ f x ∧ Last f front b)

namespace Last

theorem ne_nil (h : Last f l a) : l ≠ [] := by
  obtain ⟨front, back, rfl, -⟩ := h
  exact List.append_ne_nil_of_right_ne_nil _ (List.cons_ne_nil _ _)

theorem mem (h : Last f l a) : a ∈ l := by
  obtain ⟨front, back, rfl, -⟩ := h
  exact List.mem_append_right _ List.mem_cons_self

theorem le (h : Last f l a) (hb : b ∈ l) : f b ≤ f a := by
  obtain ⟨front, back, rfl, hf, hk⟩ := h
  rcases List.mem_append.mp hb with hb | hb
  case inl => exact hf b hb
  case inr =>
    rcases List.mem_cons.mp hb with rfl | hb
    case inl => exact le_refl _
    case inr => exact le_of_lt (hk b hb)

theorem concat_iff : Last f (l ++ [x]) a ↔ Last f l a ∧ f x < f a ∨ a = x ∧ ∀ b ∈ l, f b ≤ f x := by
  constructor
  case mp =>
    rintro ⟨front, back, he, hf, hk⟩
    rcases List.eq_nil_or_concat' back with rfl | ⟨back, y, rfl⟩
    case inl =>
      obtain ⟨rfl, hx⟩ := List.append_inj' he rfl
      obtain rfl : x = a := List.singleton_inj.mp hx
      exact .inr ⟨rfl, hf⟩
    case inr =>
      rw [← List.cons_append, ← List.append_assoc] at he
      obtain ⟨rfl, hx⟩ := List.append_inj' he rfl
      obtain rfl : x = y := List.singleton_inj.mp hx
      have hb : ∀ b ∈ back, f b < f a := fun b hb => hk b (List.mem_append_left _ hb)
      exact .inl ⟨⟨front, back, rfl, hf, hb⟩, hk x (List.mem_append_right _ List.mem_cons_self)⟩
  case mpr =>
    rintro (⟨⟨front, back, rfl, hf, hk⟩, hx⟩ | ⟨rfl, hf⟩)
    case inl =>
      refine ⟨front, back ++ [x], by simp, hf, fun b hb => ?_⟩
      rcases List.mem_append.mp hb with hb | hb
      case inl => exact hk b hb
      case inr => exact List.mem_singleton.mp hb ▸ hx
    case inr => exact ⟨l, [], rfl, hf, fun b hb => absurd hb List.not_mem_nil⟩

theorem unique (ha : Last f l a) (hb : Last f l b) : a = b := by
  induction l using List.reverseRecOn
  case nil => exact absurd rfl ha.ne_nil
  case append_singleton l x hi =>
    rw [concat_iff] at ha hb
    rcases ha with ⟨ha, hxa⟩ | ⟨rfl, ha⟩ <;> rcases hb with ⟨hb, hxb⟩ | ⟨rfl, hb⟩
    case inl.inl => exact hi ha hb
    case inl.inr => exact absurd hxa (not_lt_of_ge (hb a ha.mem))
    case inr.inl => exact absurd hxb (not_lt_of_ge (ha b hb.mem))
    case inr.inr => rfl

end Last

theorem foldl_concat (s : Option α × Option α) : (l ++ [x]).foldl (step f) s = step f (l.foldl (step f) s) x :=
  List.foldl_concat ..

theorem foldl_last (s : Option α × Option α) (hs : s.1 = none) (hl : l ≠ []) :
    ∃ m, (l.foldl (step f) s).1 = some m ∧ Last f l m := by
  induction l using List.reverseRecOn
  case nil => exact absurd rfl hl
  case append_singleton l x hi =>
    rw [foldl_concat, step]
    by_cases hn : l = []
    case pos =>
      rw [hn, List.foldl_nil, hs]
      exact ⟨x, rfl, Last.concat_iff.mpr (.inr ⟨rfl, fun b hb => absurd hb List.not_mem_nil⟩)⟩
    case neg =>
      obtain ⟨m, hm, h⟩ := hi hn
      rw [hm]
      by_cases hx : f x < f m
      case pos => exact ⟨m, by simp only [if_pos hx], Last.concat_iff.mpr (.inl ⟨h, hx⟩)⟩
      case neg =>
        refine ⟨x, by simp only [if_neg hx], Last.concat_iff.mpr (.inr ⟨rfl, fun b hb => ?_⟩)⟩
        exact (h.le hb).trans (le_of_not_gt hx)

theorem foldl_final (hl : 2 ≤ l.length) :
    ∃ a b, l.foldl (step f) (none, none) = (some a, some b) ∧ Final f l a b := by
  obtain ⟨front, x, rfl⟩ := (List.eq_nil_or_concat' l).resolve_left (by rintro rfl; simp at hl)
  have hne : front ≠ [] := by
    rintro rfl
    simp at hl
  obtain ⟨m, hm, h⟩ := foldl_last (f := f) (none, none) rfl hne
  rw [foldl_concat, step, hm]
  by_cases hx : f x < f m
  case pos => exact ⟨m, x, if_pos hx, front, x, rfl, .inl ⟨rfl, hx, h⟩⟩
  case neg => exact ⟨x, m, if_neg hx, front, x, rfl, .inr ⟨rfl, le_of_not_gt hx, h⟩⟩

theorem Final.two_le (h : Final f l a b) : 2 ≤ l.length := by
  obtain ⟨front, x, rfl, h⟩ := h
  have hne : front ≠ [] := by
    rcases h with ⟨-, -, h⟩ | ⟨-, -, h⟩
    case inl => exact h.ne_nil
    case inr => exact h.ne_nil
  have hl := List.length_pos_of_ne_nil hne
  rw [List.length_append, List.length_singleton]
  omega

theorem Final.unique {a' b' : α} (h : Final f l a b) (h' : Final f l a' b') : a = a' ∧ b = b' := by
  obtain ⟨front, x, rfl, h⟩ := h
  obtain ⟨front', x', he, h'⟩ := h'
  obtain ⟨rfl, hx⟩ := List.append_inj' he rfl
  obtain rfl : x = x' := List.singleton_inj.mp hx
  rcases h with ⟨rfl, hlt, h⟩ | ⟨rfl, hle, h⟩ <;> rcases h' with ⟨rfl, hlt', h'⟩ | ⟨rfl, hle', h'⟩
  case inl.inl => exact ⟨h.unique h', rfl⟩
  case inl.inr => exact absurd hlt (not_lt_of_ge (h.unique h' ▸ hle'))
  case inr.inl => exact absurd hlt' (not_lt_of_ge (h.unique h' ▸ hle))
  case inr.inr => exact ⟨rfl, h.unique h'⟩

-- What a pass over at least two elements ends with.
theorem foldl_eq_iff : l.foldl (step f) (none, none) = (some a, some b) ↔ Final f l a b := by
  by_cases hl : 2 ≤ l.length
  case pos =>
    obtain ⟨a', b', he, h⟩ := foldl_final (f := f) hl
    rw [he]
    constructor
    case mp =>
      intro he
      cases he
      exact h
    case mpr =>
      intro h'
      obtain ⟨rfl, rfl⟩ := h.unique h'
      rfl
  case neg =>
    refine ⟨fun he => ?_, fun h => absurd h.two_le hl⟩
    rcases l with _ | ⟨x, _ | ⟨y, l⟩⟩
    case nil       => cases he
    case cons.nil  => cases he
    case cons.cons => exact absurd (by simp) hl

end Pick
