import RoverOS.Hashtable.Theorems.Cases

-- What each call of the heap does to the blocks that were there before it.

open Function (update update_self update_of_ne)

namespace RoverOS.Kmalloc

-- A block in use with its redzone behind it.
def Fine (h : Heap) (p : Ptr) : Prop :=
  ∃ sz, h.blocks p = some sz ∧ Intact (h.mem p) sz

-- The blocks that were there are unchanged, but for those in `P`.
structure Spares (P : Ptr → Prop) (h h' : Heap) : Prop where
  next   : h.next ≤ h'.next
  blocks : ∀ {p}, p < h.next → ¬P p → h'.blocks p = h.blocks p
  mem    : ∀ {p}, p < h.next → ¬P p → h'.mem p = h.mem p

variable {P Q : Ptr → Prop} {h h' h'' : Heap} {p : Ptr} {r : Option Ptr} {sz : Nat} {memcpy : Memcpy}

theorem Spares.refl (h : Heap) : Spares P h h :=
  ⟨Nat.le_refl _, fun _ _ => rfl, fun _ _ => rfl⟩

theorem Spares.trans (a : Spares P h h') (b : Spares P h' h'') : Spares P h h'' where
  next        := Nat.le_trans a.next b.next
  blocks hp n := (b.blocks (Nat.lt_of_lt_of_le hp a.next) n).trans (a.blocks hp n)
  mem hp n    := (b.mem (Nat.lt_of_lt_of_le hp a.next) n).trans (a.mem hp n)

theorem Spares.mono (s : Spares P h h') (hpq : ∀ p, P p → Q p) : Spares Q h h' :=
  ⟨s.next, fun hp n => s.blocks hp (mt (hpq _) n), fun hp n => s.mem hp (mt (hpq _) n)⟩

theorem Spares.fine (s : Spares P h h') (hp : p < h.next) (n : ¬P p) (f : Fine h p) : Fine h' p := by
  rw [Fine, s.blocks hp n, s.mem hp n]
  exact f

theorem checkBlock_cases (hc : checkBlock h r = .ok (p, sz)) :
    r = some p ∧ h.blocks p = some sz ∧ Intact (h.mem p) sz := by
  unfold checkBlock at hc
  split at hc
  case h_1 => cases hc
  case h_2 q =>
    split at hc
    case h_1 => cases hc
    case h_2 k hb =>
      split at hc
      case isFalse => cases hc
      case isTrue hi =>
        cases hc
        exact ⟨rfl, hb, hi⟩

theorem kmalloc_spares (hk : kmalloc sz h = .ok (r, h')) :
    Spares (fun _ => False) h h' ∧ ∀ p, r = some p → Fine h' p := by
  rcases kmalloc_cases hk with ⟨_, _, rfl, rfl⟩ | ⟨rfl, _⟩
  · exact ⟨.refl _, by simp⟩
  · obtain ⟨_, rfl⟩ := kmalloc_some hk
    have k : Kept (fun _ => True) h (h.grow sz) := Heap.kept_grow
    refine ⟨⟨k.next, fun hp _ => k.blocks hp trivial, fun hp _ => k.mem hp⟩, fun p hp => ?_⟩
    cases hp
    refine ⟨sz, update_self .., ?_⟩
    have hm : (h.grow sz).mem h.next = setRedzone (h.mem h.next) sz := update_self ..
    rw [hm]
    exact intact_setRedzone

theorem kfree_spares (hk : kfree r h = .ok h') : Spares (fun p => r = some p) h h' := by
  obtain ⟨_, p, sz, rfl, _, _, rfl⟩ := kfree_cases hk
  exact ⟨Nat.le_refl _, fun _ n => update_of_ne (fun he => n (congrArg some he.symm)) _ _, fun _ _ => rfl⟩

-- The block stays where it is, or it moves to a new one and is freed.
inductive Reallocs (p : Ptr) (h : Heap) : Option Ptr → Heap → Prop
  | stay {h' : Heap} {sz : Nat} : h'.blocks = update h.blocks p (some sz) → h'.next = h.next →
    Reallocs p h (some p) h'
  | move {h₁ h' : Heap} {sz : Nat} : Grown h sz h₁ → h'.blocks = update h₁.blocks p none → h'.next = h₁.next →
    Reallocs p h (some h.next) h'

theorem krealloc_cases {ptr : Option Ptr} (hk : krealloc memcpy ptr sz h = .ok (r, h')) :
    ∃ p, ptr = some p ∧ Fine h p ∧ Reallocs p h r h' ∧ Spares (· = p) h h' := by
  obtain ⟨_, _, hk⟩ := Except.bind_ok_iff.mp hk
  obtain ⟨⟨p, allocated⟩, hc, hk⟩ := Except.bind_ok_iff.mp hk
  obtain ⟨rfl, hb, hi⟩ := checkBlock_cases hc
  refine ⟨p, rfl, ⟨allocated, hb, hi⟩, ?_⟩
  dsimp only at hk
  split at hk
  case isTrue hs =>
    cases hk
    refine ⟨@Reallocs.stay p h _ allocated (by rw [← hb, Function.update_eq_self]) rfl, Nat.le_refl _, ?_, ?_⟩
    · exact fun _ _ => rfl
    · exact fun _ _ => rfl
  case isFalse =>
    split at hk
    case isTrue =>
      cases hk
      exact ⟨.stay rfl rfl, Nat.le_refl _, fun _ n => update_of_ne n _ _, fun _ n => update_of_ne n _ _⟩
    case isFalse hz =>
      obtain ⟨⟨nptr, h₁⟩, hm, hk⟩ := Except.bind_ok_iff.mp hk
      rcases kmalloc_cases hm with ⟨_, h0, _, _⟩ | ⟨rfl, hg⟩
      · omega
      obtain ⟨h₂, hf, hk⟩ := Except.bind_ok_iff.mp hk
      cases hk
      obtain ⟨_, q, k, hq, _, _, rfl⟩ := kfree_cases hf
      cases hq
      have s := (kmalloc_spares hm).left
      refine ⟨.move hg rfl rfl, s.next, fun {q} hq n => ?_, fun {q} hq n => ?_⟩
      · exact (update_of_ne n _ _).trans (s.blocks hq id)
      · exact (update_of_ne (Nat.ne_of_lt hq) _ _).trans (s.mem hq id)

end RoverOS.Kmalloc
