import Mathlib

-- Radix trees of tables: a memory of tables whose entries may designate a further table, the walk
-- along a path of indices, and the two ways a walk is changed: by linking a table that was in no
-- walk before, and by writing the last level.

namespace Radix

variable {A I E : Type} [DecidableEq A] [DecidableEq I]

abbrev Tables (A I E : Type) := A → I → E

namespace Tables

def set (m : Tables A I E) (a : A) (i : I) (e : E) : Tables A I E :=
  fun a' i' => if a' = a ∧ i' = i then e else m a' i'

@[simp]
theorem set_same (m : Tables A I E) (a : A) (i : I) (e : E) : m.set a i e a i = e := by
  simp [set]

theorem set_of_ne {m : Tables A I E} {a a' : A} {i i' : I} {e : E} (h : ¬(a' = a ∧ i' = i)) :
    m.set a i e a' i' = m a' i' := by
  simp [set, h]

theorem set_of_ne_table {m : Tables A I E} {a a' : A} {i i' : I} {e : E} (h : a' ≠ a) :
    m.set a i e a' i' = m a' i' :=
  set_of_ne (h ·.left)

end Tables

-- `child e` is the table that the entry `e` designates, if it designates one.
variable (child : E → Option A)

def walk (m : Tables A I E) : A → List I → Option A
  | a, []     => some a
  | a, i :: p => (child (m a i)).bind (walk m · p)

def InUse (m : Tables A I E) (roots : Set A) (depth : Nat) (a : A) : Prop :=
  ∃ r ∈ roots, ∃ p : List I, p.length ≤ depth ∧ walk child m r p = some a

-- No table is reached along two different paths.
def Tree (m : Tables A I E) (roots : Set A) (depth : Nat) : Prop :=
  ∀ ⦃r r' p p' a⦄, r ∈ roots → r' ∈ roots → p.length ≤ depth → p'.length ≤ depth →
    walk child m r p = some a → walk child m r' p' = some a → r = r' ∧ p = p'

-- The number of tables that are missing along a path.
def missing (m : Tables A I E) : A → List I → Nat
  | _, []     => 0
  | a, i :: p =>
    match child (m a i) with
    | none   => p.length + 1
    | some b => missing m b p

variable {child} {m : Tables A I E} {roots : Set A} {depth : Nat} {a f r r' : A} {i j : I}
variable {p q : List I} {e : E}

omit [DecidableEq A] [DecidableEq I] in
theorem walk_append (p q : List I) :
    walk child m a (p ++ q) = (walk child m a p).bind (walk child m · q) := by
  induction p generalizing a
  case nil          => rfl
  case cons i p hi  => simp [walk, Option.bind_assoc, hi]

omit [DecidableEq A] [DecidableEq I] in
theorem walk_concat (p : List I) (i : I) :
    walk child m a (p ++ [i]) = (walk child m a p).bind (fun b => child (m b i)) := by
  simp [walk_append, walk]

omit [DecidableEq A] [DecidableEq I] in
theorem missing_append {b : A} (h : walk child m a q = some b) (p : List I) :
    missing child m a (q ++ p) = missing child m b p := by
  induction q generalizing a
  case nil => exact Option.some.inj h ▸ rfl
  case cons i q hi =>
    simp only [walk, Option.bind_eq_some_iff] at h
    have ⟨c, hc, hw⟩ := h
    simp [missing, hc, hi hw]

omit [DecidableEq A] [DecidableEq I] in
theorem missing_of_walk {b : A} (h : walk child m a q = some b) : missing child m a q = 0 := by
  have h := missing_append h []
  rwa [List.append_nil] at h

omit [DecidableEq A] [DecidableEq I] in
theorem missing_of_child_none (h : ∀ i, child (m a i) = none) (p : List I) :
    missing child m a p = p.length := by
  cases p
  case nil  => rfl
  case cons => simp [missing, h]

theorem walk_set_of_child_eq (h : child e = child (m a i)) (p : List I) :
    walk child (m.set a i e) r p = walk child m r p := by
  induction p generalizing r
  case nil => rfl
  case cons j p hi =>
    have hc : child (m.set a i e r j) = child (m r j) := by
      by_cases hs : r = a ∧ j = i
      case pos => rw [hs.left, hs.right, Tables.set_same, h]
      case neg => rw [Tables.set_of_ne hs]
    simp [walk, hc, hi]

-- Writing an entry of the table at `q` changes no walk that is not longer than `q`.
theorem Tree.walk_set (t : Tree child m roots depth) (hr : r ∈ roots) (hq : q.length ≤ depth)
    (ha : walk child m r q = some a) (hr' : r' ∈ roots) (hp : p.length ≤ q.length) :
    walk child (m.set a i e) r' p = walk child m r' p := by
  induction p using List.reverseRecOn
  case nil => rfl
  case append_singleton p j hi =>
    simp only [List.length_append, List.length_singleton] at hp
    rw [walk_concat, walk_concat, hi (by omega)]
    cases hb : walk child m r' p
    case none   => rfl
    case some b =>
      have hn : b ≠ a := by
        rintro rfl
        have ⟨_, h⟩ := t hr hr' hq (by omega) ha hb
        simp only [h] at hp
        omega
      simp [Tables.set_of_ne_table hn]

-- A write at the last level leaves the tree as it is.
theorem Tree.set_last (t : Tree child m roots depth) (hr : r ∈ roots) (hq : q.length = depth)
    (ha : walk child m r q = some a) : Tree child (m.set a i e) roots depth := by
  intro r₁ r₂ p₁ p₂ b h₁ h₂ hp₁ hp₂ hw₁ hw₂
  rw [t.walk_set hr hq.le ha h₁ (hq ▸ hp₁)] at hw₁
  rw [t.walk_set hr hq.le ha h₂ (hq ▸ hp₂)] at hw₂
  exact t h₁ h₂ hp₁ hp₂ hw₁ hw₂

theorem Tree.of_child_eq (t : Tree child m roots depth) (h : child e = child (m a i)) :
    Tree child (m.set a i e) roots depth := by
  intro _ _ _ _ _ h₁ h₂ hp₁ hp₂ hw₁ hw₂
  rw [walk_set_of_child_eq h] at hw₁ hw₂
  exact t h₁ h₂ hp₁ hp₂ hw₁ hw₂

section Link

variable (t : Tree child m roots depth) (hr : r ∈ roots) (hq : q.length < depth)
variable (ha : walk child m r q = some a) (he : child e = some f)

include t hr hq ha he

theorem Tree.walk_link_new : walk child (m.set a i e) r (q ++ [i]) = some f := by
  simp [walk_concat, t.walk_set hr hq.le ha hr le_rfl, ha, he]

variable (hi : child (m a i) = none) (hf : ¬InUse child m roots depth f)
variable (hz : q.length + 1 < depth → ∀ j, child (m f j) = none)

include hi hf hz

-- Linking the table `f` at entry `i` of the table at `q` changes no walk but that of `q ++ [i]`, if
-- `f` is empty or its entries are beyond the depth.
theorem Tree.walk_link (hr' : r' ∈ roots) (hp : p.length ≤ depth) (h : ¬(r' = r ∧ p = q ++ [i])) :
    walk child (m.set a i e) r' p = walk child m r' p := by
  induction p using List.reverseRecOn
  case nil => rfl
  case append_singleton p j ih =>
    simp only [List.length_append, List.length_singleton] at hp
    by_cases hs : r' = r ∧ p = q ++ [i]
    case pos =>
      -- The path runs on below the new link: nothing was there before, and `f` is empty.
      have hne : f ≠ a := fun h => hf (h ▸ ⟨r, hr, q, by omega, ha⟩)
      have hnew := t.walk_link_new (i := i) hr hq ha he
      rw [hs.left, hs.right, walk_concat (q ++ [i]), walk_concat (q ++ [i]), hnew, walk_concat q, ha]
      have hq' : q.length + 1 < depth := by
        simp only [hs.right, List.length_append, List.length_singleton] at hp
        omega
      simp [hi, Tables.set_of_ne_table hne, hz hq']
    case neg =>
      rw [walk_concat, walk_concat, ih (by omega) hs]
      cases hb : walk child m r' p
      case none   => rfl
      case some b =>
        have hbj : ¬(b = a ∧ j = i) := by
          rintro ⟨rfl, rfl⟩
          have ⟨h₁, h₂⟩ := t hr' hr (by omega) (by omega) hb ha
          exact h ⟨h₁, h₂ ▸ rfl⟩
        simp [Tables.set_of_ne hbj]

theorem Tree.inUse_link {b : A} (h : InUse child (m.set a i e) roots depth b) :
    b = f ∨ InUse child m roots depth b := by
  have ⟨r', hr', p, hp, hw⟩ := h
  by_cases hs : r' = r ∧ p = q ++ [i]
  case pos =>
    rw [hs.left, hs.right, t.walk_link_new hr hq ha he] at hw
    exact .inl (Option.some.inj hw).symm
  case neg => exact .inr ⟨r', hr', p, hp, t.walk_link hr hq ha he hi hf hz hr' hp hs ▸ hw⟩

theorem Tree.link : Tree child (m.set a i e) roots depth := by
  have hold {r' p} (hr' : r' ∈ roots) (hp : p.length ≤ depth) (h : ¬(r' = r ∧ p = q ++ [i])) :=
    t.walk_link (p := p) hr hq ha he hi hf hz hr' hp h
  have hnew := t.walk_link_new (i := i) hr hq ha he
  intro r₁ r₂ p₁ p₂ b h₁ h₂ hp₁ hp₂ hw₁ hw₂
  by_cases hs₁ : r₁ = r ∧ p₁ = q ++ [i] <;> by_cases hs₂ : r₂ = r ∧ p₂ = q ++ [i]
  case pos => exact ⟨hs₁.left.trans hs₂.left.symm, hs₁.right.trans hs₂.right.symm⟩
  case neg =>
    rw [hs₁.left, hs₁.right, hnew] at hw₁
    rw [hold h₂ hp₂ hs₂, ← hw₁] at hw₂
    exact absurd ⟨r₂, h₂, p₂, hp₂, hw₂⟩ hf
  case pos =>
    rw [hs₂.left, hs₂.right, hnew] at hw₂
    rw [hold h₁ hp₁ hs₁, ← hw₂] at hw₁
    exact absurd ⟨r₁, h₁, p₁, hp₁, hw₁⟩ hf
  case neg =>
    rw [hold h₁ hp₁ hs₁] at hw₁
    rw [hold h₂ hp₂ hs₂] at hw₂
    exact t h₁ h₂ hp₁ hp₂ hw₁ hw₂

end Link

section Insert

variable (hz : ∀ i, child (m f i) = none)
include hz

omit [DecidableEq A] [DecidableEq I] in
theorem walk_of_blank {b : A} (h : walk child m f p = some b) : p = [] ∧ b = f := by
  cases p
  case nil  => exact ⟨rfl, (Option.some.inj h).symm⟩
  case cons =>
    rw [walk, hz] at h
    cases h

omit [DecidableEq A] [DecidableEq I] in
theorem inUse_insert {b : A} (h : InUse child m (insert f roots) depth b) : b = f ∨ InUse child m roots depth b := by
  have ⟨r, hr, p, hp, hw⟩ := h
  cases hr
  case inl he => exact .inl (walk_of_blank hz (he ▸ hw)).right
  case inr hr => exact .inr ⟨r, hr, p, hp, hw⟩

omit [DecidableEq A] [DecidableEq I] in
-- An empty table that was in no walk before becomes a further root.
theorem Tree.insert (t : Tree child m roots depth) (hf : ¬InUse child m roots depth f) :
    Tree child m (insert f roots) depth := by
  intro r₁ r₂ p₁ p₂ b h₁ h₂ hp₁ hp₂ hw₁ hw₂
  cases h₁ <;> cases h₂
  case inl.inl he₁ he₂ =>
    have hn₁ := (walk_of_blank hz (he₁ ▸ hw₁)).left
    have hn₂ := (walk_of_blank hz (he₂ ▸ hw₂)).left
    exact ⟨he₁.trans he₂.symm, hn₁.trans hn₂.symm⟩
  case inl.inr he₁ h₂ =>
    have hb := (walk_of_blank hz (he₁ ▸ hw₁)).right
    exact absurd ⟨r₂, h₂, p₂, hp₂, hb ▸ hw₂⟩ hf
  case inr.inl h₁ he₂ =>
    have hb := (walk_of_blank hz (he₂ ▸ hw₂)).right
    exact absurd ⟨r₁, h₁, p₁, hp₁, hb ▸ hw₁⟩ hf
  case inr.inr h₁ h₂ => exact t h₁ h₂ hp₁ hp₂ hw₁ hw₂

end Insert

-- The entry at index `i` of the table at the end of a path.
def entry (child : E → Option A) (m : Tables A I E) (r : A) (p : List I) (i : I) : Option E :=
  (walk child m r p).map (m · i)

omit [DecidableEq A] [DecidableEq I] in
-- Memory outside of the tables in use does not matter.
theorem walk_congr {m' : Tables A I E} (h : ∀ a, InUse child m roots depth a → m' a = m a)
    (hr : r ∈ roots) (hp : p.length ≤ depth) : walk child m' r p = walk child m r p := by
  induction p using List.reverseRecOn
  case nil => rfl
  case append_singleton p i hi =>
    simp only [List.length_append, List.length_singleton] at hp
    rw [walk_concat, walk_concat, hi (by omega)]
    cases hw : walk child m r p
    case none   => rfl
    case some b => simp [h b ⟨r, hr, p, by omega, hw⟩]

omit [DecidableEq A] [DecidableEq I] in
theorem entry_congr {m' : Tables A I E} (h : ∀ a, InUse child m roots depth a → m' a = m a)
    (hr : r ∈ roots) (hp : p.length ≤ depth) : entry child m' r p i = entry child m r p i := by
  rw [entry, entry, walk_congr h hr hp]
  cases hw : walk child m r p
  case none   => rfl
  case some b => simp [h b ⟨r, hr, p, hp, hw⟩]

omit [DecidableEq A] [DecidableEq I] in
theorem Tree.congr {m' : Tables A I E} (t : Tree child m roots depth)
    (h : ∀ a, InUse child m roots depth a → m' a = m a) : Tree child m' roots depth := by
  intro r r' p p' a hr hr' hp hp' hw hw'
  rw [walk_congr h hr hp] at hw
  rw [walk_congr h hr' hp'] at hw'
  exact t hr hr' hp hp' hw hw'

-- A write that leaves a walk as it is changes no entry at its end, but the one that is written.
theorem Tree.entry_set (t : Tree child m roots depth) (hr : r ∈ roots) (hq : q.length ≤ depth)
    (ha : walk child m r q = some a) (hr' : r' ∈ roots) (hp : p.length ≤ depth)
    (hw : walk child (m.set a i e) r' p = walk child m r' p) (hne : ¬(r' = r ∧ p = q ∧ j = i)) :
    entry child (m.set a i e) r' p j = entry child m r' p j := by
  rw [entry, entry, hw]
  cases hb : walk child m r' p
  case none   => rfl
  case some b =>
    have hbj : ¬(b = a ∧ j = i) := by
      rintro ⟨rfl, hj⟩
      have ⟨h₁, h₂⟩ := t hr' hr hp hq hb ha
      exact hne ⟨h₁, h₂, hj⟩
    simp [Tables.set_of_ne hbj]

theorem entry_set_same (hw : walk child (m.set a i e) r q = some a) :
    entry child (m.set a i e) r q i = some e := by
  simp [entry, hw]

end Radix
