import RoverOS.Paging.Theorems.Link

-- `mapPage` is at most three links, along the path of the page, and then the writes of `Link`.

open Radix (walk Tree InUse walk_concat)

namespace RoverOS.Paging

-- What one link of `mapPage` keeps: an invariant `I` of the state, and a relation `K` between the
-- states before and after.
structure LinkRule (newPagetable : Vm → Except Exit (Word × Vm)) (root virt : Word)
    (I : Vm → Prop) (K : Vm → Vm → Prop) : Prop where
  refl  : ∀ s, K s s
  trans : ∀ {s₁ s₂ s₃}, K s₁ s₂ → K s₂ s₃ → K s₁ s₃
  walk  : ∀ {s s' p a}, K s s' → p <+: path virt → walk child s.tables root p = some a →
    walk child s'.tables root p = some a
  link  : ∀ {s s₁ q n tbl f}, I s → q ++ [n] <+: path virt →
    Radix.walk child s.tables root q = some tbl → tableBase (s.tables tbl n) = 0#64 →
    newPagetable s = .ok (f, s₁) → s₁.tables tbl n = s.tables tbl n →
    I (s₁.orEntry tbl n f) ∧ K s (s₁.orEntry tbl n f) ∧ tableBase (s.tables tbl n ||| f) ≠ 0#64

-- The state after `mapPage`, from the one after its links.
def finish (root pdpe pde pte virt phys flags : Word) (s : Vm) : Vm :=
  s.orEntry root (pmlEntry virt) (tableFlags flags)
    |>.orEntry pdpe (pdpeEntry virt) (tableFlags flags)
    |>.orEntry pde (pdeEntry virt) (tableFlags flags)
    |>.setEntry pte (pteEntry virt) (pgflags flags ||| phys)

variable {newPagetable : Vm → Except Exit (Word × Vm)} {I : Vm → Prop} {K : Vm → Vm → Prop}
variable {root phys virt flags tbl : Word} {n : Index} {q : List Index} {s s' : Vm} {make : Prop}
variable [Decidable make] {space : PageSpace}

theorem LinkRule.linkTable (l : LinkRule newPagetable root virt I K) (hi : I s)
    (hq : q ++ [n] <+: path virt) (hw : Radix.walk child s.tables root q = some tbl)
    (h : linkTable newPagetable make tbl n s = .ok s') :
    I s' ∧ K s s' ∧
      Radix.walk child s'.tables root (q ++ [n]) = some (tableBase (s'.tables tbl n)) := by
  unfold Paging.linkTable at h
  split at h
  case isFalse hb =>
    cases h
    refine ⟨hi, l.refl s, ?_⟩
    simp [walk_concat, hw, child_eq_some hb]
  case isTrue hb =>
    split at h
    case isFalse => cases h
    case isTrue =>
      have ⟨⟨f, s₁⟩, hn, h⟩ := Except.bind_ok_iff.mp h
      simp only at h
      split at h
      case isFalse => cases h
      case isTrue hs =>
        cases h
        have ⟨hi', hk, hne⟩ := l.link hi hq hw hb hn hs
        have hw' := l.walk hk ((List.prefix_append q [n]).trans hq) hw
        rw [← hs] at hne
        refine ⟨hi', hk, ?_⟩
        rw [walk_concat, hw']
        simp [child_eq_some hne]

theorem LinkRule.mapPage (l : LinkRule newPagetable space.pml4e virt I K) (hi : I s)
    (h : mapPage newPagetable space phys virt flags s = .ok s') :
    ∃ s₃ pdpe pde pte, I s₃ ∧ K s s₃ ∧
      Radix.walk child s₃.tables space.pml4e [pmlEntry virt] = some pdpe ∧
      Radix.walk child s₃.tables space.pml4e [pmlEntry virt, pdpeEntry virt] = some pde ∧
      Radix.walk child s₃.tables space.pml4e (path virt) = some pte ∧
      s' = finish space.pml4e pdpe pde pte virt phys flags s₃ := by
  unfold Paging.mapPage at h
  split at h
  case isTrue => cases h
  case isFalse =>
    have ⟨s₁, h₁, h⟩ := Except.bind_ok_iff.mp h
    have ⟨s₂, h₂, h⟩ := Except.bind_ok_iff.mp h
    have ⟨s₃, h₃, h⟩ := Except.bind_ok_iff.mp h
    cases h
    have ⟨hi₁, hk₁, hw₁⟩ := l.linkTable (q := []) hi ⟨_, rfl⟩ rfl h₁
    have ⟨hi₂, hk₂, hw₂⟩ := l.linkTable (q := [pmlEntry virt]) hi₁ ⟨_, rfl⟩ hw₁ h₂
    have ⟨hi₃, hk₃, hw₃⟩ :=
      l.linkTable (q := [pmlEntry virt, pdpeEntry virt]) hi₂ ⟨_, rfl⟩ hw₂ h₃
    have hw₂' := l.walk hk₃ ⟨_, rfl⟩ hw₂
    have hw₁' := l.walk (l.trans hk₂ hk₃) ⟨_, rfl⟩ hw₁
    exact ⟨s₃, _, _, _, hi₃, l.trans hk₁ (l.trans hk₂ hk₃), hw₁', hw₂', hw₃, rfl⟩

-- A refused `mapPage` asked for a table that was not to be made, or for an unaligned address.
theorem mapPage_aligned (h : mapPage newPagetable space phys virt flags s = .ok s') :
    isUnaligned phys = 0#64 ∧ isUnaligned virt = 0#64 := by
  unfold Paging.mapPage at h
  split at h
  case isTrue      => cases h
  case isFalse hne => simpa using hne

section Finish

variable {roots : Set Word} {pdpe pde pte r' w f : Word} {p : List Index}
variable (t : Tree child s.tables roots 3) (hr : root ∈ roots)
variable (h₁ : walk child s.tables root [pmlEntry virt] = some pdpe)
variable (h₂ : walk child s.tables root [pmlEntry virt, pdpeEntry virt] = some pde)
variable (h₃ : walk child s.tables root (path virt) = some pte)

include t hr h₁ h₂ h₃

omit h₁ h₂ in
theorem finish_walk (hr' : r' ∈ roots) (hp : p.length ≤ 3) :
    walk child (finish root pdpe pde pte virt phys flags s).tables r' p =
      walk child s.tables r' p := by
  unfold finish
  have h₃' := h₃
  rw [← walk_orFlags, ← walk_orFlags, ← walk_orFlags] at h₃'
  rw [walk_setLeaf (tree_orFlags (tree_orFlags (tree_orFlags t))) hr h₃' hr' hp]
  simp only [walk_orFlags]

omit h₁ h₂ in
theorem finish_tree : Tree child (finish root pdpe pde pte virt phys flags s).tables roots 3 := by
  intro _ _ _ _ _ hr₁ hr₂ hp₁ hp₂ hw₁ hw₂
  rw [finish_walk t hr h₃ hr₁ hp₁] at hw₁
  rw [finish_walk t hr h₃ hr₂ hp₂] at hw₂
  exact t hr₁ hr₂ hp₁ hp₂ hw₁ hw₂

omit h₁ h₂ in
theorem finish_leaf_same :
    leaf (finish root pdpe pde pte virt phys flags s) root virt = some (pgflags flags ||| phys) :=
  leaf_setLeaf_same (tree_orFlags (tree_orFlags (tree_orFlags t))) hr
    (by simpa only [walk_orFlags] using h₃)

theorem finish_leaf (hr' : r' ∈ roots) (h : ¬(r' = root ∧ SamePage w virt)) :
    leaf (finish root pdpe pde pte virt phys flags s) r' w = leaf s r' w := by
  let u := s.orEntry root (pmlEntry virt) (tableFlags flags)
  have t₁ : Tree child u.tables roots 3 := tree_orFlags t
  have t₂ : Tree child (u.orEntry pdpe (pdpeEntry virt) (tableFlags flags)).tables roots 3 :=
    tree_orFlags t₁
  unfold finish
  rw [leaf_setLeaf (tree_orFlags t₂) hr (by simpa only [u, walk_orFlags] using h₃) hr' h]
  rw [leaf_orFlags (q := [pmlEntry virt, pdpeEntry virt]) t₂ hr (by simp)
    (by simpa only [u, walk_orFlags] using h₂) hr']
  rw [leaf_orFlags (q := [pmlEntry virt]) t₁ hr (by simp)
    (by simpa only [u, walk_orFlags] using h₁) hr']
  exact leaf_orFlags (q := []) t hr (by simp) rfl hr'

omit t in
theorem finish_contents (hf : Spare roots s f) :
    (finish root pdpe pde pte virt phys flags s).tables f = s.tables f := by
  have hn {tbl q} (hq : List.length q ≤ 3) (hw : walk child s.tables root q = some tbl) : f ≠ tbl :=
    hf.ne_of_inUse ⟨root, hr, q, hq, hw⟩
  have hn₀ := hn (q := []) (by simp) rfl
  have hn₁ := hn (by simp) h₁
  have hn₂ := hn (by simp) h₂
  have hn₃ := hn (by simp) h₃
  funext j
  simp [finish, Radix.Tables.set_of_ne_table, hn₀, hn₁, hn₂, hn₃]

omit h₁ h₂ in
theorem finish_spare (hf : Spare roots s f) :
    Spare roots (finish root pdpe pde pte virt phys flags s) f where
  nonzero := hf.nonzero
  aligned := hf.aligned
  unused := by
    rintro ⟨r', hr', p, hp, hw⟩
    exact hf.unused ⟨r', hr', p, hp, finish_walk t hr h₃ hr' hp ▸ hw⟩

end Finish

end RoverOS.Paging
