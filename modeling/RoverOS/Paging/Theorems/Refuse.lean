import RoverOS.Paging.Theorems.MapPage

-- What `mapPage` leaves behind when it returns `false`.

namespace RoverOS.Paging

namespace Returns

-- `linkTable` and `mapPage` with the memory that there is when they return, also when it is `false`
-- that they return.
def linkTable (newPagetable : Vm → Except Exit (Word × Vm)) (make : Prop) [Decidable make]
    (tbl : Word) (n : Index) (s : Vm) : Except Exit (Bool × Vm) :=
  if tableBase (s.tables tbl n) = 0#64 then
    if make then do
      let (frame, s') ← newPagetable s
      if s'.tables tbl n = s.tables tbl n then .ok (true, s'.orEntry tbl n frame)
      else .error .unsequenced
    else .ok (false, s)
  else .ok (true, s)

def mapPage (newPagetable : Vm → Except Exit (Word × Vm)) (space : PageSpace)
    (phys virt flags : Word) (s : Vm) : Except Exit (Bool × Vm) :=
  if isUnaligned phys ≠ 0#64 ∨ isUnaligned virt ≠ 0#64 then .ok (false, s) else do
    let make := Has flags pageFlagMake
    let pmln := pmlEntry virt
    let (linked, s) ← linkTable newPagetable make space.pml4e pmln s
    if linked = false then return (false, s)
    let pdpe := tableBase (s.tables space.pml4e pmln)
    let pdpen := pdpeEntry virt
    let (linked, s) ← linkTable newPagetable make pdpe pdpen s
    if linked = false then return (false, s)
    let pde := tableBase (s.tables pdpe pdpen)
    let pden := pdeEntry virt
    let (linked, s) ← linkTable newPagetable make pde pden s
    if linked = false then return (false, s)
    let pte := tableBase (s.tables pde pden)
    let s := s.orEntry space.pml4e pmln (tableFlags flags)
    let s := s.orEntry pdpe pdpen (tableFlags flags)
    let s := s.orEntry pde pden (tableFlags flags)
    return (true, s.setEntry pte (pteEntry virt) (pgflags flags ||| phys))

-- `false` is what is refused.
def refuse : Bool × Vm → Except Exit Vm
  | (true, s)  => .ok s
  | (false, _) => .error .refused

end Returns

-- One of the three upper entries on the way to `virt` designates no table.
def TableMissing (s : Vm) (root virt : Word) : Prop :=
  let pml := s.tables root (pmlEntry virt)
  let pdpe := s.tables (tableBase pml) (pdpeEntry virt)
  let pde := s.tables (tableBase pdpe) (pdeEntry virt)
  tableBase pml = 0#64 ∨ tableBase pdpe = 0#64 ∨ tableBase pde = 0#64

instance {s : Vm} {root virt : Word} : Decidable (TableMissing s root virt) :=
  inferInstanceAs (Decidable (_ ∨ _ ∨ _))

variable {newPagetable : Vm → Except Exit (Word × Vm)} {make : Prop} [Decidable make]
variable {space : PageSpace} {phys virt flags tbl : Word} {n : Index} {s s' : Vm}

namespace Returns

theorem linkTable_refuse :
    Paging.linkTable newPagetable make tbl n s = linkTable newPagetable make tbl n s >>= refuse := by
  unfold Paging.linkTable linkTable
  split
  case isFalse => rfl
  case isTrue =>
    split
    case isFalse => rfl
    case isTrue =>
      cases newPagetable s
      case error => rfl
      case ok r =>
        simp only [bind, Except.bind]
        split <;> rfl

-- The two versions of `mapPage` do the same.
theorem mapPage_refuse :
    Paging.mapPage newPagetable space phys virt flags s =
      mapPage newPagetable space phys virt flags s >>= refuse := by
  unfold Paging.mapPage mapPage
  split
  case isTrue => rfl
  case isFalse =>
    simp only [linkTable_refuse]
    rcases linkTable newPagetable (Has flags pageFlagMake) space.pml4e (pmlEntry virt) s with
      e | ⟨_ | _, s₁⟩
    case error    => rfl
    case ok.false => rfl
    simp only [bind, Except.bind, refuse]
    rcases linkTable newPagetable (Has flags pageFlagMake)
      (tableBase (s₁.tables space.pml4e (pmlEntry virt))) (pdpeEntry virt) s₁ with e | ⟨_ | _, s₂⟩
    case error    => rfl
    case ok.false => rfl
    simp only [Bool.true_eq_false, if_false]
    rcases linkTable newPagetable (Has flags pageFlagMake)
      (tableBase (s₂.tables (tableBase (s₁.tables space.pml4e (pmlEntry virt))) (pdpeEntry virt)))
      (pdeEntry virt) s₂ with e | ⟨_ | _, s₃⟩ <;> rfl

theorem linkTable_false (h : linkTable newPagetable make tbl n s = .ok (false, s')) :
    ¬make ∧ tableBase (s.tables tbl n) = 0#64 ∧ s' = s := by
  unfold linkTable at h
  split at h
  case isFalse => cases h
  case isTrue hb =>
    split at h
    case isFalse hm =>
      cases h
      exact ⟨hm, hb, rfl⟩
    case isTrue =>
      obtain ⟨⟨frame, s₁⟩, _, h⟩ := Except.bind_ok_iff.mp h
      dsimp only at h
      split at h <;> cases h

-- Without permission to make tables, the three checks come before all writes.
theorem linkTable_of_not_make (hm : ¬make) : linkTable newPagetable make tbl n s =
    .ok (decide (tableBase (s.tables tbl n) ≠ 0#64), s) := by
  unfold linkTable
  by_cases hb : tableBase (s.tables tbl n) = 0#64
  case pos => rw [if_pos hb, if_neg hm, decide_eq_false (not_not.mpr hb)]
  case neg => rw [if_neg hb, decide_eq_true hb]

theorem mapPage_of_not_make (hm : ¬Has flags pageFlagMake)
    (ha : ¬(isUnaligned phys ≠ 0#64 ∨ isUnaligned virt ≠ 0#64)) :
    ∃ s', mapPage newPagetable space phys virt flags s =
      .ok (if TableMissing s space.pml4e virt then (false, s) else (true, s')) := by
  unfold mapPage
  rw [if_neg ha]
  simp only [linkTable_of_not_make hm, bind, Except.bind, decide_eq_false_iff_not, not_not]
  by_cases h₁ : tableBase (s.tables space.pml4e (pmlEntry virt)) = 0#64
  case pos => exact ⟨s, by rw [if_pos h₁, if_pos (.inl h₁)]; rfl⟩
  rw [if_neg h₁]
  by_cases h₂ : tableBase (s.tables (tableBase (s.tables space.pml4e (pmlEntry virt))) (pdpeEntry virt)) = 0#64
  case pos => exact ⟨s, by rw [if_pos h₂, if_pos (.inr (.inl h₂))]; rfl⟩
  rw [if_neg h₂]
  split
  case isTrue h₃  => exact ⟨s, by rw [if_pos (.inr (.inr h₃))]; rfl⟩
  case isFalse h₃ =>
    have ht : ¬TableMissing s space.pml4e virt := not_or.mpr ⟨h₁, not_or.mpr ⟨h₂, h₃⟩⟩
    exact ⟨_, by rw [if_neg ht]; rfl⟩

theorem mapPage_make (hm : Has flags pageFlagMake)
    (ha : ¬(isUnaligned phys ≠ 0#64 ∨ isUnaligned virt ≠ 0#64)) :
    ¬∃ s', mapPage newPagetable space phys virt flags s = .ok (false, s') := by
  rintro ⟨s', h⟩
  unfold mapPage at h
  rw [if_neg ha] at h
  obtain ⟨⟨_ | _, s₁⟩, h₁, h⟩ := Except.bind_ok_iff.mp h
  case false => exact (linkTable_false h₁).left hm
  obtain ⟨⟨_ | _, s₂⟩, h₂, h⟩ := Except.bind_ok_iff.mp h
  case false => exact (linkTable_false h₂).left hm
  obtain ⟨⟨_ | _, s₃⟩, h₃, h⟩ := Except.bind_ok_iff.mp h
  case false => exact (linkTable_false h₃).left hm
  case true  => cases h

-- A `mapPage` that returns `false` refuses the address, or a table that it must not make, and leaves
-- the memory and the frames as they are.
theorem mapPage_false_iff :
    ((∃ s', mapPage newPagetable space phys virt flags s = .ok (false, s')) ↔
      (isUnaligned phys ≠ 0#64 ∨ isUnaligned virt ≠ 0#64) ∨
        ¬Has flags pageFlagMake ∧ TableMissing s space.pml4e virt) ∧
    ∀ s', mapPage newPagetable space phys virt flags s = .ok (false, s') → s' = s := by
  by_cases ha : isUnaligned phys ≠ 0#64 ∨ isUnaligned virt ≠ 0#64
  case pos =>
    have h : mapPage newPagetable space phys virt flags s = .ok (false, s) := if_pos ha
    refine ⟨iff_of_true ⟨s, h⟩ (.inl ha), fun s' h' => ?_⟩
    rw [h] at h'
    exact (Prod.mk.inj (Except.ok.inj h')).right.symm
  by_cases hm : Has flags pageFlagMake
  case pos =>
    have hne : ¬∃ s', mapPage newPagetable space phys virt flags s = .ok (false, s') := mapPage_make hm ha
    refine ⟨iff_of_false hne ?_, fun s' h => absurd ⟨s', h⟩ hne⟩
    rintro (h | ⟨h, _⟩)
    · exact ha h
    · exact h hm
  case neg =>
    obtain ⟨s₁, h⟩ : ∃ s₁, mapPage newPagetable space phys virt flags s =
        .ok (if TableMissing s space.pml4e virt then (false, s) else (true, s₁)) :=
      mapPage_of_not_make hm ha
    rw [h]
    split
    case isTrue ht =>
      refine ⟨iff_of_true ⟨s, rfl⟩ (.inr ⟨hm, ht⟩), fun s' h' => ?_⟩
      exact (Prod.mk.inj (Except.ok.inj h')).right.symm
    case isFalse ht =>
      refine ⟨iff_of_false ?_ ?_, fun s' h' => by cases h'⟩
      · rintro ⟨_, h⟩
        cases h
      · rintro (h | ⟨_, h⟩)
        · exact ha h
        · exact ht h

end Returns

end RoverOS.Paging
