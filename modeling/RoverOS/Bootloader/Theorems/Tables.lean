import RoverOS.Bootloader.Theorems.Bump
import RoverOS.Paging.Theorems.Pages

-- The page tables that `mapPage` builds, as a radix tree of frames from `pgAlloc`.

open Radix (walk Tree InUse entry walk_congr entry_congr)

namespace RoverOS.Bootloader

open Paging

-- The tables in use are frames that were given out, and an entry without a table is all zero.
structure Built (s : Boot) : Prop where
  tree   : Tree child s.tables {s.pml} 3
  bump   : Bump s
  frames : ∀ a, InUse child s.tables {s.pml} 3 a → a.toNat % 0x1000 = 0 ∧ Issued s a.toNat
  blank  : ∀ q n e, q.length < 3 → entry child s.tables s.pml q n = some e →
    tableBase e = 0#64 → e = 0#64

-- What is linked or mapped stays so, and new tables map nothing.
structure Extends (s s' : Boot) : Prop where
  pml   : s'.pml = s.pml
  walk  : ∀ p a, p.length ≤ 3 → walk child s.tables s.pml p = some a →
    Radix.walk child s'.tables s.pml p = some a
  entry : ∀ q n e, q.length ≤ 3 → entry child s.tables s.pml q n = some e →
    q.length = 3 ∨ tableBase e ≠ 0#64 → Radix.entry child s'.tables s.pml q n = some e
  new   : ∀ q n, q.length = 3 → Radix.entry child s.tables s.pml q n = none →
    Radix.entry child s'.tables s.pml q n = none ∨ Radix.entry child s'.tables s.pml q n = some 0#64

variable {clearMem : ClearMem} {s s' s₁ s₂ s₃ : Boot} {a e f tbl flags : Word} {n j : Index}
variable {p q : List Index}

namespace Extends

theorem refl (s : Boot) : Extends s s :=
  ⟨rfl, fun _ _ _ h => h, fun _ _ _ _ h _ => h, fun _ _ _ h => .inl h⟩

theorem trans (h₁ : Extends s₁ s₂) (h₂ : Extends s₂ s₃) : Extends s₁ s₃ where
  pml             := h₂.pml.trans h₁.pml
  walk p a hp h   := h₁.pml ▸ h₂.walk p a hp (h₁.pml ▸ h₁.walk p a hp h)
  entry q n e hq h hl :=
    h₁.pml ▸ h₂.entry q n e hq (h₁.pml ▸ h₁.entry q n e hq h hl) hl
  new q n hq h := by
    have h₂n := h₂.new q n hq
    have h₂e := h₂.entry q n 0#64 hq.le
    rw [h₁.pml] at h₂n h₂e
    cases h₁.new q n hq h
    case inl h => exact h₂n h
    case inr h => exact .inr (h₂e h (.inl hq))

theorem walk_pml (x : Extends s s') (hp : p.length ≤ 3)
    (h : Radix.walk child s.tables s.pml p = some a) :
    Radix.walk child s'.tables s'.pml p = some a := by
  rw [x.pml]
  exact x.walk p a hp h

end Extends

section Alloc

variable (hc : Clears clearMem) (b : Built s) (h : Bootloader.pgAlloc clearMem s = .ok (f, s'))
variable (hf : Fresh s'.blocks)

include hc b h hf

-- Clearing a new frame touches no table.
theorem Built.pgAlloc_tables (ha : InUse child s.tables {s.pml} 3 a) : s'.tables a = s.tables a := by
  have g := b.bump.pgAlloc h hf
  have ⟨hmod, hi⟩ := b.frames a ha
  have hne : a.toNat ≠ f.toNat := fun he => g.frame.unused (he ▸ hi)
  have hfm := g.frame.aligned
  rw [g.tables]
  exact hc.other (by omega)

theorem Built.pgAlloc_walk (hp : p.length ≤ 3) :
    walk child s'.tables s.pml p = walk child s.tables s.pml p :=
  walk_congr (fun _ ha => b.pgAlloc_tables hc h hf ha) (Set.mem_singleton _) hp

theorem Built.pgAlloc_entry (hq : q.length ≤ 3) :
    entry child s'.tables s.pml q n = entry child s.tables s.pml q n :=
  entry_congr (fun _ ha => b.pgAlloc_tables hc h hf ha) (Set.mem_singleton _) hq

theorem Built.pgAlloc_inUse :
    InUse child s'.tables {s'.pml} 3 a ↔ InUse child s.tables {s.pml} 3 a := by
  rw [(b.bump.pgAlloc h hf).pml]
  constructor
  case mp =>
    rintro ⟨r, rfl, p, hp, ha⟩
    exact ⟨_, rfl, p, hp, b.pgAlloc_walk hc h hf hp ▸ ha⟩
  case mpr =>
    rintro ⟨r, rfl, p, hp, ha⟩
    exact ⟨_, rfl, p, hp, (b.pgAlloc_walk hc h hf hp).trans ha⟩

theorem Built.pgAlloc : Built s' where
  tree := by
    rw [(b.bump.pgAlloc h hf).pml]
    exact b.tree.congr fun a ha => b.pgAlloc_tables hc h hf ha
  bump := (b.bump.pgAlloc h hf).bump
  frames a ha := by
    have ⟨hmod, hi⟩ := b.frames a ((b.pgAlloc_inUse hc h hf).mp ha)
    exact ⟨hmod, (b.bump.pgAlloc h hf).keeps _ hi⟩
  blank q n e hq he hb := by
    rw [(b.bump.pgAlloc h hf).pml, b.pgAlloc_entry hc h hf hq.le] at he
    exact b.blank q n e hq he hb

theorem Built.pgAlloc_extends : Extends s s' where
  pml              := (b.bump.pgAlloc h hf).pml
  walk _ _ hp hw   := (b.pgAlloc_walk hc h hf hp).trans hw
  entry _ _ _ hq he _ := (b.pgAlloc_entry hc h hf hq).trans he
  new _ _ hq he    := .inl ((b.pgAlloc_entry hc h hf hq.le).trans he)

end Alloc

-- A frame that can be linked: cleared, and in no walk.
structure Linkable (s : Boot) (f : Word) : Prop where
  nonzero : f ≠ 0#64
  base    : tableBase f = f
  aligned : f.toNat % 0x1000 = 0
  issued  : Issued s f.toNat
  unused  : ¬InUse child s.tables {s.pml} 3 f
  blank   : ∀ i, s.tables f i = 0#64

theorem Built.linkable (hc : Clears clearMem) (b : Built s)
    (h : Bootloader.pgAlloc clearMem s = .ok (f, s')) (hf : Fresh s'.blocks) : Linkable s' f := by
  have g := b.bump.pgAlloc h hf
  refine ⟨g.frame.nonzero, g.frame.base, g.frame.aligned, g.issued, fun hu => ?_, fun i => ?_⟩
  · have ⟨_, hi⟩ := b.frames f ((b.pgAlloc_inUse hc h hf).mp hu)
    exact g.frame.unused hi
  · rw [g.tables]
    exact hc.same le_rfl i

section Link

variable (b : Built s) (hq : q.length < 3) (hw : walk child s.tables s.pml q = some tbl)
variable (hb : tableBase (s.tables tbl n) = 0#64) (l : Linkable s f)

include b hq hw hb l

theorem Built.link_walk_new : walk child (s.orEntry tbl n f).tables s.pml (q ++ [n]) = some f :=
  b.tree.walk_link_new (Set.mem_singleton _) hq hw (child_link hb l.base l.nonzero)

theorem Built.link_walk (hp : p.length ≤ 3) (hne : p ≠ q ++ [n]) :
    walk child (s.orEntry tbl n f).tables s.pml p = walk child s.tables s.pml p :=
  b.tree.walk_link (Set.mem_singleton _) hq hw (child_link hb l.base l.nonzero)
    (child_eq_none_iff.mpr hb) l.unused (fun _ i => by simp [l.blank, child]) (Set.mem_singleton _)
    hp (hne ·.right)

theorem Built.link_entry (hp : p.length ≤ 3) (hne : p ≠ q ++ [n]) (hj : ¬(p = q ∧ j = n)) :
    entry child (s.orEntry tbl n f).tables s.pml p j = entry child s.tables s.pml p j :=
  b.tree.entry_set (Set.mem_singleton _) hq.le hw (Set.mem_singleton _) hp
    (b.link_walk hq hw hb l hp hne) (hj ·.right)

-- The new table is empty.
theorem Built.link_entry_new :
    entry child (s.orEntry tbl n f).tables s.pml (q ++ [n]) j = some 0#64 := by
  have hne : f ≠ tbl := by
    rintro rfl
    exact l.unused ⟨_, Set.mem_singleton _, q, hq.le, hw⟩
  rw [entry, b.link_walk_new hq hw hb l, Option.map_some]
  simp [Boot.orEntry, Boot.setEntry, Radix.Tables.set_of_ne_table hne, l.blank]

theorem Built.link : Built (s.orEntry tbl n f) where
  tree := b.tree.link (Set.mem_singleton _) hq hw (child_link hb l.base l.nonzero)
    (child_eq_none_iff.mpr hb) l.unused (fun _ i => by simp [l.blank, child])
  bump := ⟨b.bump.base, b.bump.ptr, b.bump.size, b.bump.le, b.bump.block⟩
  frames a ha := by
    cases b.tree.inUse_link (Set.mem_singleton _) hq hw (child_link hb l.base l.nonzero)
      (child_eq_none_iff.mpr hb) l.unused (fun _ i => by simp [l.blank, child]) ha
    case inl h =>
      subst h
      exact ⟨l.aligned, l.issued⟩
    case inr h => exact b.frames a h
  blank p j e hp he hz := by
    change entry child (s.orEntry tbl n f).tables s.pml p j = some e at he
    by_cases hnew : p = q ++ [n]
    case pos =>
      subst hnew
      rw [b.link_entry_new hq hw hb l] at he
      exact (Option.some.inj he).symm
    case neg =>
      by_cases hs : p = q ∧ j = n
      case pos =>
        obtain ⟨rfl, rfl⟩ := hs
        have hw' := b.link_walk hq hw hb l hq.le hnew
        rw [hw] at hw'
        rw [entry, hw'] at he
        simp only [Boot.orEntry, Boot.setEntry, Option.map_some, Radix.Tables.set_same,
          Option.some.injEq] at he
        rw [← he, tableBase_link hb l.base] at hz
        exact absurd hz l.nonzero
      case neg =>
        rw [b.link_entry hq hw hb l hp.le hnew hs] at he
        exact b.blank p j e hp he hz

theorem Built.link_extends : Extends s (s.orEntry tbl n f) where
  pml := rfl
  walk p a hp ha := by
    have hne : p ≠ q ++ [n] := by
      rintro rfl
      rw [Radix.walk_concat, hw] at ha
      simp [child, hb] at ha
    rw [b.link_walk hq hw hb l hp hne, ha]
  entry p j e hp he hl := by
    have hne : p ≠ q ++ [n] := by
      rintro rfl
      rw [entry, Radix.walk_concat, hw] at he
      simp [child, hb] at he
    have hs : ¬(p = q ∧ j = n) := by
      rintro ⟨rfl, rfl⟩
      rw [entry, hw] at he
      cases he
      exact hl.elim (fun h => absurd h hq.ne) (fun h => h hb)
    rw [b.link_entry hq hw hb l hp hne hs, he]
  new p j hp he := by
    by_cases hnew : p = q ++ [n]
    case pos =>
      subst hnew
      exact .inr (b.link_entry_new hq hw hb l)
    case neg =>
      have hs : ¬(p = q ∧ j = n) := fun h => absurd (h.left ▸ hp) hq.ne
      exact .inl (by rw [b.link_entry hq hw hb l hp.le hnew hs, he])

end Link

-- What one link of `mapPage` does, when it has to link a table and when it has not.
theorem Built.linkTable (hc : Clears clearMem) (b : Built s) (hq : q.length < 3)
    (hw : walk child s.tables s.pml q = some tbl) (h : linkTable clearMem tbl n s = .ok s')
    (hf : Fresh s'.blocks) :
    Built s' ∧ Extends s s' ∧
      walk child s'.tables s'.pml (q ++ [n]) = some (tableBase (s'.tables tbl n)) := by
  unfold Bootloader.linkTable at h
  split at h
  case isFalse hb =>
    cases h
    refine ⟨b, .refl s, ?_⟩
    simp [Radix.walk_concat, hw, child_eq_some hb]
  case isTrue hb =>
    have ⟨⟨f, s₁⟩, ha, h⟩ := Except.bind_ok_iff.mp h
    simp only at h
    split at h
    case isFalse => cases h
    case isTrue hs =>
      cases h
      have b₁ := b.pgAlloc hc ha hf
      have x₁ := b.pgAlloc_extends hc ha hf
      have l := b.linkable hc ha hf
      have hw₁ := x₁.walk q tbl hq.le hw
      rw [← x₁.pml] at hw₁
      rw [← hs] at hb
      rw [l.base]
      refine ⟨b₁.link hq hw₁ hb l, x₁.trans (b₁.link_extends hq hw₁ hb l), ?_⟩
      change walk child (s₁.orEntry tbl n f).tables s₁.pml (q ++ [n]) = _
      rw [b₁.link_walk_new hq hw₁ hb l]
      simp [Boot.orEntry, Boot.setEntry, tableBase_link hb l.base]

end RoverOS.Bootloader
