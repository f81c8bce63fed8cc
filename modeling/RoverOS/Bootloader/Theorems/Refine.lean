import RoverOS.Bootloader.Theorems.Tables

-- The page tables stand for a map of pages, which `mapPage` changes at the page it maps.

open Radix (walk Tree InUse entry)

namespace RoverOS.Bootloader

open Paging

structure MapCall where
  phys    : Word
  virt    : Word
  write   : Bool
  execute : Bool
  deriving DecidableEq, Repr

-- An entry of the upper levels on the way to a page that may be written to, or not.
structure Upper (write : Bool) (e : Word) : Prop where
  linked  : tableBase e ≠ 0#64
  present : e &&& pgPresent ≠ 0#64
  write   : write = true → e &&& pgWrite ≠ 0#64

def leafEntry (c : MapCall) : Word :=
  leafFlags c.write c.execute ||| kalign c.phys

structure Mapped (s : Boot) (virt : Word) (c : MapCall) : Prop where
  upper : ∀ q n, q ++ [n] <+: path virt → ∃ e, entry child s.tables s.pml q n = some e ∧ Upper c.write e
  leaf  : entry child s.tables s.pml (path virt) (pteEntry virt) = some (leafEntry c)

def Unmapped (s : Boot) (virt : Word) : Prop :=
  entry child s.tables s.pml (path virt) (pteEntry virt) = none ∨
    entry child s.tables s.pml (path virt) (pteEntry virt) = some 0#64

structure Represents (s : Boot) (m : Word → Option MapCall) : Prop where
  built    : Built s
  mapped   : ∀ {virt c}, m virt = some c → Mapped s virt c
  unmapped : ∀ {virt}, m virt = none → Unmapped s virt

variable {clearMem : ClearMem} {s s' s₁ : Boot} {e f tbl bits phys virt w : Word} {n j : Index}
variable {p q : List Index} {c : MapCall} {write execute : Bool} {m : Word → Option MapCall}

section Words

theorem samePage_kalign : SamePage (kalign virt) virt := by
  have hm : ∀ i < 64, pageAlign.getLsbD i = decide (12 ≤ i) := by decide
  rw [samePage_iff]
  intro i hl hu
  rw [kalign, BitVec.getLsbD_and, hm i (by omega)]
  simp [hl]

@[simp]
theorem path_kalign : path (kalign virt) = path virt :=
  samePage_kalign.left

@[simp]
theorem pteEntry_kalign : pteEntry (kalign virt) = pteEntry virt :=
  samePage_kalign.right

theorem and_ne_zero_or (h : e &&& bits ≠ 0#64) : (e ||| f) &&& bits ≠ 0#64 := by
  intro hz
  apply h
  apply BitVec.eq_of_getLsbD_eq
  intro i hi
  have hi := congrArg (·.getLsbD i) hz
  simp only [BitVec.getLsbD_and, BitVec.getLsbD_or, BitVec.getLsbD_zero, Bool.and_eq_false_iff,
    Bool.or_eq_false_iff] at hi ⊢
  exact hi.imp_left And.left

theorem tableBase_upperFlags : tableBase (upperFlags write) = 0#64 := by
  cases write <;> decide

theorem Upper.or (u : Upper write e) (hf : tableBase f = 0#64) : Upper write (e ||| f) where
  linked  := by simpa [tableBase_or, hf] using u.linked
  present := and_ne_zero_or u.present
  write h := and_ne_zero_or (u.write h)

-- What an entry of the upper levels is after `mapPage` has put its flags in.
theorem upper_upperFlags (h : tableBase e ≠ 0#64) : Upper write (e ||| upperFlags write) where
  linked  := by simpa [tableBase_or, tableBase_upperFlags] using h
  present := by
    rw [BitVec.or_comm]
    refine and_ne_zero_or ?_
    cases write <;> decide
  write h := by
    rw [BitVec.or_comm]
    refine and_ne_zero_or ?_
    rw [h]
    decide

theorem kalign_and (h : pageAlign &&& bits = 0#64) : kalign phys &&& bits = 0#64 := by
  rw [kalign, BitVec.and_assoc, h, BitVec.and_zero]

theorem kalign_and_pgNx (h : phys.toNat < 2 ^ 52) : kalign phys &&& pgNx = 0#64 := by
  have hz : baseMask &&& pgNx = 0#64 := by decide
  rw [← tableBase_kalign h, tableBase, BitVec.and_assoc, hz, BitVec.and_zero]

theorem leafEntry_and (h : kalign c.phys &&& bits = 0#64) :
    leafEntry c &&& bits = leafFlags c.write c.execute &&& bits := by
  rw [leafEntry, BitVec.and_or_distrib_right, h, BitVec.or_zero]

theorem leafEntry_present : leafEntry c &&& pgPresent ≠ 0#64 := by
  rw [leafEntry_and (kalign_and (by decide))]
  rcases c with ⟨_, _, write, execute⟩
  cases write <;> cases execute <;> simp only <;> decide

theorem tableBase_leafEntry (h : c.phys.toNat < 2 ^ 52) : tableBase (leafEntry c) = kalign c.phys := by
  have hf : tableBase (leafFlags c.write c.execute) = 0#64 := by
    rcases c with ⟨_, _, write, execute⟩
    cases write <;> cases execute <;> simp only <;> decide
  rw [leafEntry, tableBase_or, hf, tableBase_kalign h, BitVec.zero_or]

theorem leafEntry_pgWrite : (leafEntry c &&& pgWrite ≠ 0#64) ↔ c.write = true := by
  rw [leafEntry_and (kalign_and (by decide))]
  rcases c with ⟨_, _, write, execute⟩
  cases write <;> cases execute <;> simp only <;> decide

theorem leafEntry_pgNx (h : c.phys.toNat < 2 ^ 52) :
    (leafEntry c &&& pgNx ≠ 0#64) ↔ c.execute = false := by
  rw [leafEntry_and (kalign_and_pgNx h)]
  rcases c with ⟨_, _, write, execute⟩
  cases write <;> cases execute <;> simp only <;> decide

end Words

-- Flags are put into the entry `e` of the upper levels, which keeps its table.
structure FlagsSet (s : Boot) (q : List Index) (n : Index) (e f : Word) (s' : Boot) : Prop where
  upper : q.length < 3
  flags : tableBase f = 0#64
  built : Built s'
  pml   : s'.pml = s.pml
  walk  : ∀ p, walk child s'.tables s.pml p = walk child s.tables s.pml p
  other : ∀ p j, p.length ≤ 3 → ¬(p = q ∧ j = n) →
    entry child s'.tables s.pml p j = entry child s.tables s.pml p j
  old   : entry child s.tables s.pml q n = some e
  same  : entry child s'.tables s.pml q n = some (e ||| f)

theorem Built.orFlags (b : Built s) (hq : q.length < 3)
    (hw : Radix.walk child s.tables s.pml q = some tbl) (hl : tableBase (s.tables tbl n) ≠ 0#64)
    (hf : tableBase f = 0#64) : FlagsSet s q n (s.tables tbl n) f (s.orEntry tbl n f) := by
  have hchild : child (s.tables tbl n ||| f) = child (s.tables tbl n) := by
    simp [child, tableBase_or, hf]
  have hwalk (p : List Index) :
      Radix.walk child (s.orEntry tbl n f).tables s.pml p = Radix.walk child s.tables s.pml p :=
    Radix.walk_set_of_child_eq hchild p
  have hsame : entry child (s.orEntry tbl n f).tables s.pml q n = some (s.tables tbl n ||| f) :=
    Radix.entry_set_same ((hwalk q).trans hw)
  have hother (p j) (hp : p.length ≤ 3) (hne : ¬(p = q ∧ j = n)) :
      entry child (s.orEntry tbl n f).tables s.pml p j = entry child s.tables s.pml p j :=
    b.tree.entry_set (Set.mem_singleton _) hq.le hw (Set.mem_singleton _) hp (hwalk p) (hne ·.right)
  have hold : entry child s.tables s.pml q n = some (s.tables tbl n) := by rw [entry, hw]; rfl
  refine ⟨hq, hf, ⟨b.tree.of_child_eq hchild,
    ⟨b.bump.base, b.bump.ptr, b.bump.size, b.bump.le, b.bump.block⟩, ?frames, ?blank⟩, rfl, hwalk,
    hother, hold, hsame⟩
  case frames =>
    rintro a ⟨r, rfl, p, hp, ha⟩
    exact b.frames a ⟨_, rfl, p, hp, (hwalk p).symm.trans ha⟩
  case blank =>
    intro p j e hp he hz
    change entry child (s.orEntry tbl n f).tables s.pml p j = some e at he
    by_cases hs : p = q ∧ j = n
    case pos =>
      obtain ⟨rfl, rfl⟩ := hs
      rw [hsame] at he
      cases he
      simp [tableBase_or, hf, hl] at hz
    case neg =>
      rw [hother p j hp.le hs] at he
      exact b.blank p j e hp he hz

theorem Built.setLeaf (b : Built s) (hq : q.length = 3)
    (hw : Radix.walk child s.tables s.pml q = some tbl) :
    Built (s.setEntry tbl n e) ∧ (∀ p j, p.length ≤ 3 → ¬(p = q ∧ j = n) →
        entry child (s.setEntry tbl n e).tables s.pml p j = entry child s.tables s.pml p j) ∧
      entry child (s.setEntry tbl n e).tables s.pml q n = some e := by
  have hwalk (p : List Index) (hp : p.length ≤ 3) :
      Radix.walk child (s.setEntry tbl n e).tables s.pml p = Radix.walk child s.tables s.pml p :=
    b.tree.walk_set (Set.mem_singleton _) hq.le hw (Set.mem_singleton _) (hq ▸ hp)
  have hother (p j) (hp : p.length ≤ 3) (hne : ¬(p = q ∧ j = n)) :
      entry child (s.setEntry tbl n e).tables s.pml p j = entry child s.tables s.pml p j :=
    b.tree.entry_set (Set.mem_singleton _) hq.le hw (Set.mem_singleton _) hp (hwalk p hp)
      (hne ·.right)
  refine ⟨⟨b.tree.set_last (Set.mem_singleton _) hq hw,
    ⟨b.bump.base, b.bump.ptr, b.bump.size, b.bump.le, b.bump.block⟩, ?frames, ?blank⟩, hother,
    Radix.entry_set_same ((hwalk q hq.le).trans hw)⟩
  case frames =>
    rintro a ⟨r, rfl, p, hp, ha⟩
    exact b.frames a ⟨_, rfl, p, hp, (hwalk p hp).symm.trans ha⟩
  case blank =>
    intro p j e' hp he hz
    have hs : ¬(p = q ∧ j = n) := fun h => absurd (h.left ▸ hq) hp.ne
    exact b.blank p j e' hp ((hother p j hp.le hs).symm.trans he) hz

namespace FlagsSet

theorem keeps_upper (u : FlagsSet s q n e f s')
    (h : ∃ e, entry child s.tables s.pml p j = some e ∧ Upper write e) (hp : p.length < 3) :
    ∃ e, entry child s'.tables s'.pml p j = some e ∧ Upper write e := by
  have ⟨e', he, hu⟩ := h
  rw [u.pml]
  by_cases hs : p = q ∧ j = n
  case pos =>
    obtain ⟨rfl, rfl⟩ := hs
    rw [u.old] at he
    cases he
    exact ⟨_, u.same, hu.or u.flags⟩
  case neg => exact ⟨e', (u.other p j hp.le hs).trans he, hu⟩

theorem leaf (u : FlagsSet s q n e f s') (hp : p.length = 3) :
    entry child s'.tables s'.pml p j = entry child s.tables s.pml p j := by
  have hs : ¬(p = q ∧ j = n) := fun h => absurd (h.left ▸ hp) u.upper.ne
  rw [u.pml, u.other p j hp.le hs]

end FlagsSet

theorem linkTable_supply (h : linkTable clearMem tbl n s = .ok s') :
    (supply s').Perm (supply s) := by
  unfold linkTable at h
  split at h
  case isFalse => cases h; exact .refl _
  case isTrue =>
    have ⟨⟨f, s₁⟩, ha, h⟩ := Except.bind_ok_iff.mp h
    simp only at h
    split at h
    case isFalse => cases h
    case isTrue =>
      cases h
      have hs : (supply s₁).Perm (supply s) := pgAlloc_supply ha
      exact hs

theorem mapPage_supply (h : mapPage clearMem phys virt write execute s = .ok s') :
    (supply s').Perm (supply s) := by
  have ⟨s₁, h₁, h⟩ := Except.bind_ok_iff.mp h
  have ⟨s₂, h₂, h⟩ := Except.bind_ok_iff.mp h
  have ⟨s₃, h₃, h⟩ := Except.bind_ok_iff.mp h
  cases h
  have h₃ : (supply s₃).Perm (supply s₂) := linkTable_supply h₃
  exact h₃.trans ((linkTable_supply h₂).trans (linkTable_supply h₁))

theorem linkTable_blocks (h : linkTable clearMem tbl n s = .ok s') : s.blocks.Sublist s'.blocks := by
  unfold linkTable at h
  split at h
  case isFalse => cases h; exact .refl _
  case isTrue =>
    have ⟨⟨f, s₁⟩, ha, h⟩ := Except.bind_ok_iff.mp h
    simp only at h
    split at h
    case isFalse => cases h
    case isTrue =>
      cases h
      exact (pgAlloc_blocks ha).sublist

-- The state after `mapPage`, from the one after its links.
def finish (pdpe pde pte virt phys : Word) (write execute : Bool) (s : Boot) : Boot :=
  s.orEntry s.pml (pmlEntry virt) (upperFlags write)
    |>.orEntry pdpe (pdpeEntry virt) (upperFlags write)
    |>.orEntry pde (pdeEntry virt) (upperFlags write)
    |>.setEntry pte (pteEntry virt) (leafFlags write execute ||| phys)

-- The tables along the path of a page are there.
structure Linked (s : Boot) (virt pdpe pde pte : Word) : Prop where
  pdpe : walk child s.tables s.pml [pmlEntry virt] = some pdpe
  pde  : walk child s.tables s.pml [pmlEntry virt, pdpeEntry virt] = some pde
  pte  : walk child s.tables s.pml (path virt) = some pte

theorem mapPage_ok (hc : Clears clearMem) (b : Built s)
    (h : mapPage clearMem phys virt write execute s = .ok s') (hf : Fresh s'.blocks) :
    ∃ s₃ pdpe pde pte, Built s₃ ∧ Extends s s₃ ∧ Linked s₃ (kalign virt) pdpe pde pte ∧
      s' = finish pdpe pde pte (kalign virt) (kalign phys) write execute s₃ := by
  have ⟨s₁, h₁, h⟩ := Except.bind_ok_iff.mp h
  have ⟨s₂, h₂, h⟩ := Except.bind_ok_iff.mp h
  have ⟨s₃, h₃, h⟩ := Except.bind_ok_iff.mp h
  cases h
  have hf₃ : Fresh s₃.blocks := hf
  have hf₂ := hf₃.sublist (linkTable_blocks h₃)
  have hf₁ := hf₂.sublist (linkTable_blocks h₂)
  have ⟨b₁, x₁, w₁⟩ := b.linkTable hc (q := []) (by decide) rfl h₁ hf₁
  rw [← x₁.pml] at w₁
  have ⟨b₂, x₂, w₂⟩ := b₁.linkTable hc (q := [pmlEntry (kalign virt)]) (by simp) w₁ h₂ hf₂
  have ⟨b₃, x₃, w₃⟩ := b₂.linkTable hc (q := [pmlEntry (kalign virt), pdpeEntry (kalign virt)])
    (by simp) w₂ h₃ hf₃
  have w₂' := x₃.walk_pml (by simp) w₂
  have w₁' := (x₂.trans x₃).walk_pml (by simp) w₁
  exact ⟨s₃, _, _, _, b₃, x₁.trans (x₂.trans x₃), ⟨w₁', w₂', w₃⟩, rfl⟩

theorem linked_of_walk (hw : walk child s.tables s.pml q = some tbl)
    (h : walk child s.tables s.pml (q ++ [n]) = some f) : tableBase (s.tables tbl n) ≠ 0#64 := by
  intro hz
  rw [Radix.walk_concat, hw] at h
  simp [child, hz] at h

-- The first three writes of `mapPage`, and the fourth.
theorem Built.finish (b : Built s) {pdpe pde pte : Word} (l : Linked s virt pdpe pde pte) :
    ∃ s₁ s₂ s₃ e₁ e₂ e₃, tableBase e₁ ≠ 0#64 ∧ tableBase e₂ ≠ 0#64 ∧ tableBase e₃ ≠ 0#64 ∧
      FlagsSet s [] (pmlEntry virt) e₁ (upperFlags write) s₁ ∧
      FlagsSet s₁ [pmlEntry virt] (pdpeEntry virt) e₂ (upperFlags write) s₂ ∧
      FlagsSet s₂ [pmlEntry virt, pdpeEntry virt] (pdeEntry virt) e₃ (upperFlags write) s₃ ∧
      walk child s₃.tables s₃.pml (path virt) = some pte ∧
      Bootloader.finish pdpe pde pte virt phys write execute s =
        s₃.setEntry pte (pteEntry virt) (leafFlags write execute ||| phys) := by
  let s₁ := s.orEntry s.pml (pmlEntry virt) (upperFlags write)
  let s₂ := s₁.orEntry pdpe (pdpeEntry virt) (upperFlags write)
  let s₃ := s₂.orEntry pde (pdeEntry virt) (upperFlags write)
  have h₁ := linked_of_walk (q := []) rfl l.pdpe
  have u₁ : FlagsSet s [] _ _ _ s₁ := b.orFlags (by simp) rfl h₁ tableBase_upperFlags
  have w₁ (p : List Index) : walk child s₁.tables s₁.pml p = walk child s.tables s.pml p := u₁.walk p
  have l₁ : Linked s₁ virt pdpe pde pte := ⟨(w₁ _).trans l.pdpe, (w₁ _).trans l.pde, (w₁ _).trans l.pte⟩
  have h₂ := linked_of_walk (q := [pmlEntry virt]) l₁.pdpe l₁.pde
  have u₂ : FlagsSet s₁ _ _ _ _ s₂ := u₁.built.orFlags (by simp) l₁.pdpe h₂ tableBase_upperFlags
  have w₂ (p : List Index) : walk child s₂.tables s₂.pml p = walk child s₁.tables s₁.pml p := u₂.walk p
  have l₂ : Linked s₂ virt pdpe pde pte :=
    ⟨(w₂ _).trans l₁.pdpe, (w₂ _).trans l₁.pde, (w₂ _).trans l₁.pte⟩
  have h₃ := linked_of_walk (q := [pmlEntry virt, pdpeEntry virt]) l₂.pde l₂.pte
  have u₃ : FlagsSet s₂ _ _ _ _ s₃ := u₂.built.orFlags (by simp) l₂.pde h₃ tableBase_upperFlags
  exact ⟨s₁, s₂, s₃, _, _, _, h₁, h₂, h₃, u₁, u₂, u₃, (u₃.walk _).trans l₂.pte, rfl⟩

theorem prefix_path (h : q ++ [n] <+: path virt) :
    q = [] ∧ n = pmlEntry virt ∨ q = [pmlEntry virt] ∧ n = pdpeEntry virt ∨
      q = [pmlEntry virt, pdpeEntry virt] ∧ n = pdeEntry virt := by
  have hlen := h.length_le
  have ⟨t, ht⟩ := h
  simp only [List.length_append, List.length_singleton, path_length] at hlen
  match q with
  | []        => simp_all [path]
  | [_]       => simp_all [path]
  | [_, _]    => simp_all [path]
  | _ :: _ :: _ :: _ => simp at hlen; omega

theorem Represents.congr {m' : Word → Option MapCall} (r : Represents s m) (h : ∀ v, m' v = m v) :
    Represents s m' :=
  (funext h : m' = m) ▸ r

def HasUpper (s : Boot) (p : List Index) (j : Index) (write : Bool) : Prop :=
  ∃ e, entry child s.tables s.pml p j = some e ∧ Upper write e

-- The entry of a page.
def leafAt (s : Boot) (virt : Word) : Option Word :=
  entry child s.tables s.pml (path virt) (pteEntry virt)

-- What `mapPage` does, from the state `s₀` after its links.
structure Maps (c : MapCall) (s s₀ s' : Boot) : Prop where
  links  : Extends s s₀
  built  : Built s'
  upper  : ∀ {q n write}, q.length < 3 → HasUpper s₀ q n write → HasUpper s' q n write
  onPath : ∀ {q n}, q ++ [n] <+: path c.virt → HasUpper s' q n c.write
  other  : ∀ {v}, ¬SamePage v c.virt → leafAt s' v = leafAt s₀ v
  page   : ∀ {v}, SamePage v c.virt → leafAt s' v = some (leafEntry c)

theorem Built.maps (hc : Clears clearMem) (b : Built s)
    (h : mapPage clearMem c.phys c.virt c.write c.execute s = .ok s') (hf : Fresh s'.blocks) :
    ∃ s₀, Maps c s s₀ s' := by
  have ⟨s₀, pdpe, pde, pte, b, x, l, he⟩ := mapPage_ok hc b h hf
  have ⟨s₁, s₂, s₃, e₁, e₂, e₃, h₁, h₂, h₃, u₁, u₂, u₃, hw, hfin⟩ :=
    @Built.finish _ (kalign c.phys) _ c.write c.execute b _ _ _ l
  have he : s' = s₃.setEntry pte (pteEntry (kalign c.virt)) (leafEntry c) := he.trans hfin
  subst he
  have ⟨b', hother, hsame⟩ := u₃.built.setLeaf (n := pteEntry (kalign c.virt)) (e := leafEntry c) rfl hw
  -- Flags that are set stay set through the writes that follow.
  have k₃ {p j write} (hp : p.length < 3) (hu : HasUpper s₃ p j write) :
      HasUpper (s₃.setEntry pte (pteEntry (kalign c.virt)) (leafEntry c)) p j write := by
    have ⟨e, he, hu⟩ := hu
    have hne : ¬(p = path (kalign c.virt) ∧ j = pteEntry (kalign c.virt)) := fun h =>
      absurd (congrArg List.length h.left) hp.ne
    exact ⟨e, (hother p j hp.le hne).trans he, hu⟩
  have k₂ {p j write} (hp : p.length < 3) (hu : HasUpper s₂ p j write) := k₃ hp (u₃.keeps_upper hu hp)
  have k₁ {p j write} (hp : p.length < 3) (hu : HasUpper s₁ p j write) := k₂ hp (u₂.keeps_upper hu hp)
  refine ⟨s₀, x, b', fun hp hu => k₁ hp (u₁.keeps_upper hu hp), fun {q n} hq => ?onPath, fun {v} hv => ?other,
    fun {v} hv => ?page⟩
  case onPath =>
    rw [← path_kalign] at hq
    rcases prefix_path hq with ⟨rfl, rfl⟩ | ⟨rfl, rfl⟩ | ⟨rfl, rfl⟩
    · exact k₁ (by simp) ⟨_, u₁.pml ▸ u₁.same, upper_upperFlags h₁⟩
    · exact k₂ (by simp) ⟨_, u₂.pml ▸ u₂.same, upper_upperFlags h₂⟩
    · exact k₃ (by simp) ⟨_, u₃.pml ▸ u₃.same, upper_upperFlags h₃⟩
  case other =>
    have hne : ¬(path v = path (kalign c.virt) ∧ pteEntry v = pteEntry (kalign c.virt)) := by
      rwa [path_kalign, pteEntry_kalign]
    have hl : leafAt (s₃.setEntry pte (pteEntry (kalign c.virt)) (leafEntry c)) v = leafAt s₃ v :=
      hother _ _ (by simp) hne
    rw [hl, leafAt, leafAt, u₃.leaf rfl, u₂.leaf rfl, u₁.leaf rfl]
  case page =>
    have hp : path v = path (kalign c.virt) := hv.left.trans path_kalign.symm
    have hn : pteEntry v = pteEntry (kalign c.virt) := hv.right.trans pteEntry_kalign.symm
    rw [leafAt, hp, hn]
    exact hsame

namespace Extends

theorem leafAt_eq (x : Extends s s') (h : leafAt s virt = some e) : leafAt s' virt = some e := by
  rw [leafAt, x.pml]
  exact x.entry _ _ _ (by simp) h (.inl rfl)

theorem leafAt_new (x : Extends s s') (h : leafAt s virt = none) :
    leafAt s' virt = none ∨ leafAt s' virt = some 0#64 := by
  rw [leafAt, x.pml]
  exact x.new _ _ rfl h

end Extends

-- `mapPage` changes the map at the page it maps.
theorem Represents.mapPage (hc : Clears clearMem) (r : Represents s m)
    (h : mapPage clearMem c.phys c.virt c.write c.execute s = .ok s') (hf : Fresh s'.blocks) :
    Represents s' fun v => if SamePage v c.virt then some c else m v := by
  have ⟨s₀, k⟩ := r.built.maps hc h hf
  refine ⟨k.built, fun {v c'} hm => ?mapped, fun {v} hm => ?unmapped⟩
  case mapped =>
    split at hm
    case isTrue hv =>
      cases hm
      exact ⟨fun q n hq => k.onPath (hv.left ▸ hq), k.page hv⟩
    case isFalse hv =>
      have old := r.mapped hm
      constructor
      case upper =>
        intro q n hq
        have hlen : q.length < 3 := by simpa [Nat.lt_succ_iff] using hq.length_le
        have ⟨e, he, hu⟩ := old.upper q n hq
        have he := k.links.entry q n e hlen.le he (.inr hu.linked)
        exact k.upper hlen ⟨e, k.links.pml ▸ he, hu⟩
      case leaf => exact (k.other hv).trans (k.links.leafAt_eq old.leaf)
  case unmapped =>
    split at hm
    case isTrue     => cases hm
    case isFalse hv =>
      change leafAt s' v = none ∨ leafAt s' v = some 0#64
      rw [k.other hv]
      cases r.unmapped hm
      case inl h => exact k.links.leafAt_new h
      case inr h => exact .inr (k.links.leafAt_eq h)

end RoverOS.Bootloader
