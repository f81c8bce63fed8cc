import RoverOS.Library.Sweep
import RoverOS.Paging.Theorems.Walk

-- The writes that `mapPage` makes to the page tables: linking a fresh table, adding flags to the
-- upper levels, and writing the leaf.

open Radix (walk Tree InUse walk_concat)
open Sweep (Kept)

namespace RoverOS.Paging

-- What a space translates `virt` to, as `virtToPhysInt` reads it.
def translate (s : Vm) (root virt : Word) : Word :=
  tableBase ((leaf s root virt).getD 0#64)

def SamePage (v w : Word) : Prop :=
  path v = path w ∧ pteEntry v = pteEntry w

instance (v w : Word) : Decidable (SamePage v w) :=
  inferInstanceAs (Decidable (_ ∧ _))

-- A frame that is none of the tables.
structure Spare (roots : Set Word) (s : Vm) (f : Word) : Prop where
  nonzero : f ≠ 0#64
  aligned : tableBase f = f
  unused  : ¬InUse child s.tables roots 3 f

-- A frame that designates nothing when it is read as a table.
def Blank (s : Vm) (f : Word) : Prop :=
  ∀ j, tableBase (s.tables f j) = 0#64

variable {roots : Set Word} {s s' : Vm} {r r' tbl f g e flags virt w : Word} {n : Index} {p q : List Index}

@[simp]
theorem path_length : (path virt).length = 3 :=
  rfl

theorem translate_of_kept (h : Kept (tableBase · = 0#64) (leaf s r w) (leaf s' r w)) :
    translate s' r w = translate s r w := by
  unfold translate
  rcases h with h | ⟨hn, e, he, hb⟩
  case inl => rw [h]
  case inr => simp [hn, he, hb]

theorem Spare.ne_of_inUse (hf : Spare roots s f) (h : InUse child s.tables roots 3 tbl) : f ≠ tbl :=
  fun he => hf.unused (he ▸ h)

theorem Spare.of_tables_eq (hf : Spare roots s f) (h : s'.tables = s.tables) : Spare roots s' f :=
  ⟨hf.nonzero, hf.aligned, h ▸ hf.unused⟩

-- The tables that are written are in use.
theorem Spare.contents (hf : Spare roots s f) (h : InUse child s.tables roots 3 tbl) :
    (s.setEntry tbl n e).tables f = s.tables f :=
  funext fun _ => Radix.Tables.set_of_ne_table (hf.ne_of_inUse h)

section Link

variable (t : Tree child s.tables roots 3) (hr : r ∈ roots) (hq : q.length < 3)
variable (hw : walk child s.tables r q = some tbl) (hb : tableBase (s.tables tbl n) = 0#64)
variable (hf : Spare roots s f) (hz : q.length + 1 < 3 → Blank s f)

include t hr hq hw hb hf

theorem Spare.walk_link_new : walk child (s.orEntry tbl n f).tables r (q ++ [n]) = some f :=
  t.walk_link_new hr hq hw (child_link hb hf.aligned hf.nonzero)

omit t hr hq hf in
theorem walk_link_none : walk child s.tables r (q ++ [n]) = none := by
  simp [walk_concat, hw, child_eq_none_iff.mpr hb]

include hz

theorem Spare.tree_link : Tree child (s.orEntry tbl n f).tables roots 3 :=
  t.link hr hq hw (child_link hb hf.aligned hf.nonzero) (child_eq_none_iff.mpr hb) hf.unused
    (fun h j => child_eq_none_iff.mpr (hz h j))

theorem Spare.walk_link (hr' : r' ∈ roots) (hp : p.length ≤ 3) (h : ¬(r' = r ∧ p = q ++ [n])) :
    walk child (s.orEntry tbl n f).tables r' p = walk child s.tables r' p :=
  t.walk_link hr hq hw (child_link hb hf.aligned hf.nonzero) (child_eq_none_iff.mpr hb) hf.unused
    (fun h j => child_eq_none_iff.mpr (hz h j)) hr' hp h

theorem Spare.walk_link_extends {a : Word} (hr' : r' ∈ roots) (hp : p.length ≤ 3)
    (h : walk child s.tables r' p = some a) :
    walk child (s.orEntry tbl n f).tables r' p = some a := by
  by_cases hs : r' = r ∧ p = q ++ [n]
  case pos =>
    rw [hs.left, hs.right, walk_link_none hw hb] at h
    cases h
  case neg => rw [hf.walk_link t hr hq hw hb hz hr' hp hs, h]

-- Other spare frames stay spare.
theorem Spare.link (hg : Spare roots s g) (hne : g ≠ f) : Spare roots (s.orEntry tbl n f) g where
  nonzero := hg.nonzero
  aligned := hg.aligned
  unused h :=
    have h := t.inUse_link hr hq hw (child_link hb hf.aligned hf.nonzero) (child_eq_none_iff.mpr hb)
      hf.unused (fun h j => child_eq_none_iff.mpr (hz h j)) h
    hg.unused (h.resolve_left hne)

-- The frames behind `f` in a pool.
theorem Spare.link_rest {items : List Word} (hnd : (f :: items).Nodup) (hs : ∀ g ∈ items, Spare roots s g) :
    ∀ g ∈ items, Spare roots (s.orEntry tbl n f) g := by
  intro g hg
  refine hf.link t hr hq hw hb hz (hs g hg) ?_
  rintro rfl
  exact (List.nodup_cons.mp hnd).left hg

-- A table linked without an entry in it for `w` does not map `w`.
theorem Spare.leaf_link (hr' : r' ∈ roots)
    (hl : r' = r → path w = q ++ [n] → tableBase (s.tables f (pteEntry w)) = 0#64) :
    Kept (tableBase · = 0#64) (leaf s r' w) (leaf (s.orEntry tbl n f) r' w) := by
  have hft : f ≠ tbl := hf.ne_of_inUse ⟨r, hr, q, hq.le, hw⟩
  unfold leaf
  by_cases hs : r' = r ∧ path w = q ++ [n]
  case pos =>
    have hl := hl hs.left hs.right
    rw [hs.left, hs.right, hf.walk_link_new t hr hq hw hb, walk_link_none hw hb]
    exact .inr ⟨rfl, _, rfl, by simp [Radix.Tables.set_of_ne_table hft, hl]⟩
  case neg =>
    rw [hf.walk_link t hr hq hw hb hz hr' (by simp) hs]
    cases hp : walk child s.tables r' (path w)
    case none => exact .refl _
    case some pt =>
      have hpt : pt ≠ tbl := by
        rintro rfl
        obtain ⟨_, h⟩ := t hr hr' hq.le (by simp) hw hp
        simp [h] at hq
      refine .inl ?_
      simp [Radix.Tables.set_of_ne_table hpt]

theorem Spare.translate_link (hr' : r' ∈ roots)
    (hl : r' = r → path w = q ++ [n] → tableBase (s.tables f (pteEntry w)) = 0#64) :
    translate (s.orEntry tbl n f) r' w = translate s r' w :=
  translate_of_kept (hf.leaf_link t hr hq hw hb hz hr' hl)

end Link

section Flags

variable (t : Tree child s.tables roots 3)

theorem walk_orFlags :
    walk child (s.orEntry tbl n (tableFlags flags)).tables r p = walk child s.tables r p :=
  Radix.walk_set_of_child_eq child_or_tableFlags p

include t

theorem tree_orFlags : Tree child (s.orEntry tbl n (tableFlags flags)).tables roots 3 :=
  t.of_child_eq child_or_tableFlags

theorem leaf_orFlags (hr : r ∈ roots) (hq : q.length < 3) (hw : walk child s.tables r q = some tbl)
    (hr' : r' ∈ roots) : leaf (s.orEntry tbl n (tableFlags flags)) r' w = leaf s r' w := by
  unfold leaf
  rw [walk_orFlags]
  cases hp : walk child s.tables r' (path w)
  case none => rfl
  case some pt =>
    have hpt : pt ≠ tbl := by
      rintro rfl
      have ⟨_, h⟩ := t hr hr' hq.le (by simp) hw hp
      simp [h] at hq
    simp [Radix.Tables.set_of_ne_table hpt]

end Flags

section Leaf

variable (t : Tree child s.tables roots 3) (hr : r ∈ roots)
variable (hw : walk child s.tables r (path virt) = some tbl)

include t hr hw

theorem walk_setLeaf (hr' : r' ∈ roots) (hp : p.length ≤ 3) :
    walk child (s.setEntry tbl n e).tables r' p = walk child s.tables r' p :=
  t.walk_set hr (by simp) hw hr' hp

theorem leaf_setLeaf_same : leaf (s.setEntry tbl (pteEntry virt) e) r virt = some e := by
  rw [leaf, walk_setLeaf t hr hw hr (by simp), hw]
  simp

theorem leaf_setLeaf (hr' : r' ∈ roots) (h : ¬(r' = r ∧ SamePage w virt)) :
    leaf (s.setEntry tbl (pteEntry virt) e) r' w = leaf s r' w := by
  rw [leaf, leaf, walk_setLeaf t hr hw hr' (by simp)]
  cases hp : walk child s.tables r' (path w)
  case none => rfl
  case some pt =>
    have hpt : ¬(pt = tbl ∧ pteEntry w = pteEntry virt) := by
      rintro ⟨rfl, hi⟩
      obtain ⟨hr, hp⟩ := t hr' hr (by simp) (by simp) hp hw
      exact h ⟨hr, hp, hi⟩
    simp [Radix.Tables.set_of_ne hpt]

end Leaf

end RoverOS.Paging
