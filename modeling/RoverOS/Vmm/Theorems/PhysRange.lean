import RoverOS.Vmm.Theorems.Linear
import RoverOS.Vmm.Theorems.Share

-- Which bytes of its range `vmallocPhys` maps.

open Sweep (Kept)

namespace RoverOS.Vmm

open Paging

-- When all of them are mapped. The pages that are not written to must be mapped already: those after the
-- last whole page, and those from 4 GB on.
structure Covers (leaves : Leaves) (phys virt flags : Word) (bytes : Nat) : Prop where
  aligned : isUnaligned phys = 0#64
  size    : bytes ≤ 2 ^ 48
  below   : phys.toNat + pagesFor bytes * 0x1000 ≤ 2 ^ 52
  pat     : PicksPat (formFlags flags) → ∀ i < pagesFor bytes, i < 2 ^ 20 → (pageAt phys i).getLsbD 12 = true
  rest    : ∀ i, pagesFor bytes ≤ i ∨ 2 ^ 20 ≤ i → i * 0x1000 < bytes →
    Mapped leaves (pageAt virt i) (pageAt phys i)

-- The pages before `low`.
def upTo (low : Nat) (leaves : Leaves) : Leaves := fun w =>
  if w.toNat / 0x1000 % 2 ^ 36 < low / 0x1000 then leaves w else none

variable {roots : Set Word} {heapEnd type flags phys virt w p : Word} {fuel bytes low i n : Nat} {s s' : Vm}
variable {space : PageSpace} {old new leaves : Leaves} {wanted : Word → Prop}

section Pages

theorem one_le_pagesFor : 1 ≤ pagesFor bytes := by
  rw [pagesFor]
  split
  case isTrue    => exact le_rfl
  case isFalse h => exact Nat.one_le_iff_ne_zero.mpr h

theorem pagesFor_lt : pagesFor bytes < 2 ^ 32 := by
  rw [pagesFor]
  split
  case isTrue  => decide
  case isFalse => exact u32_lt _

-- Each page that is written to has bytes of the range.
theorem lt_bytes (hb : 1 ≤ bytes) (hi : i < pagesFor bytes) : i * 0x1000 < bytes := by
  have hle := Nat.mod_le (bytes / 0x1000) (2 ^ 32)
  rw [pagesFor, u32] at hi
  split at hi <;> omega

theorem has_formFlags_make (h : Has flags vflagMake) : Has (formFlags flags) pageFlagMake := by
  have hf : Has (if Has flags vflagMake then pageFlagMake else 0#64) pageFlagMake := by
    rw [if_pos h]
    decide
  exact has_or.mpr (.inl (has_or.mpr (.inl (has_or.mpr (.inr hf)))))

theorem leaf_congr {root v : Word} (h : SamePage v w) : leaf s root v = leaf s root w := by
  rw [leaf, leaf, h.left, h.right]

end Pages

section Covers

-- What a call does to the pages of its range.
structure Wrote (old new : Leaves) (phys virt flags : Word) (bytes : Nat) : Prop where
  page : ∀ i < pagesFor bytes, i < 2 ^ 20 → (Mapped new (pageAt virt i) (pageAt phys i) ↔
    tableBase (pgflags (formFlags flags) ||| pageAt phys i) = pageAt phys i)
  rest : ∀ i, pagesFor bytes ≤ i ∨ 2 ^ 20 ≤ i → i * 0x1000 < bytes →
    (Mapped new (pageAt virt i) (pageAt phys i) ↔ Mapped old (pageAt virt i) (pageAt phys i))

theorem mapsBytes_iff_covers (hl : ∀ {v w}, SamePage v w → new v = new w) (hv : isUnaligned virt = 0#64)
    (hb : 1 ≤ bytes) (hw : isUnaligned phys = 0#64 → phys.toNat < 2 ^ 52 → bytes ≤ 2 ^ 48 →
      Wrote old new phys virt flags bytes) :
    MapsBytes new phys virt bytes ↔ Covers old phys virt flags bytes := by
  have hpos : 1 ≤ pagesFor bytes := one_le_pagesFor
  have hlt : pagesFor bytes < 2 ^ 32 := pagesFor_lt
  rw [mapsBytes_iff hl hv hb]
  constructor
  case mp =>
    rintro ⟨ha, hm⟩
    have hzero : pageAt phys 0 = phys := BitVec.add_zero _
    have hphys : (pageAt phys 0).toNat < 2 ^ 52 := (hm 0 (lt_bytes hb hpos)).toNat_lt
    rw [hzero] at hphys
    have hsize := bytes_le_of_mapped hl hm
    have w := hw ha hphys hsize
    have hbelow : phys.toNat + pagesFor bytes * 0x1000 ≤ 2 ^ 52 := by
      have hlast := (hm (pagesFor bytes - 1) (lt_bytes hb (by omega))).toNat_lt
      have hmod := isUnaligned_eq_zero_iff.mp ha
      rw [pageAt_toNat (n := pagesFor bytes) (by omega) (by omega)] at hlast
      omega
    refine ⟨ha, hsize, hbelow, fun hp i hi hl => ?pat, fun i hi hlt => (w.rest i hi hlt).mp (hm i hlt)⟩
    case pat =>
      have hbase := (w.page i hi hl).mp (hm i (lt_bytes hb hi))
      exact (tableBase_leaf_eq_iff (tableBase_pageAt ha hbelow hi)).mp hbase hp
  case mpr =>
    intro c
    have hbelow := c.below
    have w := hw c.aligned (by omega) c.size
    refine ⟨c.aligned, fun k hk => ?_⟩
    by_cases hi : k < pagesFor bytes ∧ k < 2 ^ 20
    case pos =>
      refine (w.page k hi.left hi.right).mpr ?_
      rw [tableBase_leaf_eq_iff (tableBase_pageAt c.aligned c.below hi.left)]
      exact fun hp => c.pat hp k hi.left hi.right
    case neg =>
      have hi : pagesFor bytes ≤ k ∨ 2 ^ 20 ≤ k := by omega
      exact (w.rest k hi hk).mpr (c.rest k hi hk)

-- If the pool does not grow, only the pages of the loop are written to.
theorem Swept.wrote (hs : Swept (pgflags (formFlags flags)) wanted phys virt (pagesFor bytes) old new)
    (hw : ∀ w, wanted w) (hb : bytes ≤ 2 ^ 48) (hp : phys.toNat < 2 ^ 52) : Wrote old new phys virt flags bytes where
  page i hi hl := mapped_iff (hs.written i hi hl (hw _)) has_pgflags_present
  rest i hi hl := by
    have hlt : pagesFor bytes < 2 ^ 32 := pagesFor_lt
    have hpos : 1 ≤ pagesFor bytes := one_le_pagesFor
    refine hs.mapped_of_kept (fun j hj hjl hs => ?same) fun hz => ?zero
    case same =>
      rw [samePage_iff_page, pageAt, pageAt, BitVec.toNat_add, BitVec.toNat_add, BitVec.toNat_ofNat,
        BitVec.toNat_ofNat] at hs
      omega
    case zero =>
      have h := congrArg BitVec.toNat hz
      rw [pageAt, BitVec.toNat_add, BitVec.toNat_ofNat] at h
      simp only [BitVec.toNat_ofNat, Nat.zero_mod] at h
      omega

end Covers

section Growth

theorem upTo_of_lt (h : w.toNat / 0x1000 % 2 ^ 36 < low / 0x1000) : upTo low leaves w = leaves w :=
  if_pos h

theorem mapped_upTo (h : w.toNat / 0x1000 % 2 ^ 36 < low / 0x1000) :
    Mapped (upTo low leaves) w p ↔ Mapped leaves w p := by
  rw [Mapped, Mapped, upTo_of_lt h]

-- If it does, it maps its frames behind `low`.
theorem upTo_rule (hr : space.pml4e ∈ roots) (hm : Has flags pageFlagMake) :
    PageRule (Turn (Vmm.newPagetable heapEnd fuel) space flags) (Pooled roots space.pml4e (Room low) BlankFrame [])
      (fun s => upTo low (leaf s space.pml4e)) (pgflags flags) (fun w => w.toNat / 0x1000 % 2 ^ 36 < low / 0x1000)
      (fun _ => True) := by
  have np : Provides roots space.pml4e (Room low) BlankFrame (KeepsLeaves roots (Below space.pml4e low))
      (Vmm.newPagetable heapEnd fuel) :=
    newPagetable_provides keepsLeaves_writeRule (protects_below le_rfl) fuel
  have turn {phys virt s s'} (hI : Pooled roots space.pml4e (Room low) BlankFrame [] s)
      (h : Turn (Vmm.newPagetable heapEnd fuel) space flags phys virt s s') :=
    np.mapPage keepsLeaves_writeRule hI hr (h.resolve_right fun hn => hn.left hm)
  constructor
  case inv => exact fun _ hI h => (turn hI h).left
  case kept =>
    intro phys virt s s' w _ hI h hne
    by_cases hw : w.toNat / 0x1000 % 2 ^ 36 < low / 0x1000
    case pos =>
      rw [upTo_of_lt hw, upTo_of_lt hw]
      exact (turn hI h).right.left.leaf hr ⟨fun _ => hw, fun hs => hne hs.right⟩
    case neg => exact .inl (by rw [upTo, upTo, if_neg hw, if_neg hw])
  case write =>
    intro phys virt s s' hp hI _ h _
    rw [upTo_of_lt hp]
    exact (turn hI h).right.right
  case skip => exact fun _ _ _ hn => absurd trivial hn

end Growth

-- The pages that the loop writes to fit into 48 bits.
theorem lt_of_pageAt (ha : virt.toNat % 0x1000 = 0) (hb : virt.toNat + n * 0x1000 ≤ 2 ^ 48) (hi : i < n) :
    (pageAt virt i).toNat / 0x1000 % 2 ^ 36 < (virt.toNat + n * 0x1000) / 0x1000 := by
  have hmul : (i + 1) * 0x1000 ≤ n * 0x1000 := Nat.mul_le_mul_right _ hi
  rw [pageAt_toNat (by omega) hi]
  omega

-- The caller gets a range of which all bytes are mapped if it asked for whole pages from an aligned
-- address on. The pool may grow meanwhile if the range has less than 4 GB.
theorem vmallocPhys_mapsBytes_iff (hs : Ready roots s.space.pml4e (Room 0) [] s)
    (hf : listEnd s.vmem + (pagesFor bytes * 0x1000 + growth s.blocks) ≤ 2 ^ 48) (hm : Has flags vflagMake)
    (hb : 1 ≤ bytes) (hq : WholePages bytes ∧ bytes < 2 ^ 32 ∨ Quiet roots s s.space virt (pagesFor bytes))
    (h : vmallocPhys heapEnd (Vmm.newPagetable heapEnd fuel) phys bytes type flags s = .ok (virt, s')) :
    MapsBytes (leaf s' s.space.pml4e) phys virt bytes ↔ Covers (leaf s s.space.pml4e) phys virt flags bytes := by
  obtain ⟨head, next, marker, vmem, hv, ha, rfl, hmap⟩ := vmallocPhys_ok h
  have r : Room 0 (head :: next) s.blocks := hv ▸ hs.markers
  rw [hv] at hf
  obtain ⟨hbase, hend, hr⟩ := r.allocMarker hf ha
  have haligned : marker.base.toNat % 0x1000 = 0 := hbase ▸ r.aligned
  have hfits : marker.base.toNat + pagesFor bytes * 0x1000 ≤ 2 ^ 48 := by omega
  have hpos : 1 ≤ pagesFor bytes := one_le_pagesFor
  have hlt : pagesFor bytes < 2 ^ 32 := pagesFor_lt
  have hmake := has_formFlags_make hm
  have hv : isUnaligned marker.base = 0#64 := isUnaligned_eq_zero_iff.mpr haligned
  refine mapsBytes_iff_covers leaf_congr hv hb fun hp hphys hsize => ?_
  have hrange : PageRange phys marker.base (pagesFor bytes) := ⟨hpos, hlt, hp, hv, by omega, by omega⟩
  rcases hq with ⟨hw, h32⟩ | hq
  case inl =>
    have hcover : bytes ≤ pagesFor bytes * 0x1000 := (le_pagesFor h32 hw).trans (Nat.mod_le _ _)
    have hsmall : pagesFor bytes * 0x1000 % 2 ^ 32 = pagesFor bytes * 0x1000 := by
      have hle : pagesFor bytes * 0x1000 ≤ max bytes 0x1000 := pagesFor_le
      omega
    have hp (i : Nat) (hi : i < pagesFor bytes) := lt_of_pageAt haligned hfits hi
    rw [hend, hsmall, ← hbase] at hr
    have hs' : Pooled roots s.space.pml4e (Room (marker.base.toNat + pagesFor bytes * 0x1000)) BlankFrame []
        { s with vmem } :=
      ⟨hs.tables.move rfl rfl (.refl _), hs.blank, hr, rfl⟩
    obtain ⟨-, hswept⟩ := mapPages_of_rule (upTo_rule hs.tables.task hmake) hrange (fun i hi _ => hp i hi) hs' hmap
    refine ⟨fun i hi hl => ?page, fun i hi hlt => ?rest⟩
    case page =>
      rw [← mapped_upTo (hp i hi)]
      exact mapped_iff (hswept.written i hi hl trivial) has_pgflags_present
    case rest => omega
  case inr =>
    have hq' : Quiet roots { s with vmem } s.space marker.base (pagesFor bytes) := hq.of_eq rfl rfl rfl
    have t : PageTables roots (spareFrames { s with vmem }) { s with vmem } := hs.tables.move rfl rfl (.refl _)
    obtain ⟨hswept, -⟩ := mapPages_swept t hs.blank hs.tables.task hrange
      (fun _ => hq') hmap
    exact Swept.wrote hswept (fun _ => .inl hmake) hsize hphys

section Example

theorem ready_emptyVm : Ready {0x1000} emptyVm.space.pml4e (Room 0) [] emptyVm where
  tables    := pageTables_emptyVm
  blank f _ := blank_emptyVm f
  markers   := ⟨⟨.singleton _, by decide⟩, by decide, Nat.zero_le _, by decide⟩
  space     := rfl

-- Two whole pages.
theorem vmallocPhys_mapsBytes_emptyVm :
    ∃ virt s', vmallocPhys 0 (newPagetable 0 5) 0x800000 0x2000 vtypeData (vflagMake ||| vflagWrite) emptyVm =
      .ok (virt, s') ∧ MapsBytes (leaf s' 0x1000) 0x800000 virt 0x2000 := by
  have h : (vmallocPhys 0 (newPagetable 0 5) 0x800000 0x2000 vtypeData (vflagMake ||| vflagWrite) emptyVm).map
      (fun _ => ()) = .ok () := rfl
  obtain ⟨⟨virt, s'⟩, h, -⟩ := Except.exists_ok_of_map h
  have hw : WholePages 0x2000 := .inr (by decide)
  have hpages : pagesFor 0x2000 = 2 := rfl
  have hi := vmallocPhys_mapsBytes_iff ready_emptyVm (by decide) (by decide) (by decide) (.inl ⟨hw, by decide⟩) h
  refine ⟨virt, s', h, hi.mpr ⟨by decide, by decide, by decide, fun hp => absurd hp (by decide), ?rest⟩⟩
  case rest =>
    intro i hi hlt
    rw [hpages] at hi
    omega

-- Of one page and a half, the half page is not mapped.
theorem vmallocPhys_half_page :
    ¬∀ (heapEnd : Word) (fuel : Nat) (roots : Set Word) (s s' : Vm) (phys virt type flags : Word) (bytes : Nat),
      Ready roots s.space.pml4e (Room 0) [] s →
      listEnd s.vmem + (pagesFor bytes * 0x1000 + growth s.blocks) ≤ 2 ^ 48 → Has flags vflagMake → 1 ≤ bytes →
      vmallocPhys heapEnd (newPagetable heapEnd fuel) phys bytes type flags s = .ok (virt, s') → virt ≠ 0#64 →
      MapsBytes (leaf s' s.space.pml4e) phys virt bytes := by
  intro hc
  have h : (vmallocPhys 0 (newPagetable 0 5) 0x800000 0x1800 vtypeData (vflagMake ||| vflagWrite) emptyVm).map
      (fun r => (r.1, leaf r.2 0x1000 0x2000)) = .ok (0x1000, some 0) := rfl
  obtain ⟨⟨virt, s'⟩, h, hv⟩ := Except.exists_ok_of_map h
  obtain ⟨rfl, hl⟩ := Prod.mk.inj hv
  have hm := hc 0 5 {0x1000} emptyVm s' 0x800000 0x1000 vtypeData (vflagMake ||| vflagWrite) 0x1800 ready_emptyVm
    (by decide) (by decide) (by decide) h (by decide)
  obtain ⟨e, he, hp, -⟩ := hm 0x1000 (by decide)
  have he : leaf s' 0x1000 0x2000 = some e := he
  cases hl.symm.trans he
  exact absurd hp (by decide)

end Example

end RoverOS.Vmm
