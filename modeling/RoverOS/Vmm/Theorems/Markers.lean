import RoverOS.Vmm.Theorems.Pool
import RoverOS.Paging.Theorems.Pages

-- The list of markers. `allocMarker` never finds a gap in it: the markers are sorted by their
-- bases, so none below the preferred minimum address is followed by one above it that fits the test.

open List (IsChain isChain_cons_cons)

namespace RoverOS.Vmm

open Paging

-- The markers follow each other in memory.
structure Markers (vmem : List VMarker) : Prop where
  ordered : vmem.IsChain fun m n => vmarkerEnd m ≤ n.base
  fits    : ∀ m ∈ vmem, m.base ≤ vmarkerEnd m

-- Where the next marker goes.
def listEnd (vmem : List VMarker) : Nat :=
  (vmem.getLast?.map vmarkerEnd).getD 0#64 |>.toNat

-- What the blocks to come take when the pool of frames grows by them.
def growth (blocks : List (Word × Nat)) : Nat :=
  (blocks.map fun (_, sz) => pagesFor sz * 0x1000).sum

-- The markers reach up to `low`, and leave room in the 48 bits of a virtual address.
structure Room (low : Nat) (vmem : List VMarker) (blocks : List (Word × Nat)) : Prop where
  markers : Markers vmem
  aligned : listEnd vmem % 0x1000 = 0
  reach   : low ≤ listEnd vmem
  fits    : listEnd vmem + growth blocks ≤ 2 ^ 48

variable {heapEnd base minAddr sz virt w : Word} {head n m marker : VMarker}
variable {next vmem rest : List VMarker} {mk : Word → VMarker} {blocks : List (Word × Nat)}
variable {bytes pages b low : Nat} {type flags : Word}

@[simp]
theorem listEnd_singleton : listEnd [m] = (vmarkerEnd m).toNat :=
  rfl

@[simp]
theorem listEnd_cons_cons : listEnd (m :: n :: rest) = listEnd (n :: rest) := by
  simp [listEnd]

@[simp]
theorem listEnd_concat : listEnd (vmem ++ [m]) = (vmarkerEnd m).toNat := by
  simp [listEnd]

@[simp]
theorem growth_cons {block : Word × Nat} :
    growth (block :: blocks) = pagesFor block.snd * 0x1000 + growth blocks :=
  rfl

theorem pageBytes_toNat : (pageBytes pages).toNat = pages * 0x1000 % 2 ^ 32 := by
  have h := u32_lt (pages * 0x1000)
  exact Nat.mod_eq_of_lt (lt_trans h (by decide))

theorem pageBytes_le : (pageBytes pages).toNat ≤ pages * 0x1000 := by
  rw [pageBytes_toNat]
  exact Nat.mod_le _ _

theorem offset_toNat (h : base.toNat + pages * 0x1000 ≤ 2 ^ 48) :
    (base + pageBytes pages).toNat = base.toNat + pages * 0x1000 % 2 ^ 32 := by
  have hle : (pageBytes pages).toNat ≤ pages * 0x1000 := pageBytes_le
  rw [BitVec.toNat_add, pageBytes_toNat] at *
  exact Nat.mod_eq_of_lt (by omega)

theorem Markers.tail (h : Markers (m :: vmem)) : Markers vmem where
  ordered     := h.ordered.tail
  fits _ hm   := h.fits _ (List.mem_cons_of_mem _ hm)

theorem Markers.base_le (h : Markers (m :: n :: rest)) : m.base ≤ n.base :=
  BitVec.le_trans (h.fits m (by simp)) (isChain_cons_cons.mp h.ordered).left

-- The new marker goes behind all others, at the end of the last one.
theorem placeMarker_eq (h : Markers (head :: next)) :
    placeMarker minAddr sz mk head next =
      (mk (BitVec.ofNat 64 (listEnd (head :: next))),
        head :: next ++ [mk (BitVec.ofNat 64 (listEnd (head :: next)))]) := by
  induction next generalizing head
  case nil => simp [placeMarker]
  case cons n rest hi =>
    have hgap : minAddr < n.base ∨ head.base ≤ minAddr ∨ n.base - vmarkerEnd head < sz := by
      have hle := h.base_le
      rw [BitVec.le_def] at hle
      by_cases hm : minAddr < n.base
      case pos => exact .inl hm
      case neg =>
        rw [BitVec.lt_def] at hm
        exact .inr (.inl (BitVec.le_def.mpr (by omega)))
    rw [placeMarker, if_pos hgap, hi h.tail]
    simp

theorem toNat_listEnd : (BitVec.ofNat 64 (listEnd vmem)).toNat = listEnd vmem := by
  rw [listEnd, BitVec.ofNat_toNat, BitVec.setWidth_eq]

theorem Markers.concat (h : Markers vmem) (hb : listEnd vmem ≤ m.base.toNat)
    (hf : m.base ≤ vmarkerEnd m) : Markers (vmem ++ [m]) where
  ordered := by
    refine h.ordered.append (.singleton m) fun x hx y hy => ?_
    have hl : vmarkerEnd x = BitVec.ofNat 64 (listEnd vmem) := by simp [listEnd, Option.mem_def.mp hx]
    cases hy
    rw [BitVec.le_def, hl, toNat_listEnd]
    exact hb
  fits x hx := by
    cases List.mem_append.mp hx
    case inl hx => exact h.fits x hx
    case inr hx => exact List.mem_singleton.mp hx ▸ hf

theorem vmarkerEnd_toNat (h : m.base.toNat + m.pages * 0x1000 ≤ 2 ^ 48) :
    (vmarkerEnd m).toNat = m.base.toNat + m.pages * 0x1000 % 2 ^ 32 :=
  offset_toNat h

theorem Room.concat (r : Room low vmem blocks) (hb : m.base.toNat = listEnd vmem)
    (hf : listEnd vmem + (m.pages * 0x1000 + growth blocks) ≤ 2 ^ 48) :
    listEnd (vmem ++ [m]) = listEnd vmem + m.pages * 0x1000 % 2 ^ 32 ∧
      Room (listEnd (vmem ++ [m])) (vmem ++ [m]) blocks := by
  have he := vmarkerEnd_toNat (m := m) (by omega)
  have hle := Nat.mod_le (m.pages * 0x1000) (2 ^ 32)
  have hend : listEnd (vmem ++ [m]) = listEnd vmem + m.pages * 0x1000 % 2 ^ 32 := by
    rw [listEnd_concat, he, hb]
  have ha := r.aligned
  refine ⟨hend, r.markers.concat hb.ge ?fits, ?aligned, le_rfl, ?room⟩
  case fits =>
    rw [BitVec.le_def]
    omega
  case aligned => omega
  case room    => omega

-- `allocMarker` reserves the pages behind everything that is reserved.
theorem Room.allocMarker (r : Room low (head :: next) blocks)
    (hf : listEnd (head :: next) + (pagesFor bytes * 0x1000 + growth blocks) ≤ 2 ^ 48)
    (h : allocMarker heapEnd head next bytes type flags = (marker, vmem)) :
    marker.base.toNat = listEnd (head :: next) ∧
      listEnd vmem = listEnd (head :: next) + pagesFor bytes * 0x1000 % 2 ^ 32 ∧
      Room (listEnd vmem) vmem blocks := by
  rw [Vmm.allocMarker, placeMarker_eq r.markers] at h
  cases h
  exact ⟨toNat_listEnd, r.concat toNat_listEnd hf⟩

theorem Room.mono {low' : Nat} (r : Room low vmem blocks) (h : low' ≤ low) :
    Room low' vmem blocks :=
  ⟨r.markers, r.aligned, le_trans h r.reach, r.fits⟩

-- The pages of the current task up to `low`.
def Below (root : Word) (low : Nat) (r w : Word) : Prop :=
  r = root → w.toNat / 0x1000 % 2 ^ 36 < low / 0x1000

theorem Below.not_samePage {root : Word} (h : Below root low root w) (hlow : low ≤ base.toNat)
    (hf : base.toNat + (b + 1) * 0x1000 ≤ 2 ^ 48) : ¬SamePage w (base + pageBytes b) := by
  intro hs
  have hw := h rfl
  have hle := Nat.mod_le (b * 0x1000) (2 ^ 32)
  have hf' := le_trans (Nat.add_le_add_left (Nat.mul_le_mul_right 0x1000 b.le_succ) base.toNat) hf
  rw [samePage_iff_page, offset_toNat hf'] at hs
  omega

-- Growing the pool of frames reserves its pages behind everything else, too.
theorem protects_below {root : Word} {low' : Nat} (hlow : low ≤ low') :
    Protects heapEnd root (Below root low) (Room low') where
  grow {head next phys sz blocks marker vmem} r h := by
    have hf := r.fits
    rw [growth_cons] at hf
    have r' : Room low' (head :: next) blocks := ⟨r.markers, r.aligned, r.reach, by omega⟩
    have ⟨hb, he, hr⟩ := r'.allocMarker hf h
    have hreach := r.reach
    refine ⟨hr.mono (by omega), fun b hlt w hw => ?_⟩
    apply hw.not_samePage (by omega)
    rw [hb]
    simp only at hf
    omega

end RoverOS.Vmm
