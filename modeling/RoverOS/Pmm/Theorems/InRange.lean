import RoverOS.Pmm.Theorems.Address
import RoverOS.Pmm.Theorems.Fill

-- For which numbers of blocks the accesses stay in the bitmaps that `createRegion` makes.

namespace RoverOS.Pmm

open MemRegion

-- A call for orders and blocks of the region.
def InRegion (r : MemRegion) : BlockCall → Prop
  | .alloc order    => order < r.ordern
  | .reserve addr n => ∀ j < n, blockAt addr r.base j < r.blockCount
  | .free addr      => orderAddressToBit addr r.base < r.blockCount

-- An access to an order of the region, and to a word that was allocated for it.
def InRange (created : MemRegion) (a : Access) : Prop :=
  a.1 < created.ordern ∧ InBitmap created a.1 a.2

def StaysInRange (created : MemRegion) : Prop :=
  ∀ r, Run.Steps BlockStep InRegion created r → ∀ c, InRegion r c → ∀ a ∈ accesses r c, InRange created a

-- The blocks of an order fill its words, or are more than its counter can hold.
def WordsFit (k n : Nat) : Prop :=
  n < 64 ∨ 64 ∣ n ∨ 1 ≤ k ∧ 2 ^ 32 ≤ n

-- No order is missing, and the blocks fill the words of all.
def Divides (n : Nat) : Prop :=
  n = 0 ∨ 16384 ≤ n ∧ ∀ k < maxOrder, WordsFit k (n / 2 ^ k)

def Within (n : Nat) (a : Access) : Prop :=
  a.1 < countOrders n maxOrder ∧ a.2 < words (n / 2 ^ a.1)

variable {r r' old : MemRegion} {o m : MemOrder} {w : Word} {c : BlockCall} {a : Access}
variable {order k n i j t idx bit b ptr addr bytes count : Nat} {entry : MmapEntry} {f : Word → Word}

section Shape

theorem Sized.modify (hf : ∀ w, Uniform w → Uniform (f w)) (h : r.modify k idx f n = .ok r')
    (hs : Sized count r) : Sized count r' := by
  obtain ⟨o, w, ho, hw, rfl⟩ := modify_ok h
  refine ⟨hs.ordern, hs.blockCount, fun j hj => ?_⟩
  by_cases hjk : j = k
  case neg =>
    obtain ⟨o', ho', hrest⟩ := hs.order j hj
    exact ⟨o', (List.getElem?_set_ne (Ne.symm hjk)).trans ho', hrest⟩
  case pos =>
    subst hjk
    obtain ⟨o', ho', hn, hlen, hu⟩ := hs.order j hj
    cases ho.symm.trans ho'
    have hlt : j < r.order.length := (List.getElem?_eq_some_iff.mp ho).1
    refine ⟨_, List.getElem?_set_self hlt, hn, by rw [MemOrder.write, List.length_set, hlen], fun v hv => ?_⟩
    rcases List.mem_or_eq_of_mem_set hv with hold | rfl
    · exact hu v hold
    · exact hf w (hu w (List.mem_of_getElem? hw))

theorem Sized.step (hs : Sized count r) (h : BlockStep r c r') : Sized count r' := by
  refine h.rule (R := fun r r' => Sized count r → Sized count r') ?trans ?mark ?clear ?refl hs
  case trans => exact fun h₁ h₂ hs => h₂ (h₁ hs)
  case mark  => exact fun h hs => hs.modify (fun _ hw => hw.or uniform_intBit) h
  case clear => exact fun h hs => hs.modify (fun _ hw => hw.and_not uniform_intBit) h
  case refl  => exact fun _ hs => hs

theorem Sized.steps (hs : Sized count r) (run : Run.Steps BlockStep InRegion r r') : Sized count r' :=
  run.invariant hs fun hs _ h => hs.step h

theorem Sized.inRange_iff (hs : Sized count r) : InRange r a ↔ Within count a := by
  rw [InRange, Within, hs.ordern]
  exact and_congr_right fun hk => hs.inBitmap_iff hk

end Shape

section Words

theorem div_le_words : n / 64 ≤ words n := by
  unfold words
  split <;> omega

theorem div_pow_succ : count / 2 ^ (k + 1) = count / 2 ^ k / 2 := by
  rw [Nat.pow_succ, Nat.div_div_eq_div_mul]

-- The scan over the blocks of an order.
theorem WordsFit.scan (h : WordsFit k n) : (u32 n + 63) / 64 ≤ words n := by
  unfold WordsFit at h
  unfold words u32
  split <;> omega

theorem block_lt (h : WordsFit 0 n) (hb : b < n) : orderGetIdxFromBit b < words n := by
  unfold WordsFit at h
  unfold orderGetIdxFromBit words
  split <;> omega

-- The word of a parent.
theorem WordsFit.half (h : WordsFit k (n / 2)) (hi : i < words n) (hj : j ≤ i / 2) (h3 : j ≤ 3) : j < words (n / 2) := by
  unfold WordsFit at h
  unfold words at hi ⊢
  split at hi <;> split <;> omega

variable (h : ∀ k < maxOrder, WordsFit k (count / 2 ^ k))
include h

theorem half_lt (hk : k + 1 < maxOrder) (hi : i < words (count / 2 ^ k)) (hj : j ≤ i / 2) (h3 : j ≤ 3) :
    j < words (count / 2 ^ (k + 1)) := by
  have hfit := h (k + 1) hk
  rw [div_pow_succ] at hfit ⊢
  exact hfit.half hi hj h3

theorem halves_lt (hk : k + j < maxOrder) (hi : i < words (count / 2 ^ k)) (h3 : i ≤ 3) :
    i / 2 ^ j < words (count / 2 ^ (k + j)) := by
  induction j
  case zero => rwa [Nat.pow_zero, Nat.div_one, Nat.add_zero]
  case succ j hind =>
    have hle : i / 2 ^ j ≤ i := Nat.div_le_self _ _
    rw [div_pow_succ]
    refine half_lt h hk (hind (by omega)) (Nat.le_refl _) (by omega)

end Words

section Stays

-- All orders are there.
theorem countOrders_eq (hn : 512 ≤ count) : countOrders count maxOrder = maxOrder := by
  have h : maxOrder - 1 < countOrders count maxOrder := by
    rw [lt_countOrders_iff]
    exact ⟨by decide, Nat.div_pos hn (by decide)⟩
  have hle : countOrders count maxOrder ≤ maxOrder := countOrders_le
  unfold maxOrder at *
  omega

variable (hn : 16384 ≤ count) (hfit : ∀ k < maxOrder, WordsFit k (count / 2 ^ k))
include hn

theorem child_lt (hb : bit ≤ 31) (hk : k < maxOrder) (hj : j < k) :
    wordFrom (bit * 2 ^ k / 64) (bit * 2 ^ k / 64) j < words (count / 2 ^ j) := by
  have hx : bit * 2 ^ k / 64 ≤ 248 := by
    have hpow : 2 ^ k ≤ 2 ^ 9 := Nat.pow_le_pow_right (by decide) (Nat.le_of_lt_succ hk)
    have hmul : bit * 2 ^ k ≤ 31 * 2 ^ 9 := Nat.mul_le_mul hb hpow
    omega
  generalize bit * 2 ^ k / 64 = x at hx
  have hword : wordFrom x x j ≤ 251 / 2 ^ j := by
    cases j
    case zero      => exact Nat.le_trans hx (by decide)
    case succ j =>
      rw [wordFrom, Nat.div_div_eq_div_mul, Nat.mul_comm (2 ^ (j + 1)), ← Nat.div_div_eq_div_mul]
      exact Nat.div_le_div_right (by omega)
  have hwords : 256 / 2 ^ j ≤ words (count / 2 ^ j) := by
    refine Nat.le_trans ?_ div_le_words
    rw [Nat.div_div_eq_div_mul, Nat.mul_comm, ← Nat.div_div_eq_div_mul]
    exact Nat.div_le_div_right (by omega)
  have hlt : 251 / 2 ^ j < 256 / 2 ^ j := by
    have h : ∀ j < 9, 251 / 2 ^ j < 256 / 2 ^ j := by decide
    exact h j (Nat.lt_of_lt_of_le hj (Nat.le_of_lt_succ hk))
  omega

include hfit

theorem setBit_within (ho : r.ordern = maxOrder) (hk : k < maxOrder) (hi : idx < words (count / 2 ^ k))
    (hb : bit < 64) (hc : k ≠ 0 → bit ≤ 31) (ha : a ∈ setBitAccesses r k idx bit) : Within count a := by
  rw [Within, countOrders_eq (Nat.le_trans (by decide) hn)]
  rw [setBitAccesses] at ha
  simp only [orderGetIdxFromBit, childBase_div hb hk, parentOf_left, ho] at ha
  rcases List.mem_append.mp ha with ha | ha
  · obtain ⟨j, hj, rfl⟩ := mem_setChildrenAccesses.mp ha
    rw [Nat.zero_add]
    exact ⟨Nat.lt_trans hj hk, child_lt hn (hc (Nat.ne_of_gt (Nat.zero_lt_of_lt hj))) hk hj⟩
  · rcases List.mem_cons.mp ha with rfl | ha
    · exact ⟨hk, hi⟩
    · have hle := u8_le ((idx * 64 + bit) / 2)
      have hlt : u8 ((idx * 64 + bit) / 2) < 256 := Nat.mod_lt _ (by decide)
      obtain ⟨j, hj, hord, hword⟩ := mem_setParentsAccesses ha (by omega) (Nat.le_refl _)
      have hk₁ : k + 1 < maxOrder := by omega
      have hfirst := half_lt hfit hk₁ hi (j := u8 ((idx * 64 + bit) / 2) / 64) (by omega) (by omega)
      rw [hord]
      exact ⟨by omega, Nat.lt_of_le_of_lt hword (halves_lt hfit (by omega) hfirst (by omega))⟩

theorem allocRegion_within (hs : Sized count r) (hk : k < maxOrder) (ha : a ∈ allocRegionAccesses r k) :
    Within count a := by
  have hord := countOrders_eq (Nat.le_trans (by decide) hn)
  have ho : r.ordern = maxOrder := hs.ordern.trans hord
  obtain ⟨m, hm, hentryn, hlen, hu⟩ := hs.order k (by omega)
  have hscan : (m.entryn + 63) / 64 ≤ words (count / 2 ^ k) := by
    rw [hentryn]
    exact (hfit k hk).scan
  rw [allocRegionAccesses] at ha
  simp only [hm] at ha
  split at ha
  case isTrue  => cases ha
  case isFalse =>
    rcases List.mem_append.mp ha with ha | ha
    · obtain ⟨i, hi, rfl⟩ := mem_findWordAccesses ha
      rw [Within, hord, Nat.zero_add]
      exact ⟨hk, Nat.lt_of_lt_of_le hi hscan⟩
    · split at ha
      case h_2       => cases ha
      case h_1 idx w hf =>
        obtain ⟨_, hlt, hw, hne, _⟩ := findWord_some hf
        have h31 := ((hu w (List.mem_of_getElem? hw)).findBit (n := min 64 (m.entryn - idx * 64)) hne).left
        exact setBit_within hn hfit ho hk (by omega) (by omega) (fun _ => h31) ha

theorem reserveBlocks_within (ho : r.ordern = maxOrder) (hb : ∀ j < n, blockAt ptr r.base j < count)
    (ha : a ∈ reserveBlocksAccesses r ptr n) : Within count a := by
  obtain ⟨j, hj, ha⟩ := mem_reserveBlocksAccesses.mp ha
  have hi : u32 (blockAt ptr r.base j / 64) < words (count / 2 ^ 0) := by
    refine Nat.lt_of_le_of_lt (u32_le _) (block_lt (hfit 0 (by decide)) ?_)
    rw [Nat.pow_zero, Nat.div_one]
    exact hb j hj
  exact setBit_within hn hfit ho (by decide) hi (Nat.mod_lt _ (by decide)) (fun h => absurd rfl h) ha

theorem freeBit_within (hb : b < count) (ha : a ∈ freeBitAccesses r 0 (orderGetIdxFromBit b) (u8 b)) :
    Within count a := by
  have hord := countOrders_eq (Nat.le_trans (by decide) hn)
  rw [Within, hord]
  rw [freeBitAccesses] at ha
  rcases List.mem_cons.mp ha with rfl | ha
  · refine ⟨(by decide : 0 < maxOrder), block_lt (hfit 0 (by decide)) ?_⟩
    rwa [Nat.pow_zero, Nat.div_one]
  · split at ha
    case h_1 => cases ha
    case h_2 =>
      split at ha
      case isTrue  => cases ha
      case isFalse =>
        have h3 : orderGetIdxFromBit (u8 (orderGetParentBitLbit (u8 b) (u8 (orderGetIdxFromBit b)))) ≤ 3 :=
          Nat.le_of_lt_succ (Nat.div_lt_of_lt_mul (Nat.mod_lt _ (by decide)))
        obtain ⟨j, hj, ho, hle⟩ := mem_freeParentsAccesses ha h3
        have hfirst : 3 < words (count / 2 ^ (0 + 1)) :=
          Nat.lt_of_lt_of_le (by omega) (div_le_words (n := count / 2 ^ (0 + 1)))
        rw [ho]
        exact ⟨by omega, Nat.lt_of_le_of_lt hle (halves_lt hfit (by omega) hfirst (Nat.le_refl 3))⟩

theorem Sized.within (hs : Sized count r) (hc : InRegion r c) (ha : a ∈ accesses r c) : Within count a := by
  have ho : r.ordern = maxOrder := hs.ordern.trans (countOrders_eq (Nat.le_trans (by decide) hn))
  cases c
  case alloc order =>
    rw [InRegion, ho] at hc
    exact allocRegion_within hn hfit hs hc ha
  case reserve addr n =>
    rw [InRegion, hs.blockCount] at hc
    exact reserveBlocks_within hn hfit ho hc ha
  case free addr =>
    rw [InRegion, hs.blockCount] at hc
    exact freeBit_within hn hfit hc ha

end Stays

-- A region without blocks has no call.
theorem Sized.not_inRegion (hs : Sized 0 r) (hc : InRegion r c) : accesses r c = [] := by
  have ho : r.ordern = 0 := hs.ordern
  cases c
  case alloc order =>
    rw [InRegion, ho] at hc
    exact absurd hc (Nat.not_lt_zero _)
  case reserve addr n =>
    rw [InRegion, hs.blockCount] at hc
    cases n
    case zero   => rfl
    case succ n => exact absurd (hc 0 (Nat.succ_pos n)) (Nat.not_lt_zero _)
  case free addr =>
    rw [InRegion, hs.blockCount] at hc
    exact absurd hc (Nat.not_lt_zero _)

theorem Sized.staysInRange (hs : Sized count r) (hd : Divides count) : StaysInRange r := by
  intro r' run c hc a ha
  have hs' := hs.steps run
  rw [hs.inRange_iff]
  rcases hd with rfl | ⟨hn, hfit⟩
  · rw [hs'.not_inRegion hc] at ha
    cases ha
  · exact hs'.within hn hfit hc ha

end RoverOS.Pmm
