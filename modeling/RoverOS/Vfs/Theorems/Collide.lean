import RoverOS.Vfs.Basic

-- Names that hash to a bucket that is given. `djb2` begins with 0, so a prefix that hashes to 0 does
-- not change a hash.

namespace RoverOS.Vfs

open Hashtable (djb2)

abbrev Name := List (BitVec 8)

-- Two strings of the same length that hash to 0.
def zeroHash : Name :=
  [75, 77, 91, 92, 75, 84, 66, 71, 83, 66, 89, 76, 79]

def zeroHash' : Name :=
  [75, 77, 91, 92, 75, 83, 99, 71, 82, 99, 89, 76, 79]

-- The lowest `i` bits of `k`, spelled with the two.
def spell (k : Nat) : Nat → Name
  | 0     => []
  | i + 1 => (if k.testBit i then zeroHash' else zeroHash) ++ spell k i

-- Three bytes that hash to 74118 and `u`.
def tail (u : Nat) : Name :=
  [BitVec.ofNat 8 (66 + u / 1089), BitVec.ofNat 8 (66 + u / 33 % 33), BitVec.ofNat 8 (66 + u % 33)]

-- No terminator, and no separator.
abbrev IsName (name : Name) : Prop :=
  name ≠ [] ∧ 0#8 ∉ name ∧ slash ∉ name

variable {k k' i u : Nat} {w : Name}

theorem djb2_spell : djb2 (spell k i ++ w) = djb2 w := by
  induction i
  case zero => rfl
  case succ i hi =>
    have h0 (b : Bool) : djb2 (if b then zeroHash' else zeroHash) = 0#64 := by
      cases b <;> decide
    simp only [djb2, spell, List.append_assoc, List.foldl_append] at h0 hi ⊢
    rw [h0]
    exact hi

theorem length_spell : (spell k i).length = 13 * i := by
  induction i
  case zero => rfl
  case succ i hi =>
    rw [spell, List.length_append, hi]
    split <;> simp [zeroHash, zeroHash'] <;> omega

theorem spell_testBit (h : spell k i = spell k' i) : ∀ j < i, k.testBit j = k'.testBit j := by
  induction i
  case zero => exact fun j hj => absurd hj (Nat.not_lt_zero j)
  case succ i hi =>
    rw [spell, spell] at h
    obtain ⟨hb, h⟩ := List.append_inj h (by split <;> split <;> rfl)
    have hbit : k.testBit i = k'.testBit i := by
      cases hk : k.testBit i <;> cases hk' : k'.testBit i <;> simp [hk, hk', zeroHash, zeroHash'] at hb ⊢
    intro j hj
    rcases Nat.lt_succ_iff_lt_or_eq.mp hj with hj | rfl
    · exact hi h j hj
    · exact hbit

theorem spell_inj (h : spell k i = spell k' i) (hk : k < 2 ^ i) (hk' : k' < 2 ^ i) : k = k' := by
  apply Nat.eq_of_testBit_eq
  intro j
  rcases Nat.lt_or_ge j i with hj | hj
  · exact spell_testBit h j hj
  · have hp : 2 ^ i ≤ 2 ^ j := Nat.pow_le_pow_right (by decide) hj
    rw [Nat.testBit_lt_two_pow (by omega), Nat.testBit_lt_two_pow (by omega)]

theorem mem_spell {b : BitVec 8} (h : b ∈ spell k i) : b ∈ zeroHash ++ zeroHash' := by
  induction i
  case zero => cases h
  case succ i hi =>
    rw [spell, List.mem_append] at h
    rcases h with h | h
    · split at h
      case isTrue  => exact List.mem_append_right _ h
      case isFalse => exact List.mem_append_left _ h
    · exact hi h

-- One step of the loop, when the hash is still small.
theorem hash_toNat {n : Word} {b : BitVec 8} (h : n.toNat < 2 ^ 32) :
    ((n <<< 5) + n + b.setWidth 64).toNat = 33 * n.toNat + b.toNat := by
  have hb := b.isLt
  simp only [BitVec.toNat_add, BitVec.toNat_shiftLeft, BitVec.toNat_setWidth, Nat.shiftLeft_eq]
  omega

theorem djb2_tail (hu : u < 2 ^ 16) : (djb2 (tail u)).toNat = 74118 + u := by
  have hx : (BitVec.ofNat 8 (66 + u / 1089)).toNat = 66 + u / 1089 := Nat.mod_eq_of_lt (by omega)
  have hy : (BitVec.ofNat 8 (66 + u / 33 % 33)).toNat = 66 + u / 33 % 33 := Nat.mod_eq_of_lt (by omega)
  have hz : (BitVec.ofNat 8 (66 + u % 33)).toNat = 66 + u % 33 := Nat.mod_eq_of_lt (by omega)
  have h1 := @hash_toNat 0#64 (BitVec.ofNat 8 (66 + u / 1089)) (by decide)
  rw [hx, BitVec.toNat_ofNat] at h1
  have h2 := hash_toNat (b := BitVec.ofNat 8 (66 + u / 33 % 33)) (by rw [h1]; omega)
  rw [h1, hy] at h2
  have h3 := hash_toNat (b := BitVec.ofNat 8 (66 + u % 33)) (by rw [h2]; omega)
  rw [h2, hz] at h3
  simp only [djb2, tail, List.foldl_cons, List.foldl_nil]
  rw [h3]
  omega

theorem mem_tail {b : BitVec 8} (hu : u < 2 ^ 16) (h : b ∈ tail u) : 66 ≤ b.toNat := by
  simp only [tail, List.mem_cons, List.not_mem_nil, or_false] at h
  rcases h with rfl | rfl | rfl <;> simp only [BitVec.toNat_ofNat] <;> omega

-- Whatever names there are, there is another one in the bucket.
theorem exists_colliding {n r : Nat} (hr : r < n) (hn : n < 2 ^ 16) (names : List Name)
    (hl : names.length < 2 ^ 64) : ∃ name, name ∉ names ∧ IsName name ∧ name.length = 835 ∧
      (djb2 name).toNat % n = r := by
  let u := (r + (n - 74118 % n)) % n
  have hu : u < n := Nat.mod_lt _ (by omega)
  have hmod : (74118 + u) % n = r := by
    have h0 : 74118 % n < n := Nat.mod_lt _ (by omega)
    have hd := Nat.mod_add_div 74118 n
    rw [Nat.add_mod_mod, (by omega : 74118 + (r + (n - 74118 % n)) = r + n + n * (74118 / n)),
      Nat.add_mul_mod_self_left, Nat.add_mod_right, Nat.mod_eq_of_lt hr]
  let f (k : Nat) : Name := spell k 64 ++ tail u
  have hf : Set.InjOn f (Finset.range (2 ^ 64)) := by
    intro k hk k' hk' he
    exact spell_inj (List.append_cancel_right he) (Finset.mem_range.mp hk) (Finset.mem_range.mp hk')
  have hcard : names.toFinset.card < ((Finset.range (2 ^ 64)).image f).card := by
    rw [Finset.card_image_of_injOn hf, Finset.card_range]
    exact Nat.lt_of_le_of_lt (List.toFinset_card_le names) hl
  obtain ⟨name, hname, hnot⟩ := Finset.exists_mem_notMem_of_card_lt_card hcard
  obtain ⟨k, _, rfl⟩ := Finset.mem_image.mp hname
  refine ⟨f k, fun h => hnot (List.mem_toFinset.mpr h), ?_, ?_, ?_⟩
  · have hge {b : BitVec 8} (hb : b ∈ f k) : 66 ≤ b.toNat := by
      rcases List.mem_append.mp hb with hb | hb
      · have hall : ∀ b ∈ zeroHash ++ zeroHash', 66 ≤ b.toNat := by decide
        exact hall b (mem_spell hb)
      · exact mem_tail (by omega) hb
    refine ⟨by simp [f, tail], fun h0 => ?_, fun hs => ?_⟩
    · exact absurd (hge h0) (by decide)
    · exact absurd (hge hs) (by decide)
  · simp [f, length_spell, tail]
  · rw [djb2_spell, djb2_tail (by omega), hmod]

end RoverOS.Vfs
