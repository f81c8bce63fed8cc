import RoverOS.Pmm.Access
import RoverOS.Pmm.Theorems.Region

-- The functions on the bitmaps return exactly when all of their accesses are in the bitmaps.

namespace RoverOS.Pmm

open MemRegion

def accesses (r : MemRegion) : BlockCall → List Access
  | .alloc order    => allocRegionAccesses r order
  | .reserve addr n => reserveBlocksAccesses r addr n
  | .free addr      =>
    let bit := orderAddressToBit addr r.base
    freeBitAccesses r 0 (orderGetIdxFromBit bit) (u8 bit)

variable {r r' : MemRegion} {o m : MemOrder} {w : Word} {entry : List Word} {c : BlockCall} {a : Access}
variable {order k n i j idx bit b ptr addr bytes : Nat}

section Bitmap

-- The word is in the bitmap.
def InBitmap (r : MemRegion) (k idx : Nat) : Prop :=
  ∃ o, r.order[k]? = some o ∧ idx < o.entry.length

theorem modify_ok_iff {f : Word → Word} : (∃ r', r.modify k idx f n = .ok r') ↔ InBitmap r k idx := by
  constructor
  case mp =>
    rintro ⟨r', h⟩
    obtain ⟨o, w, ho, hw, _⟩ := modify_ok h
    exact ⟨o, ho, (List.getElem?_eq_some_iff.mp hw).1⟩
  case mpr =>
    rintro ⟨o, ho, hlt⟩
    refine ⟨{ r with order := r.order.set k (o.write idx (f o.entry[idx]) n) }, ?_⟩
    simp only [MemRegion.modify, ho, List.getElem?_eq_getElem hlt]

theorem Keeps.inBitmap_iff (h : Keeps r r') : InBitmap r' k idx ↔ InBitmap r k idx := by
  have hlen : (r'.order[k]?).map (·.entry.length) = (r.order[k]?).map (·.entry.length) := by
    have hk := congrArg (·[k]?) h.size
    simp only [List.getElem?_map] at hk
    have hsnd := congrArg (Option.map Prod.snd) hk
    rwa [Option.map_map, Option.map_map] at hsnd
  have hiff (r : MemRegion) : InBitmap r k idx ↔ ∃ n, (r.order[k]?).map (·.entry.length) = some n ∧ idx < n := by
    simp [InBitmap, Option.map_eq_some_iff]
  rw [hiff, hiff, hlen]

theorem Keeps.entryn_eq (h : Keeps r r') : (r'.order[k]?).map (·.entryn) = (r.order[k]?).map (·.entryn) := by
  have hk := congrArg (·[k]?) h.size
  simp only [List.getElem?_map] at hk
  have hfst := congrArg (Option.map Prod.fst) hk
  rwa [Option.map_map, Option.map_map] at hfst

end Bitmap

section Members

-- The words that `setChildren` goes through.
def wordFrom (idx bit : Nat) : Nat → Nat
  | 0     => idx
  | j + 1 => (idx * 64 + bit) / 2 ^ (j + 1) / 64

theorem parentBit_eq : orderGetParentBitLbit bit idx = (idx * 64 + bit) / 2 := by
  rw [orderGetParentBitLbit, Nat.shiftRight_one]

theorem isRightBlock_iff : orderIsRightBlock n ↔ n % 2 = 1 := by
  unfold orderIsRightBlock
  rw [Nat.add_mod_right, Nat.and_one_is_mod]
  omega

theorem parentOf_left : orderGetParentBitLbit (if orderIsRightBlock bit then bit - 1 else bit) idx =
    (idx * 64 + bit) / 2 := by
  rw [parentBit_eq]
  split
  case isTrue hr =>
    rw [isRightBlock_iff] at hr
    omega
  case isFalse => rfl

theorem wordFrom_parent : wordFrom (orderGetIdxFromBit (orderGetParentBitLbit bit idx))
    (orderGetParentBitLbit bit idx % 64) j = wordFrom idx bit (j + 1) := by
  rw [parentBit_eq, orderGetIdxFromBit]
  cases j
  case zero => rfl
  case succ j =>
    simp only [wordFrom]
    rw [Nat.div_add_mod', Nat.div_div_eq_div_mul _ 2, ← Nat.pow_succ']

theorem u8_le (n : Nat) : u8 n ≤ n :=
  Nat.mod_le n _

theorem u32_le (n : Nat) : u32 n ≤ n :=
  Nat.mod_le n _

-- The word of the parent, of which only the lowest eight bits of its block are kept.
theorem parentWord_le (hb : bit < 64) (hi : idx ≤ i) : orderGetIdxFromBit (u8 (orderGetParentBitLbit bit idx)) ≤ i / 2 := by
  have hle := u8_le ((idx * 64 + bit) / 2)
  rw [parentBit_eq, orderGetIdxFromBit]
  omega

theorem mem_setChildrenAccesses : a ∈ setChildrenAccesses idx bit i n ↔ ∃ j < n, a = (i + j, wordFrom idx bit j) := by
  induction n generalizing idx bit i
  case zero => simp [setChildrenAccesses]
  case succ n hi =>
    rw [setChildrenAccesses, List.mem_cons, hi]
    simp only [wordFrom_parent, Nat.add_right_comm i 1]
    constructor
    case mp =>
      rintro (rfl | ⟨j, hj, rfl⟩)
      · exact ⟨0, Nat.succ_pos n, rfl⟩
      · exact ⟨j + 1, Nat.succ_lt_succ hj, rfl⟩
    case mpr =>
      rintro ⟨j, hj, rfl⟩
      rcases j with _ | j
      · exact .inl rfl
      · exact .inr ⟨j, Nat.lt_of_succ_lt_succ hj, rfl⟩

theorem mem_setParentsAccesses (h : a ∈ setParentsAccesses r k idx bit n) (hb : bit < 64) (hi : idx ≤ i) :
    ∃ j < n, a.1 = k + j ∧ a.2 ≤ i / 2 ^ j := by
  induction n generalizing k idx bit i
  case zero => cases h
  case succ n hind =>
    rw [setParentsAccesses] at h
    split at h
    case isTrue => cases h
    case isFalse =>
      rcases List.mem_cons.mp h with rfl | h
      · exact ⟨0, Nat.succ_pos n, rfl, by rwa [Nat.pow_zero, Nat.div_one]⟩
      · obtain ⟨j, hj, hk, hle⟩ := hind h (Nat.mod_lt _ (by decide)) (parentWord_le hb hi)
        refine ⟨j + 1, Nat.succ_lt_succ hj, by omega, ?_⟩
        rwa [Nat.pow_succ', ← Nat.div_div_eq_div_mul]

theorem mem_setParentsAccesses_iff (hi : idx ≤ 3) (hb : bit < 64) : a ∈ setParentsAccesses r k idx bit n ↔
    ∃ j < n, (∀ i ≤ j, r.order[k + i]?.map (·.entryn) ≠ some 0) ∧ a = (k + j, wordFrom idx bit j) := by
  induction n generalizing k idx bit
  case zero => simp [setParentsAccesses]
  case succ n hind =>
    have hparent : u8 (orderGetParentBitLbit bit idx) = orderGetParentBitLbit bit idx := by
      rw [parentBit_eq]
      exact u8_of_lt (by omega)
    have hidx : orderGetIdxFromBit (orderGetParentBitLbit bit idx) ≤ 3 := by
      rw [parentBit_eq, orderGetIdxFromBit]
      omega
    rw [setParentsAccesses]
    split
    case isTrue hz =>
      refine iff_of_false List.not_mem_nil ?_
      rintro ⟨j, _, hne, _⟩
      exact hne 0 (Nat.zero_le j) hz
    case isFalse hz =>
      simp only [hparent, List.mem_cons, hind hidx (Nat.mod_lt _ (by decide)), wordFrom_parent, Nat.add_right_comm k 1]
      constructor
      case mp =>
        rintro (rfl | ⟨j, hj, hne, rfl⟩)
        · exact ⟨0, Nat.succ_pos n, fun i hle => by rwa [Nat.le_zero.mp hle], rfl⟩
        · refine ⟨j + 1, Nat.succ_lt_succ hj, fun i hle => ?_, rfl⟩
          rcases i with _ | i
          · exact hz
          · exact hne i (Nat.le_of_succ_le_succ hle)
      case mpr =>
        rintro ⟨j, hj, hne, rfl⟩
        rcases j with _ | j
        · exact .inl rfl
        · exact .inr ⟨j, Nat.lt_of_succ_lt_succ hj, fun i hle => hne (i + 1) (Nat.succ_le_succ hle), rfl⟩

theorem mem_freeParentsAccesses (h : a ∈ freeParentsAccesses r k idx bit n)
    (hi : orderGetIdxFromBit (u8 (orderGetParentBitLbit bit idx)) ≤ i) : ∃ j < n, a.1 = k + j ∧ a.2 ≤ i / 2 ^ j := by
  induction n generalizing k idx bit i
  case zero => cases h
  case succ n hind =>
    rw [freeParentsAccesses] at h
    rcases List.mem_cons.mp h with rfl | h
    · exact ⟨0, Nat.succ_pos n, rfl, by rwa [Nat.pow_zero, Nat.div_one]⟩
    · split at h
      case h_1 => cases h
      case h_2 =>
        split at h
        case isTrue  => cases h
        case isFalse =>
          obtain ⟨j, hj, hk, hle⟩ := hind h (parentWord_le (Nat.mod_lt _ (by decide)) hi)
          refine ⟨j + 1, Nat.succ_lt_succ hj, by omega, ?_⟩
          rwa [Nat.pow_succ', ← Nat.div_div_eq_div_mul]

theorem mem_findWordAccesses (h : a ∈ findWordAccesses order entry idx n) :
    ∃ i < n, a = (order, idx + i) := by
  induction n generalizing idx
  case zero => cases h
  case succ n hi =>
    rw [findWordAccesses] at h
    rcases List.mem_cons.mp h with rfl | h
    · exact ⟨0, Nat.succ_pos n, rfl⟩
    · split at h
      case h_1 => cases h
      case h_2 =>
        split at h
        case isFalse => cases h
        case isTrue =>
          obtain ⟨i, hlt, rfl⟩ := hi h
          exact ⟨i + 1, Nat.succ_lt_succ hlt, by rw [Nat.add_right_comm, Nat.add_assoc]⟩

end Members

section Returns

-- The model stops at an access that is not in the bitmap, and at no other.
abbrev AllIn (r : MemRegion) (l : List Access) : Prop :=
  ∀ a ∈ l, InBitmap r a.1 a.2

theorem Keeps.allIn_iff {l : List Access} (h : Keeps r r') : AllIn r' l ↔ AllIn r l := by
  simp only [AllIn, h.inBitmap_iff]

variable {f : Word → Word} {x : Except Exit MemRegion} {g : MemRegion → Except Exit MemRegion} {l l' : List Access}

theorem returns_bind {α β : Type} {x : Except Exit α} {g : α → Except Exit β} {P Q : Prop}
    (hx : (∃ y, x = .ok y) ↔ P) (hg : ∀ y, x = .ok y → ((∃ z, g y = .ok z) ↔ Q)) :
    (∃ z, (x >>= g) = .ok z) ↔ P ∧ Q := by
  constructor
  case mp =>
    rintro ⟨z, h⟩
    obtain ⟨y, hy, h⟩ := Except.bind_ok_iff.mp h
    exact ⟨hx.mp ⟨y, hy⟩, (hg y hy).mp ⟨z, h⟩⟩
  case mpr =>
    rintro ⟨hp, hq⟩
    obtain ⟨y, hy⟩ := hx.mpr hp
    obtain ⟨z, h⟩ := (hg y hy).mpr hq
    exact ⟨z, Except.bind_ok_iff.mpr ⟨y, hy, h⟩⟩

theorem returns_append (hx : (∃ r₁, x = .ok r₁) ↔ AllIn r l)
    (hg : ∀ r₁, x = .ok r₁ → ((∃ r', g r₁ = .ok r') ↔ AllIn r l')) :
    (∃ r', (x >>= g) = .ok r') ↔ AllIn r (l ++ l') := by
  rw [AllIn, List.forall_mem_append]
  exact returns_bind hx hg

theorem returns_cons (hg : ∀ r₁, r.modify k idx f n = .ok r₁ → ((∃ r', g r₁ = .ok r') ↔ AllIn r l)) :
    (∃ r', (r.modify k idx f n >>= g) = .ok r') ↔ AllIn r ((k, idx) :: l) := by
  have hx : (∃ r₁, r.modify k idx f n = .ok r₁) ↔ AllIn r [(k, idx)] := by
    rw [modify_ok_iff, AllIn, List.forall_mem_singleton]
  exact returns_append hx hg

theorem setChildren_returns_iff : (∃ r', setChildren idx bit i n r = .ok r') ↔
    AllIn r (setChildrenAccesses idx bit i n) := by
  induction n generalizing idx bit i r
  case zero => simp [setChildren, setChildrenAccesses]
  case succ n hi => exact returns_cons fun r₁ h₁ => by rw [hi, (Keeps.set h₁).allIn_iff]

theorem Keeps.setParentsAccesses_eq (h : Keeps r r') :
    setParentsAccesses r' k idx bit n = setParentsAccesses r k idx bit n := by
  induction n generalizing k idx bit
  case zero => rfl
  case succ n hi =>
    rw [setParentsAccesses, setParentsAccesses, h.entryn_eq]
    simp only [hi]

theorem setParents_returns_iff : (∃ r', setParents k idx bit n r = .ok r') ↔
    AllIn r (setParentsAccesses r k idx bit n) := by
  induction n generalizing k idx bit r
  case zero => simp [setParents, setParentsAccesses]
  case succ n hi =>
    unfold setParents
    rw [setParentsAccesses]
    split
    case isTrue => simp [pure, Except.pure]
    case isFalse =>
      exact returns_cons fun r₁ h₁ => by
        rw [hi, (Keeps.set h₁).allIn_iff, (Keeps.set h₁).setParentsAccesses_eq]

theorem setBit_returns_iff : (∃ r', setBit r order idx bit = .ok r') ↔ AllIn r (setBitAccesses r order idx bit) := by
  refine returns_append setChildren_returns_iff fun r₁ h₁ => ?_
  have hk₁ := setChildren_keeps h₁
  rw [← hk₁.allIn_iff]
  refine returns_cons fun r₂ h₂ => ?_
  have hk₂ := hk₁.trans (Keeps.set h₂)
  have hord : r₂.ordern = r.ordern := by rw [hk₂.frame]
  rw [setParents_returns_iff, hk₂.allIn_iff, hk₁.allIn_iff, hk₂.setParentsAccesses_eq, hord]

theorem modify_clearedWord (h : r.modify k idx (· &&& ~~~intBit bit) n = .ok r') :
    ∃ w, clearedWord r k idx bit = some w ∧ r'.order[k]?.bind (·.entry[idx]?) = some w ∧
      ∀ j, k < j → r'.order[j]? = r.order[j]? := by
  obtain ⟨o, w, ho, hw, rfl⟩ := modify_ok h
  have hk : k < r.order.length := (List.getElem?_eq_some_iff.mp ho).1
  have hi : idx < o.entry.length := (List.getElem?_eq_some_iff.mp hw).1
  refine ⟨w &&& ~~~intBit bit, ?_, ?_, fun j hj => List.getElem?_set_ne (Nat.ne_of_lt hj)⟩
  · rw [clearedWord, ho, Option.bind_some, hw, Option.map_some]
  · simp only [MemOrder.write]
    rw [List.getElem?_set_self hk, Option.bind_some, List.getElem?_set_self hi]

theorem freeParentsAccesses_congr (h : ∀ j, k ≤ j → r'.order[j]? = r.order[j]?) :
    freeParentsAccesses r' k idx bit n = freeParentsAccesses r k idx bit n := by
  induction n generalizing k idx bit
  case zero => rfl
  case succ n hi =>
    rw [freeParentsAccesses, freeParentsAccesses]
    simp only [clearedWord, h k (Nat.le_refl k), hi fun j hj => h j (Nat.le_of_succ_le hj)]

theorem freeParents_returns_iff : (∃ r', freeParents k idx bit n r = .ok r') ↔
    AllIn r (freeParentsAccesses r k idx bit n) := by
  induction n generalizing k idx bit r
  case zero => simp [freeParents, freeParentsAccesses]
  case succ n hi =>
    refine returns_cons fun r₁ h₁ => ?_
    obtain ⟨w, hw, hw₁, habove⟩ := modify_clearedWord h₁
    simp only [hw, hw₁]
    split
    case isTrue  => simp
    case isFalse =>
      rw [hi, (Keeps.clear h₁).allIn_iff, freeParentsAccesses_congr fun j hj => habove j hj]

theorem freeBit_returns_iff : (∃ r', freeBit r order idx bit = .ok r') ↔ AllIn r (freeBitAccesses r order idx bit) := by
  refine returns_cons fun r₁ h₁ => ?_
  obtain ⟨w, hw, hw₁, habove⟩ := modify_clearedWord h₁
  simp only [hw, hw₁]
  split
  case isTrue  => simp
  case isFalse =>
    rw [freeParents_returns_iff, (Keeps.clear h₁).allIn_iff, freeParentsAccesses_congr fun j hj => habove j hj]

theorem findWord_returns_iff : (∃ found, findWord entry idx n = .ok found) ↔
    ∀ a ∈ findWordAccesses order entry idx n, a.2 < entry.length := by
  induction n generalizing idx
  case zero => simp [findWord, findWordAccesses]
  case succ n hi =>
    rw [findWord, findWordAccesses]
    cases hw : entry[idx]?
    case none => simp [List.getElem?_eq_none_iff.mp hw]
    case some w =>
      have hlt : idx < entry.length := (List.getElem?_eq_some_iff.mp hw).1
      rw [List.forall_mem_cons, and_iff_right hlt]
      dsimp only
      split
      case isTrue  => exact hi
      case isFalse => simp

theorem allocRegion_returns_iff (ho : r.order[order]? = some m) :
    (∃ p, allocRegion r order = .ok p) ↔ AllIn r (allocRegionAccesses r order) := by
  have hin : AllIn r (findWordAccesses order m.entry 0 ((m.entryn + 63) / 64)) ↔
      ∃ found, findWord m.entry 0 ((m.entryn + 63) / 64) = .ok found := by
    rw [@findWord_returns_iff m.entry order]
    refine forall₂_congr fun a ha => ?_
    obtain ⟨i, _, rfl⟩ := mem_findWordAccesses ha
    simp [InBitmap, ho]
  unfold allocRegion allocRegionAccesses
  simp only [ho]
  split
  case isTrue => simp [pure, Except.pure]
  case isFalse =>
    rw [AllIn, List.forall_mem_append]
    refine returns_bind hin.symm fun found hf => ?_
    rw [hf]
    rcases found with _ | ⟨idx, w⟩
    · simp [pure, Except.pure]
    · refine .trans ?_ setBit_returns_iff
      constructor
      · rintro ⟨_, h⟩
        obtain ⟨r', hs, _⟩ := Except.bind_ok_iff.mp h
        exact ⟨r', hs⟩
      · rintro ⟨r', hs⟩
        exact ⟨_, Except.bind_ok_iff.mpr ⟨r', hs, rfl⟩⟩

theorem Keeps.setBitAccesses_eq (h : Keeps r r') : setBitAccesses r' order idx bit = setBitAccesses r order idx bit := by
  have hord : r'.ordern = r.ordern := by rw [h.frame]
  simp only [setBitAccesses, h.setParentsAccesses_eq, hord]

theorem Keeps.reserveBlocksAccesses_eq (h : Keeps r r') :
    reserveBlocksAccesses r' ptr n = reserveBlocksAccesses r ptr n := by
  have hbase : r'.base = r.base := by rw [h.frame]
  induction n generalizing ptr
  case zero => rfl
  case succ n hi => rw [reserveBlocksAccesses, reserveBlocksAccesses, hi, h.setBitAccesses_eq, hbase]

theorem reserveBlocks_returns_iff : (∃ r', reserveBlocks ptr n r = .ok r') ↔
    AllIn r (reserveBlocksAccesses r ptr n) := by
  induction n generalizing ptr r
  case zero => simp [reserveBlocks, reserveBlocksAccesses]
  case succ n hi =>
    refine returns_append setBit_returns_iff fun r₁ h₁ => ?_
    have hk := setBit_keeps h₁
    rw [hi, hk.allIn_iff, hk.reserveBlocksAccesses_eq]

-- A call returns exactly when the accesses are in the bitmaps.
theorem blockStep_iff (hc : ∀ order, c = .alloc order → ∃ o, r.order[order]? = some o) :
    (∃ r', BlockStep r c r') ↔ AllIn r (accesses r c) := by
  cases c
  case alloc order =>
    obtain ⟨m, ho⟩ := hc order rfl
    rw [accesses, ← allocRegion_returns_iff ho]
    exact ⟨fun ⟨r', .alloc h⟩ => ⟨_, h⟩, fun ⟨_, h⟩ => ⟨_, .alloc h⟩⟩
  case reserve addr n =>
    rw [accesses, ← reserveBlocks_returns_iff]
    exact ⟨fun ⟨r', .reserve h⟩ => ⟨r', h⟩, fun ⟨r', h⟩ => ⟨r', .reserve h⟩⟩
  case free addr =>
    rw [accesses, ← freeBit_returns_iff]
    exact ⟨fun ⟨r', .free h⟩ => ⟨r', h⟩, fun ⟨r', h⟩ => ⟨r', .free h⟩⟩

end Returns

section Created

-- The words of the bitmap for `n` blocks.
def words (n : Nat) : Nat :=
  if n / 64 = 0 then 1 else n / 64

theorem words_pos : 0 < words n := by
  unfold words
  split <;> omega

-- A region of `count` blocks.
structure Sized (count : Nat) (r : MemRegion) : Prop where
  ordern     : r.ordern = countOrders count maxOrder
  blockCount : r.blockCount = count
  order      : ∀ k < countOrders count maxOrder, ∃ o, r.order[k]? = some o ∧ o.entryn = u32 (count / 2 ^ k) ∧
    o.entry.length = words (count / 2 ^ k) ∧ ∀ w ∈ o.entry, Uniform w

variable {old : MemRegion} {e : MmapEntry} {count : Nat}

theorem fillRegion_order (ho : old.order.length = maxOrder) (hk : k < countOrders (blocksIn e.bytes) maxOrder) :
    (fillRegion old e).order[k]? = some (newOrder (blocksIn e.bytes / 2 ^ k)) := by
  obtain ⟨hlt, hpos⟩ := lt_countOrders_iff.mp hk
  have hold : old.order[k]? = some old.order[k] := List.getElem?_eq_getElem (ho ▸ hlt)
  rw [fillRegion, getElem?_makeOrders, hold, Option.map_some, if_pos hpos]

theorem sized_fillRegion (ho : old.order.length = maxOrder) : Sized (blocksIn e.bytes) (fillRegion old e) where
  ordern     := rfl
  blockCount := rfl
  order k hk := by
    refine ⟨newOrder (blocksIn e.bytes / 2 ^ k), fillRegion_order ho hk, rfl, List.length_replicate, ?_⟩
    intro w hw i _ _
    rw [List.eq_of_mem_replicate hw, BitVec.getLsbD_zero, BitVec.getLsbD_zero]

theorem Sized.inBitmap_iff (hs : Sized count r) (hk : k < countOrders count maxOrder) :
    InBitmap r k idx ↔ idx < words (count / 2 ^ k) := by
  obtain ⟨o, ho, _, hlen, _⟩ := hs.order k hk
  simp [InBitmap, ho, hlen]

end Created

end RoverOS.Pmm
