import RoverOS.Pmm.Theorems.InRange

-- Runs that leave the bitmaps of a region, when the blocks do not fill the words or an order is missing.

namespace RoverOS.Pmm

open MemRegion

variable {r r' created old : MemRegion} {o m : MemOrder} {w : Word} {c : BlockCall}
variable {order k n i j t e u idx bit b base addr ptr bytes count : Nat} {entry : MmapEntry}

-- A region as `createRegion` leaves it, without a reserved block.
structure Fresh (count : Nat) (r : MemRegion) : Prop extends Sized count r where
  fresh : ∀ k < countOrders count maxOrder, r.order[k]? = some (newOrder (count / 2 ^ k))
  bytes : count * orderMinBlockSize < 2 ^ 64

theorem fresh_fillRegion (ho : old.order.length = maxOrder) (hb : entry.bytes < 2 ^ 64) :
    Fresh (blocksIn entry.bytes) (fillRegion old entry) where
  toSized := sized_fillRegion ho
  fresh _ hk := fillRegion_order ho hk
  bytes := Nat.lt_of_le_of_lt blocksIn_le hb

theorem newOrder_eq : newOrder n = ⟨u32 n, 0, fillWords (words n) 0⟩ := by
  rw [fillWords_zero]
  rfl

section Calls

variable (hs : Sized count created) (H : StaysInRange created)
include hs H

-- A call returns, as long as all accesses are in range.
theorem StaysInRange.returns (run : Run.Steps BlockStep InRegion created r) (hc : InRegion r c) :
    ∃ r', BlockStep r c r' := by
  have hr := hs.steps run
  rw [blockStep_iff]
  · intro a ha
    obtain ⟨hk, hi⟩ := hs.inRange_iff.mp (H r run c hc a ha)
    exact (hr.inBitmap_iff hk).mpr hi
  · rintro order rfl
    rw [InRegion, hr.ordern] at hc
    obtain ⟨o, ho, _⟩ := hr.order order hc
    exact ⟨o, ho⟩

end Calls

theorem addressToBit_block (hb : b * orderMinBlockSize < 2 ^ 64) :
    orderAddressToBit (base + b * orderMinBlockSize) base = b := by
  rw [orderAddressToBit, sub64_eq (Nat.le_add_right _ _) (by omega), Nat.add_sub_cancel_left]
  exact Nat.mul_div_cancel b (by decide)

theorem addressToBit_base : orderAddressToBit base base = 0 := by
  rw [orderAddressToBit, sub64_eq (Nat.le_refl base) (by omega), Nat.sub_self, Nat.zero_div]

section Orders

-- The loop of `freeBit` over the orders does not stop where nothing is marked.
theorem freeParents_climbs (hz : ∀ j, k ≤ j → j < i → clearedWord r j 0 0 = some 0#64) (hk : k ≤ i)
    (hi : i < k + n) : (i, 0) ∈ freeParentsAccesses r k 0 0 n := by
  induction n generalizing k
  case zero => omega
  case succ n hind =>
    rw [freeParentsAccesses]
    rcases Nat.eq_or_lt_of_le hk with rfl | hlt
    · exact List.mem_cons_self
    · refine List.mem_cons_of_mem _ ?_
      have hw : clearedWord r k (orderGetIdxFromBit (u8 (orderGetParentBitLbit 0 0)))
          (u8 (orderGetParentBitLbit 0 0) % 64) = some 0#64 := hz k (Nat.le_refl k) hlt
      simp only [hw, BitVec.zero_and, ne_eq, not_true_eq_false, if_false]
      exact hind (fun j hj => hz j (Nat.le_of_succ_le hj)) hlt (by omega)

theorem Fresh.clearedWord (h : Fresh count r) (hk : k < countOrders count maxOrder) :
    clearedWord r k 0 0 = some 0#64 := by
  have hw : (newOrder (count / 2 ^ k)).entry[0]? = some 0#64 := by
    rw [newOrder_eq, fillWords_zero, List.getElem?_replicate, if_pos words_pos]
  rw [Pmm.clearedWord, h.fresh k hk, Option.bind_some, hw]
  rfl

-- With fewer than 512 blocks an order is missing, and the first block is freed in it too.
theorem Fresh.missing (h : Fresh count created) (h0 : count ≠ 0) (hlt : count < 512) : ¬StaysInRange created := by
  intro H
  have hbit := @addressToBit_base created.base
  have hc : InRegion created (.free created.base) := by
    rw [InRegion, hbit, h.blockCount]
    exact Nat.pos_of_ne_zero h0
  have hord : countOrders count maxOrder < maxOrder := by
    by_contra hge
    have hl := (lt_countOrders_iff (i := maxOrder - 1)).mp (Nat.lt_of_lt_of_le (by decide) (Nat.le_of_not_lt hge))
    have h9 : count / 2 ^ (maxOrder - 1) > 0 := hl.2
    rw [maxOrder] at h9
    omega
  have hpos : 0 < countOrders count maxOrder := by
    rw [lt_countOrders_iff]
    exact ⟨by decide, by rw [Nat.pow_zero, Nat.div_one]; omega⟩
  have hmem : (countOrders count maxOrder, 0) ∈ accesses created (.free created.base) := by
    rw [accesses, hbit, freeBitAccesses]
    refine List.mem_cons_of_mem _ ?_
    have hw : Pmm.clearedWord created 0 (orderGetIdxFromBit 0) (u8 0) = some 0#64 := h.clearedWord hpos
    simp only [hw, BitVec.zero_and, ne_eq, not_true_eq_false, if_false]
    exact freeParents_climbs (fun j _ hj => h.clearedWord hj) hpos (by omega)
  have hin := h.inRange_iff.mp (H created (.refl _) _ hc _ hmem)
  exact Nat.lt_irrefl _ hin.1

-- The last blocks have no word.
theorem Fresh.partial_word (h : Fresh count created) (hge : 64 ≤ count) (hd : ¬64 ∣ count) : ¬StaysInRange created := by
  intro H
  have hlt : 64 * (count / 64) < count := by omega
  have hbit : orderAddressToBit (created.base + 64 * (count / 64) * orderMinBlockSize) created.base =
      64 * (count / 64) :=
    addressToBit_block (Nat.lt_of_le_of_lt (Nat.mul_le_mul_right _ (Nat.le_of_lt hlt)) h.bytes)
  have hc : InRegion created (.free (created.base + 64 * (count / 64) * orderMinBlockSize)) := by
    rwa [InRegion, hbit, h.blockCount]
  have hmem : (0, count / 64) ∈ accesses created (.free (created.base + 64 * (count / 64) * orderMinBlockSize)) := by
    rw [accesses, hbit, freeBitAccesses, orderGetIdxFromBit, Nat.mul_div_cancel_left _ (by decide)]
    exact List.mem_cons_self
  have hin := (h.inRange_iff.mp (H created (.refl _) _ hc _ hmem)).2
  rw [Nat.pow_zero, Nat.div_one, words, if_neg (by omega)] at hin
  exact Nat.lt_irrefl _ hin

end Orders

section Fill

theorem findWord_eq {entry : List Word} (hfull : ∀ j < i, entry[idx + j]? = some 0xFFFFFFFFFFFFFFFF)
    (hw : entry[idx + i]? = some w) (hne : w ≠ 0xFFFFFFFFFFFFFFFF) (hi : i < n) :
    findWord entry idx n = .ok (some (idx + i, w)) := by
  induction n generalizing idx i
  case zero => cases hi
  case succ n hind =>
    rw [findWord]
    cases i
    case zero =>
      rw [Nat.add_zero] at hw
      simp only [hw, if_neg hne, Nat.add_zero]
    case succ i =>
      have h₀ := hfull 0 (Nat.succ_pos i)
      rw [Nat.add_zero] at h₀
      have hnext (j : Nat) : idx + (j + 1) = idx + 1 + j := Nat.add_right_comm idx j 1
      simp only [h₀, if_true]
      rw [hnext i] at hw ⊢
      refine hind (fun j hj => ?_) hw (Nat.lt_of_succ_lt_succ hi)
      rw [← hnext]
      exact hfull (j + 1) (Nat.succ_lt_succ hj)

theorem findWordAccesses_full {entry : List Word} (hfull : ∀ j < i, entry[idx + j]? = some 0xFFFFFFFFFFFFFFFF)
    (hi : i < n) : (order, idx + i) ∈ findWordAccesses order entry idx n := by
  induction n generalizing idx i
  case zero => cases hi
  case succ n hind =>
    rw [findWordAccesses]
    cases i
    case zero      => exact List.mem_cons_self
    case succ i =>
      refine List.mem_cons_of_mem _ ?_
      have h₀ := hfull 0 (Nat.succ_pos i)
      rw [Nat.add_zero] at h₀
      have hnext (j : Nat) : idx + (j + 1) = idx + 1 + j := Nat.add_right_comm idx j 1
      simp only [h₀, if_true]
      rw [hnext i]
      refine hind (fun j hj => ?_) (Nat.lt_of_succ_lt_succ hi)
      rw [← hnext]
      exact hfull (j + 1) (Nat.succ_lt_succ hj)

-- The first clear bit is behind the marks.
theorem findBit_fillWord (ht : t < 32) (hn : n ≤ 64) : findBit (fillWord t) 0 n = min t n := by
  obtain ⟨_, hle, hclear, hbefore⟩ := findBit_spec (fillWord t) 0 n
  rw [Nat.zero_add] at hle hclear
  have hmax : findBit (fillWord t) 0 n ≤ t := by
    by_contra hgt
    have hset := fillWord_and_intBit.mp (hbefore t (Nat.zero_le t) (by omega))
    omega
  have hmin : findBit (fillWord t) 0 n < n → t ≤ findBit (fillWord t) 0 n := by
    intro hlt
    have hnot : ¬findBit (fillWord t) 0 n % 32 < t := fun hs => fillWord_and_intBit.mpr hs (hclear hlt)
    omega
  omega

theorem fillWords_set (ht : t / 32 < n) :
    (fillWords n t).set (t / 32) (fillWord (t % 32) ||| intBit (t % 32)) = fillWords n (t + 1) := by
  have hget : (fillWords n t)[t / 32]? = some (fillWord (t % 32)) := by
    rw [getElem?_fillWords, if_pos ht]
    congr 2
    omega
  rw [← fillWords_succ]
  apply List.ext_getElem?
  intro i
  rw [List.getElem?_set, List.getElem?_modify]
  split
  case isTrue he =>
    subst he
    rw [hget, if_pos (by rw [length_fillWords]; exact ht)]
    rfl
  case isFalse => simp

theorem findWord_fillWords (ht : t < 32 * n) (hi : t / 32 < i) :
    findWord (fillWords n t) 0 i = .ok (some (t / 32, fillWord (t % 32))) := by
  have hw : (fillWords n t)[0 + t / 32]? = some (fillWord (t % 32)) := by
    rw [Nat.zero_add, getElem?_fillWords, if_pos (by omega)]
    congr 2
    omega
  have hfind := @findWord_eq (fillWord (t % 32)) i (t / 32) 0 (fillWords n t) (fun j hj => ?_) hw
    (fillWord_ne_full (Nat.mod_lt _ (by decide))) hi
  · rwa [Nat.zero_add] at hfind
  · rw [Nat.zero_add, getElem?_fillWords, if_pos (by omega), fillWord_full (by omega)]

-- An order of `e` blocks, of which `t` were marked one after the other.
theorem allocRegion_fills (ho : r.order[k]? = some ⟨e, t, fillWords n t⟩) (hu : t < e) (ht : t < 32 * n)
    (he : 64 * (t / 32) + t % 32 < e) (h32 : e < 2 ^ 32) (h : allocRegion r k = .ok (ptr, r')) :
    r'.order[k]? = some ⟨e, t + 1, fillWords n (t + 1)⟩ := by
  have hfind := @findWord_fillWords n ((e + 63) / 64) t ht (by omega)
  rcases (allocRegion_ok_iff ho).mp h with ⟨hfail, _⟩ | ⟨_, idx, w, hf, hset, _⟩
  · rcases hfail with hle | hnone
    · exact absurd hu (Nat.not_lt_of_le hle)
    · cases hfind.symm.trans hnone
  · cases hfind.symm.trans hf
    have hbit : findBit (fillWord (t % 32)) 0 (min 64 (e - t / 32 * 64)) = t % 32 := by
      rw [findBit_fillWord (Nat.mod_lt _ (by decide)) (Nat.min_le_left _ _)]
      omega
    simp only [hbit] at hset
    obtain ⟨o, w, ho', hw, hown⟩ := setBit_own hset
    cases ho.symm.trans ho'
    have hget : (fillWords n t)[t / 32]? = some (fillWord (t % 32)) := by
      rw [getElem?_fillWords, if_pos (by omega)]
      congr 2
      omega
    cases hget.symm.trans hw
    have hused : u32 (t + 1) = t + 1 := u32_of_lt (by omega)
    rw [hown, MemOrder.write, fillWords_set (by omega), hused]

-- The state after `t` calls for an order.
structure Filled (count : Nat) (created : MemRegion) (k t : Nat) (r : MemRegion) : Prop where
  run   : Run.Steps BlockStep InRegion created r
  order : r.order[k]? = some ⟨u32 (count / 2 ^ k), t, fillWords (words (count / 2 ^ k)) t⟩

theorem Fresh.exists_filled (h : Fresh count created) (H : StaysInRange created) (hk : k < countOrders count maxOrder)
    (hu : t ≤ u32 (count / 2 ^ k)) (ht : t ≤ 32 * words (count / 2 ^ k))
    (he : ∀ j < t, 64 * (j / 32) + j % 32 < u32 (count / 2 ^ k)) : ∃ r, Filled count created k t r := by
  induction t
  case zero => exact ⟨created, .refl _, by rw [h.fresh k hk, newOrder_eq]⟩
  case succ t hi =>
    obtain ⟨r, hf⟩ := hi (Nat.le_of_succ_le hu) (Nat.le_of_succ_le ht) fun j hj => he j (Nat.lt_succ_of_lt hj)
    have hc : InRegion r (.alloc k) := by rwa [InRegion, (h.toSized.steps hf.run).ordern]
    obtain ⟨r', hstep⟩ := H.returns h.toSized hf.run hc
    refine ⟨r', .step hf.run hc hstep, ?_⟩
    cases hstep
    case alloc ha => exact allocRegion_fills hf.order hu ht (he t (Nat.lt_succ_self t)) (u32_lt _) ha

-- The scan comes to a word behind the bitmap when all words are full.
theorem Fresh.overrun (h : Fresh count created) (hk : k < countOrders count maxOrder) (hge : 64 ≤ count / 2 ^ k)
    (hlt : count / 2 ^ k < 2 ^ 32) (hd : ¬64 ∣ count / 2 ^ k) : ¬StaysInRange created := by
  intro H
  have hu : u32 (count / 2 ^ k) = count / 2 ^ k := u32_of_lt hlt
  have hw : words (count / 2 ^ k) = count / 2 ^ k / 64 := by rw [words, if_neg (by omega)]
  obtain ⟨r, hf⟩ := @Fresh.exists_filled created k (32 * words (count / 2 ^ k)) count h H hk (by omega)
    (Nat.le_refl _) (fun j hj => by omega)
  have hc : InRegion r (.alloc k) := by rwa [InRegion, (h.toSized.steps hf.run).ordern]
  have hmem : (k, words (count / 2 ^ k)) ∈ accesses r (.alloc k) := by
    rw [accesses, allocRegionAccesses]
    simp only [hf.order]
    rw [if_neg (by omega)]
    refine List.mem_append_left _ ?_
    have hscan := @findWordAccesses_full k ((u32 (count / 2 ^ k) + 63) / 64) (words (count / 2 ^ k)) 0
      (fillWords (words (count / 2 ^ k)) (32 * words (count / 2 ^ k))) (fun j hj => ?_) (by omega)
    · rwa [Nat.zero_add] at hscan
    · rw [Nat.zero_add, getElem?_fillWords, if_pos hj, fillWord_full (by omega)]
  have hin := (h.inRange_iff.mp (H r hf.run _ hc _ hmem)).2
  exact Nat.lt_irrefl _ hin

end Fill

section Counter

-- The first parents of an order are marked by every call for block 0.
theorem setParents_first (h : setParents k 0 0 n r = .ok r') (hj : k ≤ j) (hlt : j < k + n)
    (he : ∀ i, k ≤ i → i ≤ j → r.order[i]?.map (·.entryn) ≠ some 0) (ho : r.order[j]? = some o)
    (hw : o.entry[0]? = some w) : r'.order[j]? = some (o.write 0 (w ||| intBit 0) 1) := by
  induction n generalizing k r
  case zero => omega
  case succ n hi =>
    unfold setParents at h
    rw [if_neg (he k (Nat.le_refl k) hj)] at h
    obtain ⟨r₁, h₁, h⟩ := Except.bind_ok_iff.mp h
    have hkeeps := Keeps.set h₁
    obtain ⟨o', w', ho', hw', rfl⟩ := modify_ok h₁
    rcases Nat.eq_or_lt_of_le hj with rfl | hkj
    · cases ho.symm.trans ho'
      cases hw.symm.trans hw'
      rw [(setParents_above h).below k (Nat.lt_succ_self k)]
      exact List.getElem?_set_self (List.getElem?_eq_some_iff.mp ho).1
    · refine hi h hkj (by omega) (fun i hl hu => ?_) ((List.getElem?_set_ne (Nat.ne_of_lt hkj)).trans ho)
      rw [hkeeps.entryn_eq]
      exact he i (Nat.le_of_succ_le hl) hu

theorem setBit_first (h : setBit r 0 0 0 = .ok r') (hj : 1 ≤ j) (hlt : j < r.ordern)
    (he : ∀ i, 1 ≤ i → i ≤ j → r.order[i]?.map (·.entryn) ≠ some 0) (ho : r.order[j]? = some o)
    (hw : o.entry[0]? = some w) : r'.order[j]? = some (o.write 0 (w ||| intBit 0) 1) := by
  obtain ⟨r₀, h₀, h⟩ := Except.bind_ok_iff.mp h
  cases h₀
  obtain ⟨r₁, h₁, h⟩ := Except.bind_ok_iff.mp h
  have hkeeps := Keeps.set h₁
  obtain ⟨o', w', ho', hw', rfl⟩ := modify_ok h₁
  refine setParents_first h hj (by dsimp only; omega) (fun i hl hu => ?_)
    ((List.getElem?_set_ne (Nat.ne_of_lt hj)).trans ho) hw
  rw [hkeeps.entryn_eq]
  exact he i hl hu

theorem fillWord_first (h1 : 1 ≤ e) (he : e < 32) : fillWord e ||| intBit 0 = fillWord e := by
  have h : ∀ e < 32, 1 ≤ e → fillWord e ||| intBit 0 = fillWord e := by decide
  exact h e he h1

-- A block that is reserved again counts again.
theorem reserve_counts (hs : Sized count r) (hc : countOrders count maxOrder = maxOrder) (hlt : count < 2 ^ 32)
    (h1 : 1 ≤ e) (h32 : e < 32) (ho : r.order[9]? = some ⟨e, u, fillWords 1 e⟩)
    (h : BlockStep r (.reserve r.base 1) r') : r'.order[9]? = some ⟨e, u32 (u + 1), fillWords 1 e⟩ := by
  have hset : setBit r 0 0 0 = .ok r' := by
    cases h
    case reserve h =>
      obtain ⟨r₁, h₁, h⟩ := Except.bind_ok_iff.mp h
      cases h
      rwa [addressToBit_base] at h₁
  have hne : ∀ i, 1 ≤ i → i ≤ 9 → r.order[i]?.map (·.entryn) ≠ some 0 := by
    intro i _ hi
    have hi : i < countOrders count maxOrder := by
      rw [hc]
      exact Nat.lt_succ_of_le hi
    obtain ⟨o, hoi, hn, _⟩ := hs.order i hi
    have hpos := (lt_countOrders_iff.mp hi).2
    have hle := Nat.div_le_self count (2 ^ i)
    rw [hoi, Option.map_some, hn, u32_of_lt (by omega)]
    exact fun h0 => Nat.ne_of_gt hpos (Option.some.inj h0)
  have hord : 9 < r.ordern := by
    rw [hs.ordern, hc]
    decide
  have hw : (fillWords 1 e)[0]? = some (fillWord e) := by rw [getElem?_fillWords, if_pos (by decide)]; rfl
  rw [setBit_first hset (by decide) hord hne ho hw, MemOrder.write, fillWord_first h1 h32]
  have hsame : (fillWords 1 e).set 0 (fillWord e) = fillWords 1 e := rfl
  rw [hsame]

theorem Fresh.exists_counted (h : Fresh (512 * e) created) (H : StaysInRange created) (h1 : 1 ≤ e) (h32 : e < 32) :
    ∃ r, Run.Steps BlockStep InRegion created r ∧ r.order[9]? = some ⟨e, u32 (e + i), fillWords 1 e⟩ := by
  have hc : countOrders (512 * e) maxOrder = maxOrder := countOrders_eq (by omega)
  have hk : 9 < countOrders (512 * e) maxOrder := by
    rw [hc]
    decide
  have hdiv : 512 * e / 2 ^ 9 = e := Nat.mul_div_cancel_left e (by decide)
  have hu : u32 e = e := u32_of_lt (by omega)
  have hwords : words e = 1 := if_pos (by omega)
  induction i
  case zero =>
    obtain ⟨r, hf⟩ := @Fresh.exists_filled created 9 e _ h H hk (by rw [hdiv, hu])
      (by rw [hdiv, hwords]; omega) (fun j hj => by rw [hdiv, hu]; omega)
    have ho := hf.order
    rw [hdiv, hu, hwords] at ho
    exact ⟨r, hf.run, by rw [Nat.add_zero, hu, ho]⟩
  case succ i hi =>
    obtain ⟨r, run, ho⟩ := hi
    have hs := h.toSized.steps run
    have hin : InRegion r (.reserve r.base 1) := by
      intro j hj
      have hj : j = 0 := by omega
      have h0 : blockAt r.base r.base 0 = 0 := addressToBit_base
      rw [hj, h0, hs.blockCount]
      omega
    obtain ⟨r', hstep⟩ := H.returns h.toSized run hin
    refine ⟨r', .step run hin hstep, ?_⟩
    have hnext : u32 (u32 (e + i) + 1) = u32 (e + (i + 1)) := by
      unfold u32
      omega
    rw [reserve_counts hs hc (by omega) h1 h32 ho hstep, hnext]

-- When the counter of order 9 has gone around, the block behind the last one is taken.
theorem Fresh.wraps (h : Fresh (512 * e) created) (h1 : 1 ≤ e) (h32 : e < 32) : ¬StaysInRange created := by
  intro H
  obtain ⟨r, run, ho⟩ := h.exists_counted (i := 2 ^ 32 - e) H h1 h32
  have hzero : u32 (e + (2 ^ 32 - e)) = 0 := by
    unfold u32
    omega
  rw [hzero] at ho
  have hc : InRegion r (.alloc 9) := by
    rw [InRegion, (h.toSized.steps run).ordern, countOrders_eq (by omega)]
    decide
  have hfind : findWord (fillWords 1 e) 0 ((e + 63) / 64) = .ok (some (0, fillWord e)) := by
    have hf := @findWord_fillWords 1 ((e + 63) / 64) e (by omega) (by omega)
    rwa [Nat.div_eq_of_lt h32, Nat.mod_eq_of_lt h32] at hf
  have hbit : findBit (fillWord e) 0 (min 64 (e - 0 * 64)) = e := by
    rw [findBit_fillWord h32 (Nat.min_le_left _ _)]
    omega
  have hchild : e * 2 ^ 9 / 64 = 8 * e := by omega
  have hmem : (0, 8 * e) ∈ accesses r (.alloc 9) := by
    rw [accesses, allocRegionAccesses]
    simp only [ho]
    rw [if_neg (by omega), hfind]
    refine List.mem_append_right _ ?_
    dsimp only
    rw [hbit, setBitAccesses]
    simp only [orderGetIdxFromBit, childBase_div (by omega : e < 64) (by decide : 9 < maxOrder), hchild]
    exact List.mem_append_left _ List.mem_cons_self
  have hin := (h.inRange_iff.mp (H r run _ hc _ hmem)).2
  have hwords : words (512 * e / 2 ^ 0) = 8 * e := by
    rw [Nat.pow_zero, Nat.div_one, words, if_neg (by omega)]
    omega
  rw [hwords] at hin
  exact Nat.lt_irrefl _ hin

end Counter

section Iff

theorem Fresh.divides (h : Fresh count created) (H : StaysInRange created) : Divides count := by
  by_contra hn
  rcases Nat.eq_zero_or_pos count with h0 | hpos
  · exact hn (.inl h0)
  rcases Nat.lt_or_ge count 512 with hlt | hge
  · exact h.missing (Nat.ne_of_gt hpos) hlt H
  by_cases hd : 64 ∣ count
  case neg => exact h.partial_word (Nat.le_trans (by decide) hge) hd H
  by_cases hfit : ∀ k < maxOrder, WordsFit k (count / 2 ^ k)
  case pos =>
    have hlt : count < 16384 := Nat.lt_of_not_le fun hle => hn (.inr ⟨hle, hfit⟩)
    have he : count = 512 * (count / 512) := by
      have h₃ := hfit 3 (by decide)
      unfold WordsFit at h₃
      omega
    rw [he] at h
    exact h.wraps (by omega) (by omega) H
  case neg =>
    simp only [not_forall] at hfit
    obtain ⟨k, hk, hfit⟩ := hfit
    unfold WordsFit at hfit
    have hk' : k < countOrders count maxOrder := by rwa [countOrders_eq hge]
    have h0 : k ≠ 0 := by
      rintro rfl
      rw [Nat.pow_zero, Nat.div_one] at hfit
      exact hfit (.inr (.inl hd))
    exact h.overrun hk' (by omega) (by omega) (by omega) H

-- The accesses stay in range whatever is done, exactly when there are ten orders and every one fills its words.
theorem accesses_inRange_iff (ho : old.order.length = maxOrder) (hb : entry.bytes < 2 ^ 64) :
    StaysInRange (fillRegion old entry) ↔ Divides (blocksIn entry.bytes) :=
  ⟨(fresh_fillRegion ho hb).divides, (sized_fillRegion ho).staysInRange⟩

end Iff

section Example

-- 256 MB.
def wholeWords : MmapEntry :=
  { magic := 0, flags := 0, type := 1, phys := 0x100000, virt := 0, bytes := 0x10000000 }

theorem accesses_inRange_wholeWords : StaysInRange (fillRegion zeroRegion wholeWords) := by
  have hd : Divides (blocksIn wholeWords.bytes) := by
    refine .inr ⟨by decide, ?_⟩
    intro k hk
    have h : ∀ k < maxOrder, 16384 / 2 ^ k < 64 ∨ 64 ∣ 16384 / 2 ^ k := by decide
    exact (h k hk).imp_right .inl
  exact (accesses_inRange_iff rfl (by decide)).mpr hd

-- Of four blocks the first is freed in order 3, where there is none.
theorem freeBit_outside : ¬∀ (old : MemRegion) (entry : MmapEntry), old.order.length = maxOrder →
    entry.bytes < 2 ^ 64 → StaysInRange (fillRegion old entry) := by
  intro h
  have hmem : (3, 0) ∈ accesses (fillRegion zeroRegion lowEntry) (.free 0x100000) := by decide
  have hc : orderAddressToBit 0x100000 (fillRegion zeroRegion lowEntry).base <
      (fillRegion zeroRegion lowEntry).blockCount := by decide
  have hin := h zeroRegion lowEntry rfl (by decide) _ (.refl _) (.free 0x100000) hc _ hmem
  exact absurd hin.1 (by decide)

end Example

end RoverOS.Pmm
