import RoverOS.Pmm.Theorems.Blocks

-- When the calls of a run are allowed, no two live blocks overlap. The marking of children and the
-- address of a block go wrong outside of the first 31 blocks of order 0, and there they do.

namespace RoverOS.Pmm

open MemRegion

variable {s s' : State} {p p' : Regions} {region : List MemRegion} {r r' : MemRegion}
variable {i n bytes type ptr actual addr ret fuel : Nat} {flags : BitVec 16} {lock : Bool}

section Alloc

theorem orderFor_small (h : bytes ≤ orderMinBlockSize) :
    orderFor bytes orderMinBlockSize 0 maxOrder = 0 :=
  if_pos h

theorem allocPhys_ok (hb : bytes ≤ orderMinBlockSize)
    (h : allocPhys bytes type flags p = .ok ((ptr, actual), p')) :
    ∃ i r r', bestRegion type (strictFlags type flags) 0 0 none p.region = .ok (some i) ∧
      p.region[i]? = some r ∧ allocRegion r 0 = .ok (ptr, r') ∧ actual = orderMinBlockSize ∧
      p' = { p with region := p.region.set i r' } := by
  unfold allocPhys at h
  have ⟨_, _, h⟩ := Except.bind_ok_iff.mp h
  simp only [orderFor_small hb] at h
  rw [if_neg (by decide)] at h
  have ⟨best, hbest, h⟩ := Except.bind_ok_iff.mp h
  split at h
  case h_1 => cases h
  case h_2 i =>
    split at h
    case h_1 => cases h
    case h_2 r hr =>
      have ⟨⟨ptr', r'⟩, ha, h⟩ := Except.bind_ok_iff.mp h
      cases h
      exact ⟨i, r, r', hbest, hr, ha, rfl, rfl⟩

theorem allocRegion_full (hu : r.leaves.used ≥ r.leaves.entryn)
    (h : allocRegion r 0 = .ok (ptr, r')) : ptr = memoryAllocationFailed ∧ r' = r := by
  unfold allocRegion at h
  split at h
  case h_1 => cases h
  case h_2 o ho =>
    have hl : r.leaves = o := by simp [leaves, ho]
    rw [hl] at hu
    rw [if_pos hu] at h
    cases h
    exact ⟨rfl, rfl⟩

theorem absAddress_leaf (w : WellFormed r) (hn : n < 31) (he : n < r.leaves.entryn) :
    orderCalculateAbsAddress 0 n r.base = (r.block n).1 := by
  have hb := w.bound
  have hl := w.limit
  have hc := w.entryn
  simp only [orderCalculateAbsAddress, orderGetChildNum, block, orderMinBlockSize, u64] at hb ⊢
  rw [Nat.shiftLeft_zero, Nat.mod_eq_of_lt (by omega : n < 2 ^ 64), Nat.mod_eq_of_lt (by omega)]
  omega

theorem Update.refl (w : WellFormed r) (hr : region[i]? = some r) : Update region i r r :=
  ⟨hr, rfl, rfl, w.count, w.used⟩

theorem Update.of_set (w : WellFormed r) (hr : region[i]? = some r) (hn : n < 31)
    (hu : r.leaves.used + 1 < 2 ^ 32) (h : Writes (· ||| intBit n) 1 r r') :
    Update region i r r' where
  get    := hr
  frame  := h.frame
  entryn := h.entryn
  count  := h.used ▸ u32_lt _
  used he := by
    rw [h.word, h.used, u32_of_lt hu]
    exact (setBits_or_intBit_le hn).trans (Nat.add_le_add_right (w.used he) 1)

-- Below 31 the counter shows that a block is left whenever it does not say that none is.
theorem exists_clear_leaf (w : WellFormed r) (hu : r.leaves.used < r.leaves.entryn)
    (h : n < 31) (hc : r.word.getLsbD n = false) :
    ∃ k < 31, k < r.leaves.entryn ∧ r.word.getLsbD k = false := by
  by_cases he : n < r.leaves.entryn
  case pos => exact ⟨n, h, he, hc⟩
  case neg =>
    have ⟨k, hk, hc⟩ := exists_clear_of_setBits_lt (lt_of_le_of_lt (w.used (by omega)) hu)
    exact ⟨k, by omega, hk, hc⟩

theorem Inv.alloc (h : Inv s) (ha : AllocAllowed s bytes type flags)
    (hs : allocPhys bytes type flags s.pmm = .ok ((ptr, actual), p)) :
    Inv { s with
      pmm  := p
      live := if ptr = memoryAllocationFailed then s.live else (ptr, actual) :: s.live } := by
  have ⟨i, r, r', hi, hr, hreg, he, hp⟩ := allocPhys_ok ha.left hs
  have w := h.table.wellFormed hr
  subst hp he
  rcases ha.right i r hi hr with hu | ⟨n, hn, hc⟩
  case inl =>
    have ⟨hptr, hr'⟩ := allocRegion_full hu hreg
    rw [if_pos hptr, hr']
    exact h.mark (.refl w hr) (fun _ h => h) _
  case inr =>
    by_cases hu : r.leaves.used < r.leaves.entryn
    case neg =>
      have ⟨hptr, hr'⟩ := allocRegion_full (by omega) hreg
      rw [if_pos hptr, hr']
      exact h.mark (.refl w hr) (fun _ h => h) _
    case pos =>
      have ⟨k, hk, hke, hkc⟩ := exists_clear_leaf w hu hn hc
      rcases allocRegion_leaf hk hke hkc hreg with ⟨hptr, hr'⟩ | ⟨m, hm, hme, hmc, hu, hw, hptr⟩
      case inl =>
        rw [if_pos hptr, hr']
        exact h.mark (.refl w hr) (fun _ h => h) _
      case inr =>
        have hsmall := w.small
        have u := Update.of_set w hr hm (by omega) hw
        have hbits (k : Nat) : r'.word.getLsbD k = (r.word.getLsbD k || decide (m = k)) := by
          rw [hw.word, getLsbD_or_intBit hm]
        rw [hptr, absAddress_leaf w hm hme]
        split
        case isTrue  => exact h.mark u (fun k hk => by rw [hbits, hk, Bool.true_or]) _
        case isFalse => exact h.hand_out u ⟨hr, hm, hme⟩ hmc hbits _

end Alloc

section Free

theorem freeNPhys_block (hp : ptr < 2 ^ 64)
    (h : freeNPhys fuel ptr orderMinBlockSize p = .ok p') : freePhys ptr p = .ok p' := by
  unfold freeNPhys at h
  split at h
  case isTrue hu => exact (if_pos hu).trans h
  case isFalse =>
    cases fuel
    case zero => cases h
    case succ fuel =>
      have ⟨p₁, h₁, h⟩ := Except.bind_ok_iff.mp h
      rw [if_pos (by decide)] at h
      cases h
      simpa [u32, u64_of_lt hp] using h₁

-- A block that is no longer live may stay marked.
theorem Inv.forget (h : Inv s) (b : Range) :
    Inv { pmm      := { s.pmm with buddyLock := lock }
          live     := s.live.erase b
          reserved := s.reserved } where
  table := h.table
  nodup := h.nodup.erase _
  live b hb := h.live b (List.mem_of_mem_erase hb)
  clear := h.clear
  apart b hb := h.apart b (List.mem_of_mem_erase hb)

theorem Inv.free (h : Inv s) (ha : FreeAllowed s ptr) (hl : (ptr, actual) ∈ s.live)
    (hs : freeNPhys fuel ptr actual s.pmm = .ok p) :
    Inv { s with pmm := p, live := s.live.erase (ptr, actual) } := by
  obtain ⟨j, n, r, hn, _, he⟩ := h.live _ hl
  have w := h.table.wellFormed hn.get
  have hlim := hn.lt_limit h.table
  rw [← he] at hlim
  have hlimit := w.limit
  have hactual : actual = orderMinBlockSize := congrArg Prod.snd he
  have hptr : ptr = r.base + n * orderMinBlockSize := congrArg Prod.fst he
  subst hactual
  have hlt : ptr < r.limit := by
    simp only [orderMinBlockSize] at hlim
    omega
  have hs := freeNPhys_block (by omega) hs
  unfold freePhys at hs
  split at hs
  case isTrue => cases hs; exact h.forget _
  case isFalse =>
    obtain ⟨_, _, hs⟩ := Except.bind_ok_iff.mp hs
    split at hs
    case h_1 => cases hs; exact h.forget _
    case h_2 i hi =>
      split at hs
      case h_1 => cases hs
      case h_2 reg hreg =>
        obtain ⟨reg', hf, hs⟩ := Except.bind_ok_iff.mp hs
        cases hs
        have hij := ha i j r hi hn.get hlim.left hlt
        subst hij
        cases Option.some.inj (hreg.symm.trans hn.get)
        have hlt31 := hn.lt
        have hbit : orderAddressToBit ptr r.base = n := by
          rw [orderAddressToBit, sub64_of_le hlim.left (by omega), hptr, Nat.add_sub_cancel_left]
          exact Nat.mul_div_cancel n (by decide)
        have hidx : orderGetIdxFromBit n = 0 := Nat.div_eq_of_lt (by omega)
        rw [hbit, hidx, u8_of_lt (by omega)] at hf
        have hw := freeBit_writes hf
        have hbits (k : Nat) : reg'.word.getLsbD k = (r.word.getLsbD k && !decide (n = k)) := by
          rw [hw.word, getLsbD_and_not_intBit hlt31]
        have u : Update s.pmm.region i r reg' := by
          refine ⟨hn.get, hw.frame, hw.entryn, hw.used ▸ u32_lt _, fun hsmall => ?_⟩
          rw [hw.used, Nat.add_zero, u32_of_lt w.count]
          refine (setBits_le_of_imp fun k hk => ?_).trans (w.used hsmall)
          rw [hbits] at hk
          exact (Bool.and_eq_true_iff.mp hk).left
        rw [he]
        exact h.take_back u hn (he ▸ hl) hbits _

end Free

section Reserve

-- What marking the `n` blocks from block `m` on leaves.
structure Reserves (m n : Nat) (r r' : MemRegion) : Prop where
  frame  : r' = { r with order := r'.order }
  entryn : r'.leaves.entryn = r.leaves.entryn
  used   : r'.leaves.used = r.leaves.used + n
  word   : ∀ k, r'.word.getLsbD k = (r.word.getLsbD k || decide (m ≤ k ∧ k < m + n))
  count  : ∀ k, setBits r'.word k ≤ setBits r.word k + n

theorem reserveBlocks_reserves {m : Nat} (hb : r.base ≤ ptr)
    (hm : (ptr - r.base) / orderMinBlockSize = m) (hn : m + n ≤ 31)
    (hu : r.leaves.used + n < 2 ^ 32) (ho : ∀ j < n, ptr + j * orderMinBlockSize < 2 ^ 64)
    (h : reserveBlocks ptr n r = .ok r') : Reserves m n r r' := by
  induction n generalizing ptr r m
  case zero =>
    cases h
    refine ⟨rfl, rfl, rfl, fun k => ?_, fun k => le_rfl⟩
    rw [decide_eq_false (by omega), Bool.or_false]
  case succ n hi =>
    have hptr := ho 0 (by omega)
    have ⟨r₁, h₁, h⟩ := Except.bind_ok_iff.mp h
    have hbit : orderAddressToBit ptr r.base = m := by
      rw [orderAddressToBit, sub64_of_le hb (by omega), hm]
    have hidx : u32 (orderGetIdxFromBit m) = 0 := by
      rw [orderGetIdxFromBit, Nat.div_eq_of_lt (by omega)]
      rfl
    rw [hbit, hidx, Nat.mod_eq_of_lt (by omega : m < 64)] at h₁
    have hw := setBit_writes h₁
    have hbase : r₁.base = r.base := by rw [hw.frame]
    have hused : r₁.leaves.used = r.leaves.used + 1 := by rw [hw.used, u32_of_lt (by omega)]
    have hstep : Reserves (m + 1) n r₁ r' := by
      cases n
      case zero =>
        cases h
        refine ⟨rfl, rfl, rfl, fun k => ?_, fun k => le_rfl⟩
        rw [decide_eq_false (by omega), Bool.or_false]
      case succ n =>
        have hnext := ho 1 (by omega)
        simp only [Nat.one_mul] at hnext
        rw [u64_of_lt hnext] at h
        refine hi (by omega) ?_ (by omega) (by omega) (fun j hj => ?_) h
        · rw [hbase, (by omega : ptr + orderMinBlockSize - r.base = ptr - r.base + orderMinBlockSize),
            Nat.add_div_right _ (by decide), hm]
        · have := ho (j + 1) (by omega)
          rw [Nat.add_mul, Nat.one_mul] at this
          omega
    constructor
    case frame  => rw [hstep.frame, hw.frame]
    case entryn => rw [hstep.entryn, hw.entryn]
    case used   => rw [hstep.used, hused]; omega
    case word =>
      intro k
      rw [hstep.word, hw.word, getLsbD_or_intBit (by omega), Bool.or_assoc, ← Bool.decide_or]
      congr 2
      exact propext (by omega)
    case count =>
      intro k
      have h₁ := hstep.count k
      have h₂ := setBits_or_intBit_le (w := r.word) (k := k) (by omega : m < 31)
      rw [← hw.word] at h₂
      omega

theorem allocPhysAddress_ok (h : allocPhysAddress addr bytes p = .ok (ret, p')) :
    (regionAround addr p.region = none ∧ ret = memoryAllocationFailed ∧ p' = p) ∨
      ∃ i r r', regionAround addr p.region = some i ∧ p.region[i]? = some r ∧
        reserveBlocks (kalign addr) (blocksFor bytes) r = .ok r' ∧ ret = addr ∧
        p' = { p with region := p.region.set i r' } := by
  unfold allocPhysAddress at h
  have ⟨_, _, h⟩ := Except.bind_ok_iff.mp h
  split at h
  case h_1 hn =>
    cases h
    exact .inl ⟨hn, rfl, rfl⟩
  case h_2 i hi =>
    split at h
    case h_1 => cases h
    case h_2 r hr =>
      have ⟨r', h₁, h⟩ := Except.bind_ok_iff.mp h
      cases h
      exact .inr ⟨i, r, r', hi, hr, h₁, rfl, rfl⟩

theorem Inv.reserve (h : Inv s) (ha : ReserveAllowed s addr bytes)
    (hs : allocPhysAddress addr bytes s.pmm = .ok (ret, p)) :
    Inv { s with
      pmm      := p
      reserved := if ret = memoryAllocationFailed then s.reserved else (addr, bytes) :: s.reserved } := by
  rcases allocPhysAddress_ok hs with ⟨_, hret, hp⟩ | ⟨i, r, r', hi, hr, hres, hret, hp⟩
  case inl =>
    subst hp hret
    exact h
  case inr =>
    subst hp
    have w := h.table.wellFormed hr
    have hlimit := w.limit
    have ⟨hbase, hin, hlast, hend, hu, hlive⟩ := ha i r hi hr
    have hk : kalign addr ≤ addr := Nat.sub_le _ _
    have ho : ∀ j < blocksFor bytes, kalign addr + j * orderMinBlockSize < 2 ^ 64 := by
      intro j hj
      simp only [blocksFor, orderMinBlockSize] at hj ⊢
      omega
    have hw := reserveBlocks_reserves hbase rfl hlast hu ho hres
    have u : Update s.pmm.region i r r' := by
      refine ⟨hr, hw.frame, hw.entryn, hw.used ▸ hu, fun hsmall => ?_⟩
      rw [hw.used]
      exact (hw.count _).trans (Nat.add_le_add_right (w.used hsmall) _)
    have hm := h.mark u (fun k hk => by rw [hw.word, hk, Bool.true_or]) s.pmm.buddyLock
    split
    case isTrue => exact hm
    case isFalse =>
      refine ⟨hm.table, hm.nodup, hm.live, ?clear, ?apart⟩
      case apart =>
        intro b hb q hq
        cases List.mem_cons.mp hq
        case inl he => exact he ▸ hlive b hb
        case inr hq => exact h.apart b hb q hq
      case clear =>
        intro q hq j n x hn hclear
        cases List.mem_cons.mp hq
        case inr hq => exact hm.clear q hq j n x hn hclear
        case inl he =>
          subst he
          apply Apart.of_le
          -- A block that is still clear is none of those marked, or lies in another region.
          rcases u.isBlock hn with ⟨_, rfl, hn₀⟩ | ⟨hj, hn₀⟩
          · rw [hw.word] at hclear
            have hout := of_decide_eq_false (Bool.or_eq_false_iff.mp hclear).right
            rw [u.block_eq]
            simp only [block, orderMinBlockSize] at hout hend ⊢
            omega
          · have hblk := hn₀.lt_limit h.table
            have hsep := h.table.apart hn₀.get hr hj
            simp only
            omega

end Reserve

section Run

-- The regions as `createRegion` fills them in, before it reserves anything.
def initial (entries : List MmapEntry) : State where
  pmm      := { region := entries.map (fillRegion zeroRegion) }
  live     := []
  reserved := []

-- The reservations that `createRegion` then makes are steps of a run.
theorem reserveAll_steps {entry : MmapEntry} {amap : List MmapEntry}
    (h : reserveAll entry amap s.pmm = .ok p) :
    ∃ reserved, Run.Steps Step (fun _ _ => True) s { s with pmm := p, reserved } := by
  induction amap generalizing s
  case nil =>
    cases h
    exact ⟨s.reserved, .refl s⟩
  case cons a amap hi =>
    unfold reserveAll at h
    split at h
    case isTrue  => exact hi h
    case isFalse =>
      have ⟨⟨ret, p₁⟩, h₁, h⟩ := Except.bind_ok_iff.mp h
      let s₁ : State := { s with
        pmm      := p₁
        reserved := if ret = memoryAllocationFailed then s.reserved else (a.phys, a.bytes) :: s.reserved }
      have step : Step s (.reserve a.phys a.bytes) s₁ := .reserve h₁
      have ⟨reserved, steps⟩ := hi (s := s₁) h
      exact ⟨reserved, (Run.Steps.step (.refl s) trivial step).trans steps⟩

structure MemoryMap (entries : List MmapEntry) : Prop where
  bound : ∀ e ∈ entries, e.phys + e.bytes < 2 ^ 64
  apart : entries.Pairwise fun e e' => e.phys + e.bytes ≤ e'.phys ∨ e'.phys + e'.bytes ≤ e.phys

theorem blocksIn_le : blocksIn bytes * orderMinBlockSize ≤ bytes := by
  have h : blocksIn bytes ≤ bytes / orderMinBlockSize := by
    unfold blocksIn
    dsimp only
    split
    · exact Nat.sub_le _ _
    · exact le_rfl
  exact (Nat.mul_le_mul_right _ h).trans (Nat.div_mul_le_self _ _)

theorem leaves_fillRegion (entry : MmapEntry) :
    (fillRegion zeroRegion entry).leaves.entryn ≤ blocksIn entry.bytes ∧
      (fillRegion zeroRegion entry).leaves.entryn < 2 ^ 32 ∧
      (fillRegion zeroRegion entry).leaves.used = 0 ∧
      (fillRegion zeroRegion entry).word = 0#64 := by
  simp only [fillRegion, zeroRegion, maxOrder, List.replicate, makeOrders, leaves, word,
    List.getElem?_cons_zero, Option.getD_some]
  have hz (n : Nat) : (List.replicate n 0#64)[0]?.getD 0#64 = 0#64 := by
    cases n <;> rfl
  split
  case isTrue  => exact ⟨Nat.mod_le _ _, u32_lt _, rfl, hz _⟩
  case isFalse => exact ⟨Nat.zero_le _, by decide, rfl, rfl⟩

theorem setBits_zero : setBits 0#64 n = 0 := by
  simp [setBits]

theorem inv_initial {entries : List MmapEntry} (m : MemoryMap entries) : Inv (initial entries) := by
  refine ⟨⟨?wellFormed, ?apart⟩, List.nodup_nil, fun _ h => absurd h List.not_mem_nil,
    fun _ h => absurd h List.not_mem_nil, fun _ h => absurd h List.not_mem_nil⟩
  case wellFormed =>
    intro i r hr
    simp only [initial, List.getElem?_map, Option.map_eq_some_iff] at hr
    have ⟨e, he, hr⟩ := hr
    have hbound := m.bound e (List.mem_of_getElem? he)
    have ⟨h₁, h₂, h₃, h₄⟩ := leaves_fillRegion e
    have hl : (fillRegion zeroRegion e).limit = e.phys + e.bytes := u64_of_lt hbound
    have hc : blocksIn e.bytes * orderMinBlockSize ≤ e.bytes := blocksIn_le
    rw [← hr]
    refine ⟨?_, by omega, h₁, h₂, by omega, fun _ => by rw [h₄, setBits_zero]; omega⟩
    rw [hl]
    exact Nat.add_le_add_left hc _
  case apart =>
    intro i j r r' hr hr' hij
    simp only [initial, List.getElem?_map, Option.map_eq_some_iff] at hr hr'
    have ⟨e, he, hr⟩ := hr
    have ⟨e', he', hr'⟩ := hr'
    have hb := m.bound e (List.mem_of_getElem? he)
    have hb' := m.bound e' (List.mem_of_getElem? he')
    rw [← hr, ← hr']
    simp only [fillRegion, u64_of_lt hb, u64_of_lt hb']
    have ⟨hi, hei⟩ := List.getElem?_eq_some_iff.mp he
    have ⟨hj, hej⟩ := List.getElem?_eq_some_iff.mp he'
    have hp := List.pairwise_iff_getElem.mp m.apart
    rcases Nat.lt_or_gt_of_ne hij with hlt | hgt
    · simpa only [hei, hej] using hp i j hi hj hlt
    · simpa only [hei, hej, or_comm] using hp j i hj hi hgt

theorem Inv.step {c : Call} (h : Inv s) (ha : Allowed s c) (hs : Step s c s') : Inv s' := by
  cases hs
  case alloc hs   => exact h.alloc ha hs
  case reserve hs => exact h.reserve ha hs
  case free hl hs => exact h.free ha hl hs

-- While all calls are allowed, the manager keeps its promise.
theorem live_blocks_safe {entries : List MmapEntry} (m : MemoryMap entries)
    (h : Run.Steps Step Allowed (initial entries) s) : Safe s :=
  (h.invariant (inv_initial m) Inv.step).safe

end Run

section Example

-- Four blocks of memory above 1 MB.
def lowEntry : MmapEntry :=
  { magic := 0, flags := 0, type := 1, phys := 0x100000, virt := 0, bytes := 0x10000 }

theorem memoryMap_lowEntry : MemoryMap [lowEntry] where
  bound := by simp [lowEntry]
  apart := List.pairwise_singleton _ _

-- Its region when `n` blocks have been marked, the bitmap of order 0 is `w`, and a block of each other order
-- is shown as used.
def lowTable (n : Nat) (w : Word) : Regions where
  region := [{ fillRegion zeroRegion lowEntry with
    order := [⟨4, n, [w]⟩, ⟨2, n, [1#64]⟩, ⟨1, n, [1#64]⟩] ++ List.replicate 7 ⟨0, 0, []⟩ }]

-- A block is handed out, one is reserved behind it, a second one is handed out between them, and the first
-- is freed.
theorem live_blocks_safe_lowEntry : ∃ p, Run.Steps Step Allowed (initial [lowEntry])
      ⟨p, [(0x104000, 0x4000)], [(0x108000, 0x4000)]⟩ ∧
    Safe ⟨p, [(0x104000, 0x4000)], [(0x108000, 0x4000)]⟩ := by
  have h₁ : allocPhys 0x4000 0 0 (initial [lowEntry]).pmm = .ok ((0x100000, 0x4000), lowTable 1 1#64) := rfl
  have h₂ : allocPhysAddress 0x108000 0x4000 (lowTable 1 1#64) = .ok (0x108000, lowTable 2 5#64) := rfl
  have h₃ : allocPhys 0x4000 0 0 (lowTable 2 5#64) = .ok ((0x104000, 0x4000), lowTable 3 7#64) := rfl
  have h₄ : freeNPhys 1 0x100000 0x4000 (lowTable 3 7#64) = .ok (lowTable 3 6#64) := rfl
  have a₁ : Allowed (initial [lowEntry]) (.alloc 0x4000 0 0) := by
    refine ⟨by decide, fun i r hi hr => .inr ⟨0, by decide, ?_⟩⟩
    cases hi
    cases hr
    rfl
  have a₂ : Allowed ⟨lowTable 1 1#64, [(0x100000, 0x4000)], []⟩ (.reserve 0x108000 0x4000) := by
    intro i r hi hr
    cases hi
    cases hr
    refine ⟨by decide, by decide, by decide, by decide, by decide, fun b hb => ?_⟩
    cases List.mem_singleton.mp hb
    exact .of_le (.inl (by decide))
  have a₃ : Allowed ⟨lowTable 2 5#64, [(0x100000, 0x4000)], [(0x108000, 0x4000)]⟩ (.alloc 0x4000 0 0) := by
    refine ⟨by decide, fun i r hi hr => .inr ⟨1, by decide, ?_⟩⟩
    cases hi
    cases hr
    rfl
  have a₄ : Allowed ⟨lowTable 3 7#64, [(0x104000, 0x4000), (0x100000, 0x4000)], [(0x108000, 0x4000)]⟩
      (.free 0x100000 0x4000) := by
    intro i j r hi hj _ _
    cases hi
    have hlt := (List.getElem?_eq_some_iff.mp hj).1
    exact (Nat.lt_one_iff.mp hlt).symm
  have steps : Run.Steps Step Allowed (initial [lowEntry])
      ⟨lowTable 3 6#64, [(0x104000, 0x4000)], [(0x108000, 0x4000)]⟩ :=
    .step (.step (.step (.step (.refl _) a₁ (.alloc h₁)) a₂ (.reserve h₂)) a₃ (.alloc h₃)) a₄
      (.free (by decide) h₄)
  exact ⟨_, steps, live_blocks_safe memoryMap_lowEntry steps⟩

-- After a request for two of the smallest blocks, which takes four, the second of them is handed
-- out again.
theorem live_blocks_overlap :
    ¬∀ (entries : List MmapEntry) (s : State), MemoryMap entries →
      Run.Steps Step (fun _ _ => True) (initial entries) s → Safe s := by
  intro hc
  let run : Except Exit ((Nat × Nat) × Nat × Nat) := do
    let first ← allocPhys 0x8000 0 0 (initial [lowEntry]).pmm
    let second ← allocPhys 0x4000 0 0 first.2
    return (first.1, second.1)
  have h : run = .ok ((0x100000, 0x10000), 0x104000, 0x4000) := rfl
  obtain ⟨⟨a, p₁⟩, h₁, h⟩ := Except.bind_ok_iff.mp h
  obtain ⟨⟨b, p₂⟩, h₂, h⟩ := Except.bind_ok_iff.mp h
  cases h
  let s₁ : State := ⟨p₁, [(0x100000, 0x10000)], []⟩
  let s₂ : State := ⟨p₂, [(0x104000, 0x4000), (0x100000, 0x10000)], []⟩
  have e₁ : Step (initial [lowEntry]) (.alloc 0x8000 0 0) s₁ := .alloc h₁
  have e₂ : Step s₁ (.alloc 0x4000 0 0) s₂ := .alloc (s := s₁) h₂
  have safe := hc [lowEntry] s₂ memoryMap_lowEntry (.step (.step (.refl _) trivial e₁) trivial e₂)
  have apart := (List.pairwise_cons.mp safe.live).left (0x100000, 0x10000) (List.mem_singleton.mpr rfl)
  exact apart 0x104000 (by decide)

end Example

end RoverOS.Pmm
