import RoverOS.Kcache.Theorems.Buffers
import RoverOS.Pmm.Theorems.Region

-- The counter of a slab and its bitmap: they go along with each other up to the sign bit of the
-- 32-bit number that is shifted for a buffer.

namespace RoverOS.Kcache

open Pmm (intBit)

-- The buffer's own bit is set.
def Marked (bitmap : List Word) (k : Nat) : Prop :=
  (bitmap.getD (k / 64) 0#64).getLsbD (k % 64) = true

instance (bitmap : List Word) (k : Nat) : Decidable (Marked bitmap k) :=
  inferInstanceAs (Decidable (_ = _))

def markedBuffers (slab : Kslab) : Nat :=
  (List.range slab.bufferCount).countP fun k => decide (Marked slab.bitmap k)

-- As many buffers are marked as the slab counts, and when it counts fewer than it has, one is found.
structure Counted (objSize : Nat) (slab : Kslab) : Prop where
  marked : markedBuffers slab = slab.references
  finds  : slab.references < slab.bufferCount →
    ∃ ptr slab', allocateBuffer objSize slab = .ok (some ptr, slab')

def AllCounted (cache : Kcache) : Prop :=
  ∀ slab ∈ cache.slabs, Counted cache.objSize slab

-- The call returns, with `NULL` only if there was no new slab.
def AllocCounted (managers : Managers) (cache : Kcache) : Prop :=
  ∃ ptr cache', kcacheAlloc managers cache = .ok (ptr, cache') ∧
    (ptr = none → cache.newSlab managers 10 = none) ∧ AllCounted cache'

-- The slab that the call takes has a buffer, and does not get to the sign bit when there are more
-- buffers behind it.
def InInt (managers : Managers) (cache : Kcache) : Prop :=
  ∀ slab, chosen managers cache = some slab →
    0 < slab.bufferCount ∧ (slab.bufferCount ≤ 32 ∨ slab.references < 31)

def Op.InInt (s : State) : Op → Prop
  | .alloc managers => Kcache.InInt managers s.cache
  | .grow _         => True

variable {slab slab' : Kslab} {slabs front back : List Kslab} {bitmap : List Word} {w : Word}
variable {k n r objSize : Nat} {cache cache' : Kcache} {managers : Managers} {s s' : State}

section Bits

theorem marked_cons (hk : k < 64) : Marked (w :: bitmap) k ↔ w.getLsbD k = true := by
  rw [Marked, Nat.div_eq_of_lt hk, Nat.mod_eq_of_lt hk, List.getD_cons_zero]

theorem taken_cons (hk : k < 64) : Taken (w :: bitmap) k ↔ w &&& intBit k ≠ 0#64 := by
  rw [Taken, Nat.div_eq_of_lt hk, Nat.mod_eq_of_lt hk]
  simp

theorem marked_modify {m : Word} : Marked ((w :: bitmap).modify 0 (· ||| m)) k ↔
    Marked (w :: bitmap) k ∨ (k < 64 ∧ m.getLsbD k = true) := by
  rw [List.modify_zero_cons]
  by_cases hk : k < 64
  case pos =>
    rw [marked_cons hk, marked_cons hk, BitVec.getLsbD_or, Bool.or_eq_true]
    simp [hk]
  case neg =>
    have hd : ∃ i, k / 64 = i + 1 := Nat.exists_eq_succ_of_ne_zero (by omega)
    obtain ⟨i, hi⟩ := hd
    simp [Marked, hi, hk]

theorem not_marked_replicate : ¬Marked (List.replicate n 0#64) k := by
  rw [Marked, List.getD_eq_getElem?_getD, List.getElem?_replicate]
  split <;> simp

-- How many numbers below `n` are below `r`.
theorem countP_range_eq {p : Nat → Bool} (hle : r ≤ n) (h : ∀ k < n, p k = decide (k < r)) :
    (List.range n).countP p = r := by
  obtain ⟨d, rfl⟩ := Nat.exists_eq_add_of_le hle
  rw [List.range_add, List.countP_append]
  have hbefore : (List.range r).countP p = r := by
    conv_rhs => rw [← List.length_range (n := r)]
    refine List.countP_eq_length.mpr fun k hk => ?_
    have hk := List.mem_range.mp hk
    rw [h k (by omega), decide_eq_true hk]
  have hbehind : ((List.range d).map (r + ·)).countP p = 0 := by
    refine List.countP_eq_zero.mpr fun k hk => ?_
    obtain ⟨j, hj, rfl⟩ := List.mem_map.mp hk
    have hj := List.mem_range.mp hj
    rw [h _ (by omega), decide_eq_true_iff]
    omega
  rw [hbefore, hbehind, Nat.add_zero]

theorem le_countP_range {p : Nat → Bool} (hle : r ≤ n) (h : ∀ k < r, p k = true) :
    r ≤ (List.range n).countP p := by
  calc r = (List.range r).countP p := (countP_range_eq (Nat.le_refl r) fun k hk => by rw [h k hk, decide_eq_true hk]).symm
    _ ≤ (List.range n).countP p    := (List.range_sublist.mpr hle).countP_le

end Bits

section Slab

-- The buffers in use are the first ones. All bits behind the sign bit are set together with it.
structure Filled (slab : Kslab) : Prop where
  lock  : slab.lock = false
  words : slab.bitmap ≠ []
  le    : slab.references ≤ slab.bufferCount
  small : slab.references < slab.bufferCount → slab.references < 32
  exact : ∀ k < slab.bufferCount, Marked slab.bitmap k ↔ k < slab.references
  rest  : slab.references < 32 → ∀ k, Marked slab.bitmap k → k < slab.references

theorem Filled.carve {virt phys slabsz : Nat} : Filled (cache.carveSlab virt phys slabsz) where
  lock  := rfl
  words := by
    rw [carveSlab]
    dsimp only
    split <;> simp [*]
  le    := Nat.zero_le _
  small := fun _ => (by decide : 0 < 32)
  exact k _ := iff_of_false not_marked_replicate (Nat.not_lt_zero k)
  rest _ k hm := absurd hm not_marked_replicate

theorem Filled.markedBuffers (f : Filled slab) : markedBuffers slab = slab.references :=
  countP_range_eq f.le fun k hk => by rw [decide_eq_decide, f.exact k hk]

theorem Filled.word (f : Filled slab) : ∃ w bitmap, slab.bitmap = w :: bitmap :=
  List.exists_cons_of_ne_nil f.words

-- Only the last of these buffers is tested with more than its own bit.
theorem Filled.taken_iff (f : Filled slab) (hr : slab.references < 32)
    (hlt : slab.references < slab.bufferCount) (hk : k ≤ slab.references) :
    Taken slab.bitmap k ↔ k < slab.references := by
  obtain ⟨w, bitmap, hb⟩ := f.word
  have hbit (j : Nat) (hj : j < 64) (hl : j < slab.bufferCount) : w.getLsbD j = true ↔ j < slab.references := by
    rw [← marked_cons hj, ← hb]
    exact f.exact j hl
  rw [hb, taken_cons (by omega)]
  by_cases h31 : k < 31
  case pos =>
    rw [ne_eq, Pmm.and_intBit_eq_zero_iff h31, Bool.not_eq_false]
    exact hbit k (by omega) (by omega)
  case neg =>
    have hk31 : k = 31 := by omega
    subst hk31
    have hz : w &&& intBit 31 = 0#64 := by
      apply BitVec.eq_of_getLsbD_eq
      intro j hj
      rw [BitVec.getLsbD_and, Pmm.getLsbD_intBit_31, BitVec.getLsbD_zero]
      by_contra hne
      simp only [Bool.not_eq_false, Bool.and_eq_true, decide_eq_true_eq] at hne
      have hm : Marked slab.bitmap j := by
        rw [hb, marked_cons hj]
        exact hne.left
      have := f.rest hr j hm
      omega
    exact iff_of_false (fun h => h hz) (by omega)

-- The slab after its next buffer.
abbrev next (slab : Kslab) : Kslab :=
  { slab with
    bitmap     := slab.bitmap.modify 0 (· ||| intBit slab.references)
    references := slab.references + 1 }

theorem Filled.allocateBuffer (f : Filled slab) (hlt : slab.references < slab.bufferCount)
    (hr : slab.references < 32) : ∃ ptr, allocateBuffer objSize slab = .ok (some ptr, next slab) := by
  have hfree : Free slab slab.references :=
    ⟨hlt, fun ht => absurd ((f.taken_iff hr hlt (Nat.le_refl _)).mp ht) (Nat.lt_irrefl _)⟩
  have htaken (j : Nat) (hj : j < slab.references) : Taken slab.bitmap j :=
    (f.taken_iff hr hlt (Nat.le_of_lt hj)).mpr hj
  have ha := @allocateBuffer_allocates _ objSize f.lock fun he => absurd he (Nat.ne_of_gt hlt)
  have hpos := List.length_pos_iff.mpr f.words
  generalize Kcache.allocateBuffer objSize slab = r at ha
  cases ha
  case full hn => exact absurd hfree (hn _)
  case outside k hk hi hb =>
    refine absurd (hb _ ?_) hfree.right
    omega
  case free k hf hi hb =>
    have hk : k = slab.references := by
      rcases Nat.lt_trichotomy k slab.references with h | h | h
      · exact absurd (htaken k h) hf.right
      · exact h
      · exact absurd (hb _ h) hfree.right
    have h0 : k / 64 = 0 := Nat.div_eq_of_lt (by omega)
    have hm : k % 64 = k := Nat.mod_eq_of_lt (by omega)
    have hu : u16 (slab.references + 1) = slab.references + 1 := Nat.mod_eq_of_lt (by omega)
    rw [h0, hm, hu, hk]
    exact ⟨_, rfl⟩

theorem Filled.marked_next (f : Filled slab) : Marked (next slab).bitmap k ↔
    Marked slab.bitmap k ∨ (k < 64 ∧ (intBit slab.references).getLsbD k = true) := by
  obtain ⟨w, bitmap, hb⟩ := f.word
  rw [next, hb]
  exact marked_modify

theorem getLsbD_intBit (hr : r < 31) : (intBit r).getLsbD k = true ↔ k = r := by
  rw [Pmm.intBit_eq hr, BitVec.getLsbD_twoPow]
  simp [(by omega : r < 64), eq_comm]

theorem Filled.next (f : Filled slab) (hlt : slab.references < slab.bufferCount)
    (hr : slab.bufferCount ≤ 32 ∨ slab.references < 31) : Filled (next slab) where
  lock  := f.lock
  words := by
    obtain ⟨w, bitmap, hb⟩ := f.word
    simp [hb]
  le    := hlt
  small h := by
    change slab.references + 1 < slab.bufferCount at h
    change slab.references + 1 < 32
    omega
  exact k hk := by
    change k < slab.bufferCount at hk
    change _ ↔ k < slab.references + 1
    rw [f.marked_next, f.exact k hk]
    by_cases h31 : slab.references < 31
    case pos =>
      rw [getLsbD_intBit h31]
      omega
    case neg =>
      have he : slab.references = 31 := by omega
      simp only [he, Pmm.getLsbD_intBit_31, Bool.and_eq_true, decide_eq_true_eq]
      omega
  rest hl k hm := by
    change slab.references + 1 < 32 at hl
    change k < slab.references + 1
    rcases f.marked_next.mp hm with h | ⟨_, h⟩
    · exact Nat.lt_succ_of_lt (f.rest (by omega) k h)
    · exact Nat.lt_succ_of_le ((getLsbD_intBit (by omega)).mp h).le

-- With the sign bit, all bits behind it are set, and there is a buffer for at least one of them.
theorem Filled.not_counted (f : Filled slab) (hr : slab.references = 31) (hlt : 32 < slab.bufferCount) :
    ¬Counted objSize (Kcache.next slab) := by
  intro hc
  have hle : 33 ≤ Kcache.markedBuffers (Kcache.next slab) := by
    refine le_countP_range hlt fun k hk => decide_eq_true (f.marked_next.mpr ?_)
    by_cases h31 : k < 31
    case pos => exact .inl ((f.exact k (by omega)).mpr (hr ▸ h31))
    case neg =>
      rw [hr, Pmm.getLsbD_intBit_31, Bool.and_eq_true, decide_eq_true_eq, decide_eq_true_eq]
      exact .inr (by omega)
  rw [hc.marked] at hle
  change 33 ≤ slab.references + 1 at hle
  omega

theorem Filled.counted (f : Filled slab) : Counted objSize slab where
  marked := f.markedBuffers
  finds hlt := by
    obtain ⟨ptr, h⟩ := f.allocateBuffer hlt (f.small hlt)
    exact ⟨ptr, _, h⟩

theorem Filled.new (hs : cache.newSlab managers 10 = some slab) : Filled slab ∧ slab.references = 0 := by
  obtain ⟨phys, sz, hs⟩ := newSlab_some hs
  obtain ⟨virt, rfl⟩ := newSlabPhys_some hs
  exact ⟨.carve, rfl⟩

end Slab

section Alloc

structure AllFilled (cache : Kcache) : Prop where
  lock  : cache.lock = false
  slabs : ∀ slab ∈ cache.slabs, Filled slab

theorem AllFilled.counted (f : AllFilled cache) : AllCounted cache :=
  fun slab hs => (f.slabs slab hs).counted

-- The slab that the call takes, in the cache or in front of it.
theorem AllFilled.chosen (f : AllFilled cache) (hs : cache.slabs = front ++ slab :: back ∨
      (front = [] ∧ cache.newSlab managers 10 = some slab ∧ cache.slabs = back)) :
    Filled slab ∧ ∀ t ∈ front ++ back, Filled t := by
  obtain he | ⟨rfl, hn, he⟩ := hs
  case inl =>
    have hall := f.slabs
    rw [he] at hall
    refine ⟨hall slab (List.mem_append_right _ (.head _)), fun t ht => hall t ?_⟩
    rcases List.mem_append.mp ht with ht | ht
    · exact List.mem_append_left _ ht
    · exact List.mem_append_right _ (.tail _ ht)
  case inr =>
    exact ⟨(Filled.new hn).left, fun t ht => f.slabs t (he ▸ ht)⟩

theorem AllFilled.replace (hl : cache.lock = false) (hf : ∀ t ∈ front ++ back, Filled t) (hs : Filled slab) :
    AllFilled { cache with slabs := front ++ slab :: back } where
  lock := hl
  slabs t ht := by
    rcases List.mem_append.mp ht with ht | ht
    · exact hf t (List.mem_append_left _ ht)
    · cases ht
      case head    => exact hs
      case tail ht => exact hf t (List.mem_append_right _ ht)

-- A call that keeps to the bits of a 32-bit number.
theorem AllFilled.alloc (f : AllFilled cache) (hi : InInt managers cache) :
    ∃ ptr cache', kcacheAlloc managers cache = .ok (ptr, cache') ∧
      (ptr = none → cache.newSlab managers 10 = none) ∧ AllFilled cache' := by
  have ha := @kcacheAlloc_allocation _ managers f.lock
  cases hc : Kcache.chosen managers cache
  case none =>
    rw [hc] at ha
    exact ⟨none, cache, ha.unique rfl, fun _ => (Option.or_eq_none_iff.mp hc).right, f⟩
  case some slab =>
    rw [hc] at ha
    obtain ⟨hpos, hint⟩ := hi slab hc
    cases ha
    case slab front back hs hr ha =>
      obtain ⟨hf, hrest⟩ := f.chosen hs
      have hlt : slab.references < slab.bufferCount := by
        rcases hr with hr | hn
        · exact hr
        · rw [(Filled.new hn).right]
          exact hpos
      obtain ⟨ptr, hk⟩ := @Filled.allocateBuffer _ cache.objSize hf hlt (hf.small hlt)
      refine ⟨some ptr, { cache with slabs := front ++ next slab :: back }, ?_, nofun, ?_⟩
      · rw [ha, hk]
        rfl
      · exact .replace f.lock hrest (hf.next hlt hint)

theorem AllFilled.allocCounted_iff (f : AllFilled cache) :
    AllocCounted managers cache ↔ InInt managers cache := by
  constructor
  case mpr =>
    intro hi
    obtain ⟨ptr, cache', hk, hn, f'⟩ := f.alloc hi
    exact ⟨ptr, cache', hk, hn, f'.counted⟩
  case mp =>
    rintro ⟨ptr, cache', hk, hnull, hall⟩ slab hc
    have ha := @kcacheAlloc_allocation _ managers f.lock
    rw [hc] at ha
    cases ha
    case slab front back hs hr ha =>
      obtain ⟨hf, -⟩ := f.chosen hs
      rw [ha] at hk
      by_cases hpos : slab.references < slab.bufferCount
      case pos =>
        obtain ⟨p, ho⟩ := @Filled.allocateBuffer _ cache.objSize hf hpos (hf.small hpos)
        rw [ho] at hk
        cases hk
        refine ⟨by omega, ?_⟩
        by_contra hint
        have := hf.small hpos
        refine hf.not_counted (by omega) (by omega) (hall (next slab) ?_)
        exact List.mem_append_right _ (.head _)
      case neg =>
        -- A new slab without a buffer.
        obtain ⟨hn, h0⟩ : cache.newSlab managers 10 = some slab ∧ slab.references = 0 := by
          rcases hr with hr | hn
          · exact absurd hr hpos
          · exact ⟨hn, (Filled.new hn).right⟩
        have hnone : allocateBuffer cache.objSize slab = .ok (none, slab) := by
          have hlock : getLock slab.lock = .ok () := getLock_of_free hf.lock
          have he : slab.bufferCount = slab.references := by omega
          rw [allocateBuffer, hlock]
          simp only [bind, Except.bind, if_pos he]
          rfl
        rw [hnone] at hk
        cases hk
        rw [hn] at hnull
        cases hnull rfl

end Alloc

section Run

theorem Created.filled (h : Created cache) : AllFilled cache := by
  cases h
  case empty => exact ⟨rfl, fun _ h => absurd h List.not_mem_nil⟩
  case vMarker => exact ⟨rfl, fun _ h => List.mem_singleton.mp h ▸ .carve⟩

theorem AllFilled.step {op : Op} (f : AllFilled s.cache) (hi : op.InInt s) (hs : Step s op s') :
    AllFilled s'.cache := by
  cases hs
  case alloc hk =>
    obtain ⟨ptr, cache, hk', -, f'⟩ := f.alloc hi
    cases hk.symm.trans hk'
    exact f'
  case grow managers cache hk =>
    rw [kcacheGrow] at hk
    split at hk
    case h_1 => cases hk
    case h_2 slab hn =>
      cases hk
      have f' : AllFilled { s.cache with slabs := [] ++ slab :: s.cache.slabs } :=
        .replace f.lock f.slabs (Filled.new hn).left
      exact f'

-- In every run of a new cache that stays away from the sign bit, the slabs count right, and the next
-- call does so, with `NULL` only when there is no memory, exactly when it stays away from it too.
theorem kcacheAlloc_counted_iff (hc : Created cache) (run : Run.Steps Step (fun s op => op.InInt s) ⟨cache, []⟩ s) :
    AllCounted s.cache ∧ ∀ managers, AllocCounted managers s.cache ↔ InInt managers s.cache := by
  have init : AllFilled (State.mk cache []).cache := hc.filled
  have f := run.invariant (I := fun s => AllFilled s.cache) init fun f hi hs => f.step hi hs
  exact ⟨f.counted, fun _ => f.allocCounted_iff⟩

end Run

section Example

-- After both buffers of a slab, the first one of another.
theorem kcacheAlloc_counted_twoSlabs : ∃ s, s.out = [0x200020, 0x200000] ∧ s.cache.slabs.length = 1 ∧
    Run.Steps Step (fun s op => op.InInt s) ⟨fillCacheDetails 32 0 0, []⟩ s ∧ AllocCounted nextBlock s.cache := by
  have hi₀ : InInt oneBlock (fillCacheDetails 32 0 0) := by
    intro slab hs
    cases hs
    exact ⟨by decide, .inl (by decide)⟩
  have hi₁ : InInt nextBlock (twoBuffers 1) := by
    intro slab hs
    cases hs
    exact ⟨by decide, .inl (by decide)⟩
  have hi₂ : InInt nextBlock (twoBuffers 2) := by
    intro slab hs
    cases hs
    exact ⟨by decide, .inl (by decide)⟩
  have run := @steps_twoBuffers (fun s op => op.InInt s) hi₀ hi₁
  exact ⟨_, rfl, rfl, run, ((kcacheAlloc_counted_iff .empty run).right nextBlock).mpr hi₂⟩

def allocTimes (managers : Managers) : Nat → Kcache → Except Exit Kcache
  | 0,     cache => .ok cache
  | n + 1, cache => do
    let (_, cache) ← kcacheAlloc managers cache
    allocTimes managers n cache

theorem steps_allocTimes {out : List Nat} (h : allocTimes managers n cache = .ok cache') :
    ∃ out', Run.Steps Step (fun _ _ => True) ⟨cache, out⟩ ⟨cache', out'⟩ := by
  induction n generalizing cache out
  case zero =>
    cases h
    exact ⟨out, .refl _⟩
  case succ n hi =>
    obtain ⟨⟨ptr, c⟩, hk, h⟩ := Except.bind_ok_iff.mp h
    obtain ⟨out', hs⟩ := hi h
    exact ⟨out', .trans (.step (.refl _) trivial (.alloc hk)) hs⟩

-- 64 buffers in one page, of which 32 were given away.
def halfFull : Kcache :=
  let cache := createVMarkerCache 64 0 0 0x300000
  { cache with slabs := cache.slabs.map fun slab => { slab with references := 32, bitmap := [BitVec.allOnes 64] } }

theorem allocTimes_halfFull : allocTimes oneBlock 32 (createVMarkerCache 64 0 0 0x300000) = .ok halfFull := by
  rfl

-- The 33rd of the 64 buffers is not found, and `NULL` is returned without a new slab being asked for.
theorem kcacheAlloc_loses_half :
    ¬∀ (cache : Kcache) (s : State) (managers : Managers), 1 ≤ cache.objSize → cache.objSize ≤ 4096 → Created cache →
      Run.Steps Step (fun _ _ => True) ⟨cache, []⟩ s → AllocCounted managers s.cache := by
  intro h
  obtain ⟨out, run⟩ := @steps_allocTimes _ _ _ _ [] allocTimes_halfFull
  have hc : Created (createVMarkerCache 64 0 0 0x300000) := .vMarker (by decide) (by decide)
  obtain ⟨ptr, cache', hk, hnull, -⟩ := h _ _ oneBlock (by decide) (by decide) hc run
  have hk' : kcacheAlloc oneBlock halfFull = .ok (none, halfFull) := by rfl
  cases hk.symm.trans hk'
  have hn : halfFull.newSlab oneBlock 10 = some (halfFull.carveSlab 0x200000 0x100000 64) := by rfl
  cases hn.symm.trans (hnull rfl)

end Example

end RoverOS.Kcache
