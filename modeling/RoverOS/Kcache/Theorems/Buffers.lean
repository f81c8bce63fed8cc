import RoverOS.Kcache.Basic
import RoverOS.Library.Run

-- The buffers of a cache are apart, as long as its slabs are mapped and their bitmaps hold all of
-- their buffers.

namespace RoverOS.Kcache

open Pmm (intBit)

-- A cache and the buffers that were marked as used, the last one first.
structure State where
  cache : Kcache
  out   : List Nat

inductive Op
  | alloc (managers : Managers)
  | grow (managers : Managers)

inductive Step : State → Op → State → Prop
  | alloc {s managers ptr cache} : kcacheAlloc managers s.cache = .ok (ptr, cache) →
    Step s (.alloc managers) ⟨cache, ptr.toList ++ s.out⟩
  | grow {s managers cache} : kcacheGrow managers s.cache = .ok cache →
    Step s (.grow managers) ⟨cache, s.out⟩

-- The memory of the slabs is apart. A slab that is not mapped has none.
def Apart (slab slab' : Kslab) : Prop :=
  slab.virt ≠ 0 → slab'.virt ≠ 0 →
    slab.virt + slab.size ≤ slab'.virt ∨ slab'.virt + slab'.size ≤ slab.virt

def Op.managers : Op → Managers
  | .alloc managers => managers
  | .grow managers  => managers

-- A new slab is not in the memory of another one, nor around the end of the address space.
def Fresh (cache : Kcache) (managers : Managers) : Prop :=
  ∀ slab, cache.newSlab managers 10 = some slab →
    slab.virt + slab.size ≤ 2 ^ 64 ∧ ∀ slab' ∈ cache.slabs, Apart slab slab'

def Taken (bitmap : List Word) (k : Nat) : Prop :=
  ∃ w, bitmap[k / 64]? = some w ∧ w &&& intBit (k % 64) ≠ 0#64

def Free (slab : Kslab) (k : Nat) : Prop :=
  k < slab.bufferCount ∧ ¬Taken slab.bitmap k

-- When a buffer is left, the slab is mapped and there is one that the bitmap has a bit for.
def Usable (slab : Kslab) : Prop :=
  (∃ k, Free slab k) → slab.virt ≠ 0 ∧ ∃ k, Free slab k ∧ k / 64 < slab.bitmap.length

-- The slab that `kcacheAlloc` takes.
def chosen (managers : Managers) (cache : Kcache) : Option Kslab :=
  (cache.slabs.find? fun slab => decide (HasRoom slab)).or (cache.newSlab managers 10)

def Fits (s : State) : Op → Prop
  | .alloc managers => ∀ slab, chosen managers s.cache = some slab → Usable slab
  | .grow _         => True

-- The buffers are not `NULL`, are in the memory of the slabs, and do not overlap.
structure Sound (s : State) : Prop where
  inside : ∀ p ∈ s.out, p ≠ 0 ∧
    ∃ slab ∈ s.cache.slabs, slab.virt ≤ p ∧ p + s.cache.objSize ≤ slab.virt + slab.size
  apart  : s.out.Pairwise fun p q => p + s.cache.objSize ≤ q ∨ q + s.cache.objSize ≤ p

-- The call returns, and its buffer is apart from the ones before it.
def AllocSound (managers : Managers) (s : State) : Prop :=
  ∃ ptr cache, kcacheAlloc managers s.cache = .ok (ptr, cache) ∧ Sound ⟨cache, ptr.toList ++ s.out⟩

variable {slab slab' : Kslab} {slabs slabs' : List Kslab} {bitmap : List Word} {w : Word}
variable {i b k n p checked objSize : Nat} {cache cache' : Kcache} {managers : Managers} {s s' : State}
variable {ptr : Option Nat} {out : List Nat}

section Bits

theorem intBit_ne_zero (n : Nat) : intBit n ≠ 0#64 := by
  have h : ∀ k < 32, ((1 : BitVec 32) <<< k).signExtend 64 ≠ 0#64 := by decide
  exact h _ (Nat.mod_lt _ (by decide))

theorem or_and_ne_zero {v m : Word} (h : w &&& m ≠ 0#64) : (w ||| v) &&& m ≠ 0#64 := by
  intro hz
  apply h
  rw [BitVec.and_or_distrib_right, BitVec.or_eq_zero_iff] at hz
  exact hz.left

theorem taken_modify (h : Taken bitmap k) : Taken (bitmap.modify i (· ||| intBit b)) k := by
  obtain ⟨w, hw, hb⟩ := h
  by_cases hi : i = k / 64
  case pos =>
    refine ⟨w ||| intBit b, ?_, or_and_ne_zero hb⟩
    rw [hi, List.getElem?_modify_eq, hw]
    rfl
  case neg =>
    refine ⟨w, ?_, hb⟩
    rw [List.getElem?_modify_ne _ _ hi, hw]

theorem taken_modify_self (h : k / 64 < bitmap.length) :
    Taken (bitmap.modify (k / 64) (· ||| intBit (k % 64))) k := by
  refine ⟨bitmap[k / 64] ||| intBit (k % 64), ?_, ?_⟩
  · rw [List.getElem?_modify_eq, List.getElem?_eq_getElem h]
    rfl
  · rw [BitVec.or_comm]
    apply or_and_ne_zero
    rw [BitVec.and_self]
    exact intBit_ne_zero _

theorem not_taken_replicate : ¬Taken (List.replicate n 0#64) k := by
  rintro ⟨w, hw, hb⟩
  obtain ⟨_, rfl⟩ := List.getElem?_eq_some_iff.mp hw
  rw [List.getElem_replicate, BitVec.zero_and] at hb
  exact hb rfl

end Bits

section Find

-- What the loop over the buffers comes to.
inductive Finds (bitmap : List Word) (checked n : Nat) : Except Exit (Option (Nat × Nat)) → Prop
  | full : (∀ k, checked ≤ k → k < checked + n → Taken bitmap k) → Finds bitmap checked n (.ok none)
  | free {k : Nat} : checked ≤ k → k < checked + n → k / 64 < bitmap.length → ¬Taken bitmap k →
    (∀ j, checked ≤ j → j < k → Taken bitmap j) → Finds bitmap checked n (.ok (some (k / 64, k % 64)))
  | outside {k : Nat} : checked ≤ k → k < checked + n → bitmap.length ≤ k / 64 →
    (∀ j, checked ≤ j → j < k → Taken bitmap j) → Finds bitmap checked n (.error .fault)

theorem Finds.succ {r : Except Exit (Option (Nat × Nat))} (ht : Taken bitmap checked)
    (h : Finds bitmap (checked + 1) n r) : Finds bitmap checked (n + 1) r := by
  have before {k j : Nat} (hj : ∀ j, checked + 1 ≤ j → j < k → Taken bitmap j) (hl : checked ≤ j)
      (hlt : j < k) : Taken bitmap j := by
    cases Nat.eq_or_lt_of_le hl
    case inl he => exact he ▸ ht
    case inr hl => exact hj j hl hlt
  cases h
  case full ha           => exact .full fun k hl hlt => before ha hl (by omega)
  case free k hl hk hi hn ha => exact .free (by omega) (by omega) hi hn fun j => before ha
  case outside k hl hk hi ha => exact .outside (by omega) (by omega) hi fun j => before ha

-- The bit counter goes along with the buffers.
theorem findBuffer_finds (hb : (if b = 64 then 0 else b) = checked % 64) :
    Finds bitmap checked n (findBuffer bitmap checked b n) := by
  induction n generalizing checked b
  case zero => exact .full fun k hl hlt => absurd hlt (Nat.not_lt_of_le hl)
  case succ n hi =>
    rw [findBuffer, hb]
    cases hw : bitmap[checked / 64]?
    case none =>
      exact .outside (Nat.le_refl _) (by omega) (List.getElem?_eq_none_iff.mp hw) fun j hl hlt => by omega
    case some w =>
      dsimp only
      split
      case isTrue ht =>
        refine .succ ⟨w, hw, ht⟩ (hi ?_)
        split <;> omega
      case isFalse hf =>
        obtain ⟨hl, _⟩ := List.getElem?_eq_some_iff.mp hw
        refine .free (Nat.le_refl _) (by omega) hl ?_ fun j hl hlt => by omega
        rintro ⟨w', hw', ht⟩
        rw [hw] at hw'
        cases hw'
        exact hf ht

-- What a slab with room gives.
inductive Allocates (objSize : Nat) (slab : Kslab) : Except Exit (Option Nat × Kslab) → Prop
  | full : (∀ k, ¬Free slab k) → Allocates objSize slab (.ok (none, slab))
  | free {k : Nat} : Free slab k → k / 64 < slab.bitmap.length → (∀ j < k, Taken slab.bitmap j) →
    Allocates objSize slab (.ok (some (u64 (u32 (k / 64 * 64 + k % 64) * objSize + slab.virt)), { slab with
      bitmap     := slab.bitmap.modify (k / 64) (· ||| intBit (k % 64))
      references := u16 (slab.references + 1) }))
  | outside {k : Nat} : k < slab.bufferCount → slab.bitmap.length ≤ k / 64 →
    (∀ j < k, Taken slab.bitmap j) → Allocates objSize slab (.error .fault)

theorem allocateBuffer_allocates (hl : slab.lock = false)
    (hr : slab.bufferCount = slab.references → ∀ k, ¬Free slab k) :
    Allocates objSize slab (allocateBuffer objSize slab) := by
  have hlock : getLock slab.lock = .ok () := getLock_of_free hl
  have hf : Finds slab.bitmap 0 slab.bufferCount (findBuffer slab.bitmap 0 0 slab.bufferCount) :=
    findBuffer_finds rfl
  rw [allocateBuffer, hlock]
  by_cases he : slab.bufferCount = slab.references
  case pos =>
    simp only [bind, Except.bind, if_pos he]
    exact .full (hr he)
  simp only [bind, Except.bind, if_neg he]
  generalize findBuffer slab.bitmap 0 0 slab.bufferCount = r at hf
  cases hf
  case full ha =>
    refine .full fun k hf => hf.right (ha k (Nat.zero_le k) ?_)
    rw [Nat.zero_add]
    exact hf.left
  case free k hl hk hi hn ha =>
    rw [Nat.zero_add] at hk
    exact .free ⟨hk, hn⟩ hi fun j => ha j (Nat.zero_le j)
  case outside k hl hk hi ha =>
    rw [Nat.zero_add] at hk
    exact .outside hk hi fun j => ha j (Nat.zero_le j)

end Find

section Slabs

-- What holds of every slab of a cache.
structure Carved (objSize : Nat) (slab : Kslab) : Prop where
  lock   : slab.lock = false
  count  : slab.bufferCount * objSize ≤ slab.size
  small  : slab.bufferCount < 2 ^ 32
  memory : slab.virt + slab.size ≤ 2 ^ 64
  unused : slab.virt = 0 → ∀ k, ¬Taken slab.bitmap k

-- A slab that differs in the buffers in use, of which there may be more.
structure Grows (slab slab' : Kslab) : Prop where
  virt        : slab'.virt = slab.virt
  size        : slab'.size = slab.size
  bufferCount : slab'.bufferCount = slab.bufferCount
  taken       : ∀ k, Taken slab.bitmap k → Taken slab'.bitmap k

-- The buffer is one of the slab's.
def Holds (objSize : Nat) (slab : Kslab) (p : Nat) : Prop :=
  slab.virt ≠ 0 ∧ ∃ k < slab.bufferCount, Taken slab.bitmap k ∧ p = slab.virt + k * objSize

theorem Grows.holds (g : Grows slab slab') (h : Holds objSize slab p) : Holds objSize slab' p := by
  obtain ⟨hv, k, hk, ht, hp⟩ := h
  refine ⟨g.virt ▸ hv, k, g.bufferCount ▸ hk, g.taken k ht, ?_⟩
  rw [g.virt]
  exact hp

theorem Carved.ptr_eq (c : Carved objSize slab) (h0 : 0 < objSize) (hk : k < slab.bufferCount) :
    u64 (u32 (k / 64 * 64 + k % 64) * objSize + slab.virt) = slab.virt + k * objSize ∧
      slab.virt + k * objSize + objSize ≤ slab.virt + slab.size := by
  have hn : k / 64 * 64 + k % 64 = k := Nat.div_add_mod' k 64
  have hle : (k + 1) * objSize ≤ slab.size := Nat.le_trans (Nat.mul_le_mul_right _ hk) c.count
  have hm := c.memory
  rw [Nat.add_mul, Nat.one_mul] at hle
  rw [hn, u32_of_lt (Nat.lt_trans hk c.small), Nat.add_comm]
  exact ⟨u64_of_lt (by omega), by omega⟩

-- Two buffers of one slab.
theorem buffers_apart_of_ne {j : Nat} (hne : k ≠ j) :
    slab.virt + k * objSize + objSize ≤ slab.virt + j * objSize ∨
      slab.virt + j * objSize + objSize ≤ slab.virt + k * objSize := by
  cases Nat.lt_or_gt_of_ne hne
  case inl hlt =>
    have hle : (k + 1) * objSize ≤ j * objSize := Nat.mul_le_mul_right _ hlt
    rw [Nat.add_mul, Nat.one_mul] at hle
    exact .inl (by omega)
  case inr hlt =>
    have hle : (j + 1) * objSize ≤ k * objSize := Nat.mul_le_mul_right _ hlt
    rw [Nat.add_mul, Nat.one_mul] at hle
    exact .inr (by omega)

theorem Apart.symm (h : Apart slab slab') : Apart slab' slab :=
  fun h₁ h₂ => (h h₂ h₁).symm

-- Every buffer is one of a slab's.
structure Inv (objSize : Nat) (slabs : List Kslab) (out : List Nat) : Prop where
  carved   : ∀ slab ∈ slabs, Carved objSize slab
  apart    : slabs.Pairwise Apart
  holds    : ∀ p ∈ out, ∃ slab ∈ slabs, Holds objSize slab p
  disjoint : out.Pairwise fun p q => p + objSize ≤ q ∨ q + objSize ≤ p

variable {front back : List Kslab}

theorem Inv.sound (inv : Inv cache.objSize cache.slabs out) (h0 : 0 < cache.objSize) : Sound ⟨cache, out⟩ where
  inside p hp := by
    obtain ⟨slab, hs, hv, k, hk, _, rfl⟩ := inv.holds p hp
    obtain ⟨_, hle⟩ := (inv.carved slab hs).ptr_eq h0 hk
    exact ⟨by omega, slab, hs, Nat.le_add_right _ _, hle⟩
  apart := inv.disjoint

theorem Inv.cons (inv : Inv objSize slabs out) (c : Carved objSize slab) (ha : ∀ t ∈ slabs, Apart slab t) :
    Inv objSize (slab :: slabs) out where
  carved   := List.forall_mem_cons.mpr ⟨c, inv.carved⟩
  apart    := List.pairwise_cons.mpr ⟨ha, inv.apart⟩
  holds p hp := by
    obtain ⟨t, ht, hh⟩ := inv.holds p hp
    exact ⟨t, .tail _ ht, hh⟩
  disjoint := inv.disjoint

theorem Inv.replace (inv : Inv objSize (front ++ slab :: back) out) (g : Grows slab slab')
    (c : Carved objSize slab') : Inv objSize (front ++ slab' :: back) out where
  carved t ht := by
    rw [List.mem_append, List.mem_cons] at ht
    obtain ht | rfl | ht := ht
    · exact inv.carved t (List.mem_append_left _ ht)
    · exact c
    · exact inv.carved t (List.mem_append_right _ (.tail _ ht))
  apart := by
    have ha := inv.apart
    rw [List.pairwise_middle Apart.symm, List.pairwise_cons] at ha ⊢
    refine ⟨fun t ht => ?_, ha.right⟩
    have h := ha.left t ht
    rw [Apart] at h ⊢
    rwa [g.virt, g.size]
  holds p hp := by
    obtain ⟨t, ht, hh⟩ := inv.holds p hp
    rw [List.mem_append, List.mem_cons] at ht
    obtain ht | rfl | ht := ht
    · exact ⟨t, List.mem_append_left _ ht, hh⟩
    · exact ⟨slab', List.mem_append_right _ (.head _), g.holds hh⟩
    · exact ⟨t, List.mem_append_right _ (.tail _ ht), hh⟩
  disjoint := inv.disjoint

-- A buffer that is not taken is apart from the ones that were given away.
theorem Inv.apart_of_free (inv : Inv objSize (front ++ slab :: back) out) (h0 : 0 < objSize)
    (hv : slab.virt ≠ 0) (hf : Free slab k) {q : Nat} (hq : q ∈ out) :
    slab.virt + k * objSize + objSize ≤ q ∨ q + objSize ≤ slab.virt + k * objSize := by
  obtain ⟨t, ht, hvt, j, hj, htaken, rfl⟩ := inv.holds q hq
  have ha := inv.apart
  rw [List.pairwise_middle Apart.symm, List.pairwise_cons] at ha
  have other (ht : t ∈ front ++ back) (htm : t ∈ front ++ slab :: back) :
      slab.virt + k * objSize + objSize ≤ t.virt + j * objSize ∨
        t.virt + j * objSize + objSize ≤ slab.virt + k * objSize := by
    have hs : slab ∈ front ++ slab :: back := List.mem_append_right _ (.head _)
    obtain ⟨_, hk⟩ := (inv.carved slab hs).ptr_eq h0 hf.left
    obtain ⟨_, hj⟩ := (inv.carved t htm).ptr_eq h0 hj
    have := ha.left t ht hv hvt
    omega
  have htm := ht
  rw [List.mem_append, List.mem_cons] at ht
  obtain ht | rfl | ht := ht
  · exact other (List.mem_append_left _ ht) htm
  · apply buffers_apart_of_ne
    rintro rfl
    exact hf.right htaken
  · exact other (List.mem_append_right _ ht) htm

-- A slab that the call may take gives a buffer, or it has none.
theorem Inv.allocate (inv : Inv objSize (front ++ slab :: back) out) (h0 : 0 < objSize)
    (hr : slab.bufferCount = slab.references → ∀ k, ¬Free slab k) (hu : Usable slab) :
    ∃ ptr slab', allocateBuffer objSize slab = .ok (ptr, slab') ∧
      Inv objSize (front ++ slab' :: back) (ptr.toList ++ out) := by
  have c := inv.carved slab (List.mem_append_right _ (.head _))
  have ha := @allocateBuffer_allocates _ objSize c.lock hr
  generalize allocateBuffer objSize slab = r at ha
  cases ha
  case full => exact ⟨none, slab, rfl, inv⟩
  case outside k hk hi hb =>
    have hf : Free slab k := by
      refine ⟨hk, ?_⟩
      rintro ⟨w, hw, _⟩
      rw [List.getElem?_eq_none hi] at hw
      cases hw
    obtain ⟨_, j, hj, hlt⟩ := hu ⟨k, hf⟩
    have hjk : j < k := by
      by_contra hle
      have := Nat.div_le_div_right (c := 64) (Nat.le_of_not_lt hle)
      omega
    exact absurd (hb j hjk) hj.right
  case free k hf hi hb =>
    obtain ⟨hv, _⟩ := hu ⟨k, hf⟩
    obtain ⟨hp, hle⟩ := c.ptr_eq h0 hf.left
    refine ⟨_, _, rfl, ?_⟩
    rw [hp]
    have g : Grows slab { slab with
        bitmap     := slab.bitmap.modify (k / 64) (· ||| intBit (k % 64))
        references := u16 (slab.references + 1) } :=
      ⟨rfl, rfl, rfl, fun j => taken_modify⟩
    have inv' := inv.replace g ⟨c.lock, c.count, c.small, c.memory, fun hz => absurd hz hv⟩
    refine ⟨inv'.carved, inv'.apart, fun q hq => ?_, List.pairwise_cons.mpr ⟨?_, inv.disjoint⟩⟩
    · cases hq
      case head =>
        exact ⟨_, List.mem_append_right _ (.head _), hv, k, hf.left, taken_modify_self hi, rfl⟩
      case tail hq => exact inv'.holds q hq
    · exact fun q hq => inv.apart_of_free h0 hv hf hq

-- From a slab that is not mapped, the first buffer is `NULL`.
theorem Inv.usable (inv : Inv objSize (front ++ slab :: back) out)
    (hr : slab.bufferCount = slab.references → ∀ k, ¬Free slab k)
    (ha : allocateBuffer objSize slab = .ok (ptr, slab')) (hp : ∀ p, ptr = some p → p ≠ 0) : Usable slab := by
  have c := inv.carved slab (List.mem_append_right _ (.head _))
  have h := @allocateBuffer_allocates _ objSize c.lock hr
  rw [ha] at h
  cases h
  case full hn => exact fun ⟨k, hf⟩ => absurd hf (hn k)
  case free k hf hi hb =>
    refine fun _ => ⟨fun hz => hp _ rfl ?_, k, hf, hi⟩
    have hk : k = 0 := by
      by_contra hne
      exact c.unused hz 0 (hb 0 (Nat.pos_of_ne_zero hne))
    simp [hk, hz, u32, u64]

end Slabs

section Alloc

theorem newSlab_some (hs : cache.newSlab managers 10 = some slab) :
    ∃ phys sz, cache.newSlabPhys managers phys sz = some slab := by
  rw [newSlab] at hs
  generalize (if cache.type = Pmm.memoryTypeAny then 0 else Pmm.orderFlagStrictMatch) = flags at hs
  dsimp only at hs
  split at hs
  case isTrue  => cases hs
  case isFalse => exact ⟨_, _, hs⟩

theorem newSlabPhys_some {phys sz : Nat} (hs : cache.newSlabPhys managers phys sz = some slab) :
    ∃ virt, cache.carveSlab virt phys sz = slab := by
  rw [newSlabPhys] at hs
  split at hs
  case isTrue  => exact ⟨0, Option.some.inj hs⟩
  case isFalse =>
    dsimp only at hs
    generalize managers.vmallocPhys phys sz = virt at hs
    split at hs
    case isTrue  => cases hs
    case isFalse => exact ⟨virt, Option.some.inj hs⟩

theorem Carved.new (hs : cache.newSlab managers 10 = some slab) (hm : slab.virt + slab.size ≤ 2 ^ 64) :
    Carved cache.objSize slab ∧ slab.references = 0 := by
  obtain ⟨phys, sz, hs⟩ := newSlab_some hs
  obtain ⟨virt, rfl⟩ := newSlabPhys_some hs
  refine ⟨⟨rfl, ?_, u32_lt _, hm, fun _ k => not_taken_replicate⟩, rfl⟩
  exact Nat.le_trans (Nat.mul_le_mul_right _ (Nat.mod_le _ _)) (Nat.div_mul_le_self ..)

theorem allocChosen_none (h : slabs.find? (fun slab => decide (HasRoom slab)) = none) :
    allocChosen objSize slabs = .ok none := by
  induction slabs
  case nil => rfl
  case cons slab slabs hi =>
    rw [List.find?_cons] at h
    split at h
    case h_1 => cases h
    case h_2 hn =>
      rw [allocChosen, if_neg (of_decide_eq_false hn), hi h]
      rfl

theorem allocChosen_some (h : slabs.find? (fun slab => decide (HasRoom slab)) = some slab) :
    HasRoom slab ∧ ∃ front back, slabs = front ++ slab :: back ∧
      allocChosen objSize slabs = (allocateBuffer objSize slab).map fun (ptr, slab') =>
        some (ptr, front ++ slab' :: back) := by
  induction slabs
  case nil => cases h
  case cons t slabs hi =>
    rw [List.find?_cons] at h
    split at h
    case h_1 ht =>
      cases h
      refine ⟨of_decide_eq_true ht, [], slabs, rfl, ?_⟩
      rw [allocChosen, if_pos (of_decide_eq_true ht)]
      cases allocateBuffer objSize slab <;> rfl
    case h_2 hn =>
      obtain ⟨hr, front, back, he, ha⟩ := hi h
      refine ⟨hr, t :: front, back, by rw [he, List.cons_append], ?_⟩
      rw [allocChosen, if_neg (of_decide_eq_false hn), ha]
      cases allocateBuffer objSize slab <;> rfl

-- Either nothing can be had, or a slab of the cache or a new one gives the buffer.
inductive Allocation (managers : Managers) (cache : Kcache) : Option Kslab → Prop
  | nothing : kcacheAlloc managers cache = .ok (none, cache) → Allocation managers cache none
  | slab {slab : Kslab} {front back : List Kslab} :
    (cache.slabs = front ++ slab :: back ∨
      (front = [] ∧ cache.newSlab managers 10 = some slab ∧ cache.slabs = back)) →
    (HasRoom slab ∨ cache.newSlab managers 10 = some slab) →
    kcacheAlloc managers cache = (allocateBuffer cache.objSize slab).map (fun (ptr, slab') =>
      (ptr, { cache with slabs := front ++ slab' :: back })) →
    Allocation managers cache (some slab)

theorem kcacheAlloc_allocation (hl : cache.lock = false) :
    Allocation managers cache (chosen managers cache) := by
  have hlock : getLock cache.lock = .ok () := getLock_of_free hl
  rw [chosen]
  cases hf : cache.slabs.find? fun slab => decide (HasRoom slab)
  case some slab =>
    obtain ⟨hr, front, back, he, ha⟩ := @allocChosen_some _ _ cache.objSize hf
    refine .slab (.inl he) (.inl hr) ?_
    rw [kcacheAlloc, hlock, ha]
    cases allocateBuffer cache.objSize slab <;> rfl
  case none =>
    have ha := @allocChosen_none _ cache.objSize hf
    cases hn : cache.newSlab managers 10
    case none =>
      refine .nothing ?_
      rw [kcacheAlloc, hlock, ha, hn]
      rfl
    case some slab =>
      refine @Allocation.slab _ _ _ [] _ (.inr ⟨rfl, hn, rfl⟩) (.inr hn) ?_
      rw [kcacheAlloc, hlock, ha, hn]
      cases h : allocateBuffer cache.objSize slab
      case error => simp [bind, Except.bind, Except.map, h]
      case ok r  => simp [bind, Except.bind, Except.map, h]; rfl

theorem Allocation.unique {r : Option Kslab} (h : Allocation managers cache r) (hr : r = none) :
    kcacheAlloc managers cache = .ok (none, cache) := by
  cases h
  case nothing h => exact h
  case slab      => cases hr

-- A new slab is one more slab without a buffer in use.
theorem Inv.new (inv : Inv cache.objSize cache.slabs out) (hf : Fresh cache managers)
    (hs : cache.newSlab managers 10 = some slab) : Inv cache.objSize (slab :: cache.slabs) out := by
  obtain ⟨hm, ha⟩ := hf slab hs
  exact inv.cons (Carved.new hs hm).left ha

theorem not_free_of_eq (hr : HasRoom slab ∨ slab.references = 0) (he : slab.bufferCount = slab.references) : ¬Free slab k := by
  cases hr
  case inl hr => exact absurd he (Nat.ne_of_gt hr)
  case inr hz => exact fun hf => Nat.not_lt_zero k (hz ▸ he ▸ hf.left)

-- The chosen slab is in its place, and none of its buffers is free when all are in use.
theorem Inv.place {front back : List Kslab} (inv : Inv cache.objSize cache.slabs out) (hf : Fresh cache managers)
    (hs : cache.slabs = front ++ slab :: back ∨
      (front = [] ∧ cache.newSlab managers 10 = some slab ∧ cache.slabs = back))
    (hr : HasRoom slab ∨ cache.newSlab managers 10 = some slab) : Inv cache.objSize (front ++ slab :: back) out ∧
      (slab.bufferCount = slab.references → ∀ k, ¬Free slab k) := by
  constructor
  case left =>
    obtain he | ⟨rfl, hn, rfl⟩ := hs
    · exact he ▸ inv
    · exact inv.new hf hn
  case right =>
    intro he k
    exact not_free_of_eq (hr.imp_right fun hn => (Carved.new hn (hf _ hn).left).right) he

theorem Inv.alloc (inv : Inv cache.objSize cache.slabs out) (h0 : 0 < cache.objSize)
    (hl : cache.lock = false) (hf : Fresh cache managers)
    (hu : ∀ slab, chosen managers cache = some slab → Usable slab) :
    ∃ ptr slabs, kcacheAlloc managers cache = .ok (ptr, { cache with slabs }) ∧
      Inv cache.objSize slabs (ptr.toList ++ out) := by
  have ha := @kcacheAlloc_allocation _ managers hl
  cases hc : chosen managers cache
  case none =>
    rw [hc] at ha
    exact ⟨none, cache.slabs, ha.unique rfl, inv⟩
  case some slab =>
    rw [hc] at ha
    cases ha
    case slab front back hs hr ha =>
      obtain ⟨inv', hfull⟩ := inv.place hf hs hr
      obtain ⟨ptr, slab', hk, inv''⟩ := inv'.allocate h0 hfull (hu slab hc)
      refine ⟨ptr, _, ?_, inv''⟩
      rw [ha, hk]
      rfl

theorem Inv.usable_of_sound (inv : Inv cache.objSize cache.slabs out)
    (hl : cache.lock = false) (hf : Fresh cache managers) (hs : AllocSound managers ⟨cache, out⟩)
    (hc : chosen managers cache = some slab) : Usable slab := by
  obtain ⟨ptr, cache', hk, hsound⟩ := hs
  have ha := @kcacheAlloc_allocation _ managers hl
  rw [hc] at ha
  cases ha
  case slab front back hs hr ha =>
    obtain ⟨inv', hfull⟩ := inv.place hf hs hr
    obtain ⟨⟨ptr', slab'⟩, hk', he⟩ := Except.exists_ok_of_map (ha.symm.trans hk)
    cases he
    refine inv'.usable hfull hk' fun p hp => ?_
    subst hp
    exact (hsound.inside p (.head _)).left

end Alloc

section Run

-- A cache as `kcacheCreate` or `createVMarkerCache` makes it.
inductive Created : Kcache → Prop
  | empty {objSize type flags} : Created (fillCacheDetails objSize type flags)
  | vMarker {objSize type flags ptr} : ptr ≠ 0 → ptr + 0x1000 ≤ 2 ^ 64 →
    Created (createVMarkerCache objSize type flags ptr)

theorem Created.inv (h : Created cache) : Inv cache.objSize cache.slabs [] ∧ cache.lock = false := by
  have nil {objSize : Nat} : Inv objSize [] [] :=
    ⟨fun _ h => absurd h List.not_mem_nil, .nil, fun _ h => absurd h List.not_mem_nil, .nil⟩
  cases h
  case empty => exact ⟨nil, rfl⟩
  case vMarker objSize type flags ptr hp hle =>
    refine ⟨nil.cons ⟨rfl, ?_, u32_lt _, hle, fun _ k => not_taken_replicate⟩ ?_, rfl⟩
    · exact Nat.le_trans (Nat.mul_le_mul_right _ (Nat.mod_le _ _)) (Nat.div_mul_le_self ..)
    · exact fun _ h => absurd h List.not_mem_nil

-- What holds along a run.
structure Reached (objSize : Nat) (s : State) : Prop where
  objSize : s.cache.objSize = objSize
  lock    : s.cache.lock = false
  inv     : Inv s.cache.objSize s.cache.slabs s.out

theorem Reached.step {op : Op} (r : Reached objSize s) (h0 : 0 < objSize) (hf : Fresh s.cache op.managers)
    (hu : Fits s op) (hs : Step s op s') : Reached objSize s' := by
  have h0 : 0 < s.cache.objSize := r.objSize ▸ h0
  cases hs
  case alloc hk =>
    obtain ⟨ptr, slabs, hk', inv⟩ := r.inv.alloc h0 r.lock hf hu
    cases hk.symm.trans hk'
    exact ⟨r.objSize, r.lock, inv⟩
  case grow managers cache hk =>
    rw [kcacheGrow] at hk
    split at hk
    case h_1 => cases hk
    case h_2 slab hn =>
      cases hk
      exact ⟨r.objSize, r.lock, r.inv.new hf hn⟩

-- In every run of a new cache that keeps to slabs which are mapped and have their bits, the buffers
-- are apart, and the next call gives one that is apart exactly when it keeps to such a slab too.
theorem buffers_apart (h0 : 0 < cache.objSize) (hc : Created cache)
    (run : Run.Steps Step (fun s op => Fresh s.cache op.managers ∧ Fits s op) ⟨cache, []⟩ s) :
    Sound s ∧ ∀ managers, Fresh s.cache managers →
      (AllocSound managers s ↔ ∀ slab, chosen managers s.cache = some slab → Usable slab) := by
  obtain ⟨inv, hl⟩ := hc.inv
  have init : Reached cache.objSize ⟨cache, []⟩ := ⟨rfl, hl, inv⟩
  have r := run.invariant init fun r ha hs => r.step h0 ha.left ha.right hs
  have h0 : 0 < s.cache.objSize := r.objSize ▸ h0
  refine ⟨r.inv.sound h0, fun managers hf => ⟨fun hs slab hc => ?_, fun hu => ?_⟩⟩
  · exact r.inv.usable_of_sound r.lock hf hs hc
  · obtain ⟨ptr, slabs, hk, inv⟩ := r.inv.alloc h0 r.lock hf hu
    exact ⟨ptr, _, hk, @Inv.sound { s.cache with slabs } _ inv h0⟩

end Run

section Example

-- Every block is 64 bytes at 0x100000, and mapped to 0x200000.
def oneBlock : Managers where
  allocPhys _ _ _ := (0x100000, 64)
  vmallocPhys _ _ := 0x200000

def nextBlock : Managers where
  allocPhys _ _ _ := (0x101000, 64)
  vmallocPhys _ _ := 0x201000

-- A slab with two buffers of 32 bytes, of which the first `n` were given away.
def twoBuffers (n : Nat) : Kcache :=
  let cache := fillCacheDetails 32 0 0
  let slab := cache.carveSlab 0x200000 0x100000 64
  { cache with slabs := [{ slab with references := n, bitmap := [BitVec.ofNat 64 (2 ^ n - 1)] }] }

theorem steps_twoBuffers {allowed : State → Op → Prop} (h₀ : allowed ⟨fillCacheDetails 32 0 0, []⟩ (.alloc oneBlock))
    (h₁ : allowed ⟨twoBuffers 1, [0x200000]⟩ (.alloc nextBlock)) :
    Run.Steps Step allowed ⟨fillCacheDetails 32 0 0, []⟩ ⟨twoBuffers 2, [0x200020, 0x200000]⟩ := by
  have hk₀ : kcacheAlloc oneBlock (fillCacheDetails 32 0 0) = .ok (some 0x200000, twoBuffers 1) := by rfl
  have hk₁ : kcacheAlloc nextBlock (twoBuffers 1) = .ok (some 0x200020, twoBuffers 2) := by rfl
  have step₀ := @Step.alloc ⟨fillCacheDetails 32 0 0, []⟩ _ _ _ hk₀
  have step₁ := @Step.alloc ⟨twoBuffers 1, [0x200000]⟩ _ _ _ hk₁
  exact .step (.step (.refl _) h₀ step₀) h₁ step₁

-- The third buffer is in a second slab.
theorem buffers_apart_twoSlabs : ∃ s, s.out = [0x200020, 0x200000] ∧ s.cache.slabs.length = 1 ∧
    Run.Steps Step (fun s op => Fresh s.cache op.managers ∧ Fits s op) ⟨fillCacheDetails 32 0 0, []⟩ s ∧
    AllocSound nextBlock s := by
  have hf₀ : Fresh (fillCacheDetails 32 0 0) oneBlock := by
    intro slab hs
    cases hs
    exact ⟨by decide, fun _ h => absurd h List.not_mem_nil⟩
  have hf {n : Nat} (hn : n = 1 ∨ n = 2) : Fresh (twoBuffers n) nextBlock := by
    rcases hn with rfl | rfl
    all_goals
      intro slab hs
      cases hs
      exact ⟨by decide, List.forall_mem_singleton.mpr fun _ _ => .inr (by decide)⟩
  have hu₀ : Fits ⟨fillCacheDetails 32 0 0, []⟩ (.alloc oneBlock) := by
    intro slab hs _
    cases hs
    exact ⟨by decide, 0, ⟨by decide, not_taken_replicate⟩, by decide⟩
  have hu₁ : Fits ⟨twoBuffers 1, [0x200000]⟩ (.alloc nextBlock) := by
    intro slab hs _
    cases hs
    refine ⟨by decide, 1, ⟨by decide, ?_⟩, by decide⟩
    rintro ⟨w, hw, ht⟩
    cases hw
    exact ht (by decide)
  have run := @steps_twoBuffers (fun s op => Fresh s.cache op.managers ∧ Fits s op) ⟨hf₀, hu₀⟩ ⟨hf (.inl rfl), hu₁⟩
  have hnext := (buffers_apart (by decide) .empty run).right nextBlock (hf (.inr rfl))
  refine ⟨_, rfl, rfl, run, hnext.mpr fun slab hs _ => ?_⟩
  cases hs
  exact ⟨by decide, 0, ⟨by decide, not_taken_replicate⟩, by decide⟩

-- Without a mapping, the first buffer is at `NULL`.
theorem kcacheAlloc_returns_null :
    ¬∀ (cache : Kcache) (managers : Managers), 0 < cache.objSize → Created cache → Fresh cache managers →
      AllocSound managers ⟨cache, []⟩ := by
  intro h
  have hf : Fresh (fillCacheDetails 8 0 flagNoMap) oneBlock := by
    intro slab hs
    cases hs
    exact ⟨by decide, fun _ h => absurd h List.not_mem_nil⟩
  obtain ⟨ptr, cache, hk, hs⟩ := h _ oneBlock (by decide) .empty hf
  have hk' : kcacheAlloc oneBlock (fillCacheDetails 8 0 flagNoMap) = .ok (some 0, _) := rfl
  cases hk.symm.trans hk'
  exact (hs.inside 0 (.head _)).left rfl

end Example

end RoverOS.Kcache
