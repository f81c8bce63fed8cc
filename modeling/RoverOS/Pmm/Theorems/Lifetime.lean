import RoverOS.Pmm.Theorems.Undo
import RoverOS.Pmm.Theorems.InRange

-- What a region can hand out in all its life: the counters of used blocks are added to by every block that is
-- marked, and by none that is freed.

namespace RoverOS.Pmm

open MemRegion

-- The counters as functions of the order.
def Counts (t : Nat → Nat) (r : MemRegion) : Prop :=
  ∀ k o, r.order[k]? = some o → k < r.ordern → o.used = u32 (t k)

-- What a block of an order adds to the counter of order `k`.
def share (order k : Nat) : Nat :=
  if k < order then 2 else 1

-- The manager, and all that has been marked since it was made.
structure Life where
  pmm      : Regions
  handed   : List (Nat × Nat) -- a region and an order for each block that was handed out
  reserved : List Nat         -- a region for each block that was reserved

namespace Life

def start (entries : List MmapEntry) : Life where
  pmm      := (initial entries).pmm
  handed   := []
  reserved := []

-- The blocks of region `i` that were handed out and have at least order `k`.
def handedFrom (s : Life) (i k : Nat) : List (Nat × Nat) :=
  s.handed.filter fun h => h.1 = i ∧ k ≤ h.2

def total (s : Life) (i k : Nat) : Nat :=
  ((s.handedFrom i 0).map fun h => share h.2 k).sum + s.reserved.count i

end Life

def reservedBy (addr bytes : Nat) (region : List MemRegion) : List Nat :=
  match regionAround addr region with
  | none   => []
  | some i => List.replicate (blocksFor bytes) i

-- Any block may be freed, also one that is not live.
inductive LifeStep : Life → Call → Life → Prop
  | alloc {s : Life} {bytes type ptr actual i : Nat} {flags : BitVec 16} {pmm : Regions} :
    bestRegion type (strictFlags type flags) (orderOf bytes) 0 none s.pmm.region = .ok (some i) →
    allocPhys bytes type flags s.pmm = .ok ((ptr, actual), pmm) →
    LifeStep s (.alloc bytes type flags) { s with
      pmm, handed := if ptr = memoryAllocationFailed then s.handed else (i, orderOf bytes) :: s.handed }
  | reserve {s : Life} {addr bytes ret : Nat} {pmm : Regions} :
    allocPhysAddress addr bytes s.pmm = .ok (ret, pmm) →
    LifeStep s (.reserve addr bytes) { s with
      pmm, reserved := reservedBy addr bytes s.pmm.region ++ s.reserved }
  | free {s : Life} {ptr bytes fuel : Nat} {pmm : Regions} :
    freeNPhys fuel ptr bytes s.pmm = .ok pmm → LifeStep s (.free ptr bytes) { s with pmm }

variable {r r' : MemRegion} {o : MemOrder} {f : Word → Word} {entry : MmapEntry} {t t' : Nat → Nat}
variable {entries : List MmapEntry} {region : List MemRegion} {p p' : Regions} {s s' : Life} {c : Call} {type : Nat}
variable {flags : BitVec 16} {u u' : Nat → Nat → Nat} {ret actual : Nat}
variable {order k n i j idx bit ptr fuel bytes addr : Nat}

section Counters

theorem Counts.congr (h : Counts t r) (he : ∀ k < r.ordern, t k = t' k) : Counts t' r := by
  intro k o ho hk
  rw [h k o ho hk, he k hk]

theorem Counts.modify (h : Counts t r) (hm : r.modify k idx f n = .ok r') :
    Counts (fun j => t j + if j = k then n else 0) r' := by
  have ⟨o, w, ho, _, he⟩ := modify_ok hm
  subst he
  intro j o' ho' hj
  by_cases hjk : j = k
  case neg =>
    rw [List.getElem?_set_ne (Ne.symm hjk)] at ho'
    simp only [if_neg hjk, Nat.add_zero]
    exact h j o' ho' hj
  case pos =>
    subst hjk
    rw [List.getElem?_set_self (List.getElem?_eq_some_iff.mp ho).1] at ho'
    cases ho'
    simp only [MemOrder.write, h j o ho hj, if_true, u32]
    exact Nat.mod_add_mod _ _ _

theorem Counts.setChildren (h : Counts t r) (hs : setChildren idx bit i n r = .ok r') :
    Counts (fun j => t j + if i ≤ j ∧ j < i + n then 2 else 0) r' := by
  induction n generalizing idx bit i r t
  case zero =>
    cases hs
    refine h.congr fun k _ => ?_
    rw [if_neg (by omega), Nat.add_zero]
  case succ n hi =>
    have ⟨r₁, hm, hs⟩ := Except.bind_ok_iff.mp hs
    refine (hi (h.modify hm) hs).congr fun k _ => ?_
    simp only [Nat.add_assoc]
    congr 1
    split_ifs <;> omega

-- The loop over the parents goes on while the orders have blocks.
theorem Counts.setParents (h : Counts t r) (hn : ∀ k < r.ordern, r.order[k]?.map (·.entryn) ≠ some 0)
    (hk : k + n ≤ r.ordern) (hs : setParents k idx bit n r = .ok r') :
    Counts (fun j => t j + if k ≤ j ∧ j < k + n then 1 else 0) r' := by
  induction n generalizing idx bit k r t
  case zero =>
    cases hs
    refine h.congr fun k _ => ?_
    rw [if_neg (by omega), Nat.add_zero]
  case succ n hi =>
    unfold Pmm.setParents at hs
    split at hs
    case isTrue hz => exact absurd hz (hn k (by omega))
    case isFalse =>
      obtain ⟨r₁, hm, hs⟩ := Except.bind_ok_iff.mp hs
      have hkeep : Keeps r r₁ := .set hm
      have hord : r₁.ordern = r.ordern := by rw [hkeep.frame]
      refine (hi (h.modify hm) ?_ (by omega) hs).congr fun j _ => ?_
      · intro j hj
        rw [hkeep.entryn_eq]
        exact hn j (hord ▸ hj)
      · simp only [Nat.add_assoc]
        congr 1
        split_ifs <;> omega

theorem Counts.setBit (h : Counts t r) (hn : ∀ k < r.ordern, r.order[k]?.map (·.entryn) ≠ some 0)
    (hs : setBit r order idx bit = .ok r') (ho : order < r.ordern) :
    Counts (fun k => t k + share order k) r' := by
  have ⟨r₁, h₁, hs⟩ := Except.bind_ok_iff.mp hs
  have ⟨r₂, h₂, hs⟩ := Except.bind_ok_iff.mp hs
  have k₁ : Keeps r r₁ := setChildren_keeps h₁
  have k₂ : Keeps r r₂ := k₁.trans (.set h₂)
  have hord : r₂.ordern = r.ordern := by rw [k₂.frame]
  have hn₂ : ∀ k < r₂.ordern, r₂.order[k]?.map (·.entryn) ≠ some 0 := by
    intro k hk
    rw [k₂.entryn_eq]
    exact hn k (hord ▸ hk)
  have hsum : order + 1 + (r₂.ordern - (order + 1)) = r.ordern := by omega
  have hc := ((h.setChildren h₁).modify h₂).setParents hn₂ (by omega) hs
  have hord' : r'.ordern = r.ordern := by rw [(setParents_rule .trans .set .refl hs : Keeps r₂ r').frame, hord]
  refine hc.congr fun k hk => ?_
  simp only [share, Nat.add_assoc, hsum]
  congr 1
  split_ifs <;> omega

-- To free a block takes nothing away.
theorem Counts.freeBit (h : Counts t r) (hs : freeBit r k idx bit = .ok r') : Counts t r' := by
  refine freeBit_rule (R := fun r r' => Counts t r → Counts t r') ?trans ?clear (fun _ h => h) hs h
  case trans => exact fun h₁ h₂ h => h₂ (h₁ h)
  case clear =>
    intro k idx bit r r' hm h
    refine (h.modify hm).congr fun j _ => ?_
    rw [ite_self, Nat.add_zero]

end Counters

section Regions

-- The region that was made for an entry, and what has been marked in it.
structure Counted (entry : MmapEntry) (t : Nat → Nat) (r : MemRegion) : Prop where
  keeps  : Keeps (fillRegion zeroRegion entry) r
  counts : Counts t r

theorem size_made (h : Keeps (fillRegion zeroRegion entry) r) (ho : r.order[k]? = some o) :
    k < r.ordern ∧ o.entryn = u32 (blocksIn entry.bytes / 2 ^ k) ∨ ¬k < r.ordern ∧ o.entryn = 0 ∧ o.entry = [] := by
  have hord : r.ordern = countOrders (blocksIn entry.bytes) maxOrder := by
    rw [h.frame]
    rfl
  have hmap := congrArg (·[k]?) h.size
  simp only [List.getElem?_map, ho, fillRegion, getElem?_makeOrders, zeroRegion, List.getElem?_replicate] at hmap
  rw [hord, lt_countOrders_iff]
  by_cases hk : k < maxOrder
  case neg => simp [hk] at hmap
  case pos =>
    simp only [if_pos hk, Option.map_some, Option.some.injEq, MemOrder.size, Prod.mk.injEq] at hmap
    by_cases hpos : blocksIn entry.bytes / 2 ^ k > 0
    case pos =>
      rw [if_pos hpos] at hmap
      exact .inl ⟨⟨hk, hpos⟩, hmap.1⟩
    case neg =>
      rw [if_neg hpos] at hmap
      exact .inr ⟨fun h => hpos h.2, hmap.1, List.length_eq_zero_iff.mp hmap.2⟩

-- Only orders that the region has can be marked.
theorem lt_ordern_of_setBit (h : Keeps (fillRegion zeroRegion entry) r) (hs : setBit r order idx bit = .ok r') :
    order < r.ordern := by
  have ⟨o, w, ho, hw, _⟩ := setBit_own hs
  rcases size_made h ho with ⟨hk, _⟩ | ⟨_, _, hnil⟩
  · exact hk
  · rw [hnil] at hw
    cases hw

variable (small : blocksIn entry.bytes < 2 ^ 32)

include small

theorem entryn_ne_zero (h : Keeps (fillRegion zeroRegion entry) r) (hk : k < r.ordern) :
    r.order[k]?.map (·.entryn) ≠ some 0 := by
  intro hz
  have ⟨o, ho, hz⟩ := Option.map_eq_some_iff.mp hz
  have hpos : blocksIn entry.bytes / 2 ^ k > 0 := by
    rw [h.frame] at hk
    exact (lt_countOrders_iff.mp hk).2
  have hle := Nat.div_le_self (blocksIn entry.bytes) (2 ^ k)
  rcases size_made h ho with ⟨_, he⟩ | ⟨hn, _⟩
  · rw [u32_of_lt (by omega)] at he
    omega
  · exact hn hk

theorem Counted.setBit (c : Counted entry t r) (hs : setBit r order idx bit = .ok r') :
    Counted entry (fun k => t k + share order k) r' where
  keeps  := c.keeps.trans (setBit_keeps hs)
  counts := c.counts.setBit (fun _ => entryn_ne_zero small c.keeps) hs (lt_ordern_of_setBit c.keeps hs)

theorem Counted.alloc (c : Counted entry t r) (hp : entry.phys % 0x1000 = 0)
    (h : allocRegion r order = .ok (ptr, r')) :
    (ptr = memoryAllocationFailed ∧ r' = r) ∨ ptr ≠ memoryAllocationFailed ∧
      u32 (t order) < blocksIn entry.bytes / 2 ^ order ∧ Counted entry (fun k => t k + share order k) r' := by
  rcases allocRegion_cases h with ⟨hf, he⟩ | ⟨idx, bit, o, w, found, hs, hptr⟩
  · exact .inl ⟨hf, he⟩
  have c' := c.setBit small hs
  have hbase : r'.base = entry.phys := by
    rw [c'.keeps.frame]
    rfl
  refine .inr ⟨hptr ▸ absAddress_ne_failed (hbase ▸ hp), ?_, c'⟩
  have hk := lt_ordern_of_setBit c.keeps hs
  have hlt := found.used
  have hle : u32 (blocksIn entry.bytes / 2 ^ order) ≤ blocksIn entry.bytes / 2 ^ order := Nat.mod_le _ _
  rw [c.counts order o found.order hk] at hlt
  rcases size_made c.keeps found.order with ⟨_, he⟩ | ⟨hn, _⟩
  · omega
  · exact absurd hk hn

theorem Counted.reserve (c : Counted entry t r) (hs : reserveBlocks ptr n r = .ok r') :
    Counted entry (fun k => t k + n) r' := by
  induction n generalizing ptr r t
  case zero =>
    cases hs
    exact c
  case succ n hi =>
    have ⟨r₁, h₁, hs⟩ := Except.bind_ok_iff.mp hs
    have c' := hi (c.setBit small h₁) hs
    refine ⟨c'.keeps, c'.counts.congr fun k _ => ?_⟩
    simp only [share, Nat.not_lt_zero, if_false]
    omega

omit small in
theorem Counted.free (c : Counted entry t r) (hs : freeBit r k idx bit = .ok r') : Counted entry t r' where
  keeps  := c.keeps.trans (freeBit_rule .trans .clear .refl hs)
  counts := c.counts.freeBit hs

end Regions

section Table

-- What has been marked in each region.
structure TableCounted (entries : List MmapEntry) (u : Nat → Nat → Nat) (region : List MemRegion) : Prop where
  length  : region.length = entries.length
  counted : ∀ {i r e}, region[i]? = some r → entries[i]? = some e → Counted e (u i) r

theorem TableCounted.find (c : TableCounted entries u region) (hr : region[i]? = some r) :
    ∃ e, entries[i]? = some e ∧ Counted e (u i) r := by
  have hlt : i < entries.length := c.length ▸ (List.getElem?_eq_some_iff.mp hr).1
  exact ⟨entries[i], List.getElem?_eq_getElem hlt, c.counted hr (List.getElem?_eq_getElem hlt)⟩

theorem TableCounted.set (c : TableCounted entries u region) (he : entries[i]? = some entry)
    (hr : Counted entry (u' i) r') (hu : ∀ j, j ≠ i → u' j = u j) :
    TableCounted entries u' (region.set i r') where
  length := by rw [List.length_set, c.length]
  counted {j x e} hx hj := by
    by_cases hji : j = i
    case pos =>
      subst hji
      have hlt : j < region.length := c.length ▸ (List.getElem?_eq_some_iff.mp he).1
      rw [List.getElem?_set_self hlt] at hx
      cases hx
      cases he.symm.trans hj
      exact hr
    case neg =>
      rw [List.getElem?_set_ne (Ne.symm hji)] at hx
      rw [hu j hji]
      exact c.counted hx hj

theorem TableCounted.freePhys (c : TableCounted entries u p.region) (h : freePhys ptr p = .ok p') :
    TableCounted entries u p'.region := by
  by_cases ha : ptr % 0x1000 = 0
  case neg =>
    rw [Pmm.freePhys, if_pos ha] at h
    cases h
    exact c
  case pos =>
    rcases (freePhys_aligned ha).mp h with ⟨_, ⟨_, he⟩ | ⟨i, r, r', _, hr, hf, he⟩⟩
    · rw [he]
      exact c
    · obtain ⟨e, hi, hc⟩ := c.find hr
      rw [he]
      exact c.set hi (hc.free hf) fun _ _ => rfl

theorem TableCounted.freeBlocks (c : TableCounted entries u p.region) (h : freeBlocks ptr i fuel bytes p = .ok p') :
    TableCounted entries u p'.region := by
  induction fuel generalizing i bytes p
  case zero => cases h
  case succ fuel hi =>
    have ⟨p₁, h₁, h⟩ := Except.bind_ok_iff.mp h
    split at h
    case isTrue =>
      cases h
      exact c.freePhys h₁
    case isFalse => exact hi (c.freePhys h₁) h

theorem TableCounted.freeNPhys (c : TableCounted entries u p.region) (h : freeNPhys fuel ptr bytes p = .ok p') :
    TableCounted entries u p'.region := by
  unfold Pmm.freeNPhys at h
  split at h
  case isTrue =>
    cases h
    exact c
  case isFalse => exact c.freeBlocks h

end Table

section Life

-- The memory map of a machine, as far as the counters can count its blocks.
structure Countable (entries : List MmapEntry) : Prop where
  small   : ∀ e ∈ entries, blocksIn e.bytes < 2 ^ 32
  aligned : ∀ e ∈ entries, e.phys % 0x1000 = 0

theorem tableCounted_start : TableCounted entries (Life.start entries).total (Life.start entries).pmm.region where
  length := List.length_map _
  counted {i r e} hr he := by
    have hmade : r = fillRegion zeroRegion e := by
      simp only [Life.start, initial, List.getElem?_map, he, Option.map_some, Option.some.injEq] at hr
      exact hr.symm
    rw [hmade]
    refine ⟨.refl _, fun k o ho hk => ?_⟩
    obtain ⟨hlt, hpos⟩ := lt_countOrders_iff.mp hk
    rw [fillRegion_order List.length_replicate (lt_countOrders_iff.mpr ⟨hlt, hpos⟩)] at ho
    cases ho
    rfl

theorem LifeStep.tableCounted (m : Countable entries) (h : LifeStep s c s')
    (hs : TableCounted entries s.total s.pmm.region) : TableCounted entries s'.total s'.pmm.region := by
  cases h
  case alloc bytes type ptr actual i flags pmm hbest h =>
    have ⟨j, r, r', hj, hr, ha, _, he⟩ := allocPhys_cases h
    cases hbest.symm.trans hj
    have ⟨e, hi, hc⟩ := hs.find hr
    have hmem := List.mem_of_getElem? hi
    rw [he]
    rcases hc.alloc (m.small e hmem) (m.aligned e hmem) ha with ⟨hf, hsame⟩ | ⟨hf, _, hc'⟩
    · rw [if_pos hf, hsame]
      exact hs.set hi hc fun _ _ => rfl
    · rw [if_neg hf]
      refine hs.set hi ⟨hc'.keeps, hc'.counts.congr fun k _ => ?_⟩ fun j hj => ?_
      · simp [Life.total, Life.handedFrom]
        omega
      · funext k
        simp [Life.total, Life.handedFrom, Ne.symm hj]
  case reserve addr bytes ret pmm h =>
    rcases allocPhysAddress_ok h with ⟨hi, _, he⟩ | ⟨i, r, r', hi, hr, hres, _, he⟩
    · rw [he, reservedBy, hi]
      exact hs
    · have ⟨e, hi', hc⟩ := hs.find hr
      have hc' := hc.reserve (m.small e (List.mem_of_getElem? hi')) hres
      rw [he, reservedBy, hi]
      refine hs.set hi' ⟨hc'.keeps, hc'.counts.congr fun k _ => ?_⟩ fun j hj => ?_
      · simp [Life.total, Life.handedFrom]
        omega
      · funext k
        simp [Life.total, Life.handedFrom, List.count_replicate, Ne.symm hj]
  case free h => exact hs.freeNPhys h

theorem sum_share {l : List (Nat × Nat)} :
    l.length ≤ (l.map fun h => share h.2 k).sum ∧ (l.map fun h => share h.2 k).sum ≤ 2 * l.length := by
  induction l
  case nil => simp
  case cons h l hi =>
    have hs : 1 ≤ share h.2 k ∧ share h.2 k ≤ 2 := by
      unfold share
      split <;> omega
    simp only [List.map_cons, List.sum_cons, List.length_cons]
    omega

theorem Life.handedFrom_le (s : Life) (i k : Nat) : (s.handedFrom i k).length ≤ (s.handedFrom i 0).length := by
  apply List.Sublist.length_le
  apply List.monotone_filter_right
  intro h hk
  have ⟨hi, _⟩ := of_decide_eq_true hk
  exact decide_eq_true ⟨hi, Nat.zero_le _⟩

-- The counters cannot wrap while region `i` has as few reservations as this.
def FewReserved (s : Life) (i : Nat) (entry : MmapEntry) : Prop :=
  2 * blocksIn entry.bytes + s.reserved.count i < 2 ^ 32

structure Budget (entries : List MmapEntry) (s : Life) : Prop where
  counted : TableCounted entries s.total s.pmm.region
  bound   : ∀ {i e}, entries[i]? = some e → FewReserved s i e → ∀ k, (s.handedFrom i k).length ≤ blocksIn e.bytes / 2 ^ k

theorem Budget.total_lt (b : Budget entries s) (hi : entries[i]? = some entry) (hf : FewReserved s i entry) :
    s.total i k < 2 ^ 32 := by
  have hb := b.bound hi hf 0
  have hs := (@sum_share k (s.handedFrom i 0)).right
  rw [Nat.pow_zero, Nat.div_one] at hb
  unfold FewReserved at hf
  unfold Life.total
  omega

theorem LifeStep.reserved_le (h : LifeStep s c s') (i : Nat) : s.reserved.count i ≤ s'.reserved.count i := by
  cases h
  case reserve =>
    rw [List.count_append]
    exact Nat.le_add_left _ _
  all_goals exact Nat.le_refl _

theorem Budget.step (m : Countable entries) (b : Budget entries s) (h : LifeStep s c s') : Budget entries s' where
  counted := h.tableCounted m b.counted
  bound {i e} hi hf k := by
    have hfit : FewReserved s i e := Nat.lt_of_le_of_lt (Nat.add_le_add_left (h.reserved_le i) _) hf
    have hb := b.bound hi hfit
    cases h
    case alloc bytes type ptr actual j flags pmm hbest h =>
      have ⟨j', r, r', hj, hr, ha, _, he⟩ := allocPhys_cases h
      cases hbest.symm.trans hj
      have ⟨e', hi', hc⟩ := b.counted.find hr
      have hmem := List.mem_of_getElem? hi'
      rcases hc.alloc (m.small e' hmem) (m.aligned e' hmem) ha with ⟨hptr, _⟩ | ⟨hptr, hlt, _⟩
      · rw [if_pos hptr]
        exact hb k
      · rw [if_neg hptr]
        by_cases hij : j = i ∧ k ≤ orderOf bytes
        case neg =>
          simp only [Life.handedFrom, List.filter_cons, hij, decide_false, Bool.false_eq_true, if_false]
          exact hb k
        case pos =>
          have ⟨hji, hk⟩ := hij
          subst hji
          cases hi.symm.trans hi'
          -- Every block that was handed out before has been counted in the order of this one.
          have hcount : (s.handedFrom j 0).length ≤ s.total j (orderOf bytes) :=
            Nat.le_trans sum_share.left (Nat.le_add_right _ _)
          rw [u32_of_lt (b.total_lt hi hfit)] at hlt
          have hdiv : blocksIn e.bytes / 2 ^ orderOf bytes ≤ blocksIn e.bytes / 2 ^ k :=
            Nat.div_le_div_left (Nat.pow_le_pow_right (by decide) hk) (Nat.two_pow_pos k)
          have hle := s.handedFrom_le j k
          simp only [Life.handedFrom, List.filter_cons, hk, and_self, decide_true, if_true, List.length_cons] at hle hcount ⊢
          omega
    case reserve => exact hb k
    case free    => exact hb k

theorem Budget.run (m : Countable entries) (run : Run.Steps LifeStep (fun _ _ => True) (.start entries) s) :
    Budget entries s := by
  refine run.invariant ⟨tableCounted_start, fun _ _ k => ?_⟩ fun b _ h => b.step m h
  exact Nat.zero_le _

end Life

section Exhausted

theorem bestRegion_congr {rs rs' : List MemRegion} {best : Option Nat} (h : List.Forall₂ Keeps rs rs') :
    bestRegion type flags order i best rs' = bestRegion type flags order i best rs := by
  induction h generalizing i best
  case nil => rfl
  case cons r r' rs rs' hk _ hi =>
    have hflags : r'.flags = r.flags := by rw [hk.frame]
    have htype : r'.type = r.type := by rw [hk.frame]
    simp only [bestRegion, isIncomplete, hflags, htype, hi]
    cases ho : r.order[order]?
    case none =>
      have hsize := congrArg (·[order]?) hk.size
      simp only [List.getElem?_map, ho, Option.map_none] at hsize
      rw [Option.map_eq_none_iff.mp hsize]
    case some o =>
      obtain ⟨o', ho', _, hlen⟩ := hk.sizes ho
      have hnil : o'.entry = [] ↔ o.entry = [] := by
        rw [← List.length_eq_zero_iff, ← List.length_eq_zero_iff, hlen]
      rw [ho']
      simp only [hnil]

theorem TableCounted.bestRegion_eq (c : TableCounted entries u region) :
    bestRegion type flags order 0 none region =
      bestRegion type flags order 0 none (entries.map (fillRegion zeroRegion)) := by
  apply bestRegion_congr
  rw [List.forall₂_map_left_iff, List.forall₂_iff_get]
  refine ⟨c.length.symm, fun i hi hr => ?_⟩
  exact (c.counted (List.getElem?_eq_getElem hr) (List.getElem?_eq_getElem hi)).keeps

theorem LifeStep.total_le (h : LifeStep s c s') (i k : Nat) : s.total i k ≤ s'.total i k := by
  cases h
  case alloc =>
    refine Nat.add_le_add_right ?_ _
    split
    case isTrue => exact Nat.le_refl _
    case isFalse =>
      apply List.Sublist.sum_le_sum
      · exact (List.sublist_cons_self _ _).filter _ |>.map _
      · exact fun _ _ => Nat.zero_le _
  case reserve =>
    simp only [Life.total, Life.handedFrom, List.count_append]
    omega
  case free => exact Nat.le_refl _

-- The counter of an order has reached the number of its blocks.
def UsedUp (s : Life) (i order : Nat) : Prop :=
  ∃ r o, s.pmm.region[i]? = some r ∧ r.order[order]? = some o ∧ o.entryn ≤ o.used

theorem UsedUp.step (m : Countable entries) (b : Budget entries s) (h : LifeStep s c s') (hi : entries[i]? = some entry)
    (hf : FewReserved s' i entry) (hu : UsedUp s i order) : UsedUp s' i order := by
  have b' := b.step m h
  have ⟨r, o, hr, ho, hle⟩ := hu
  have hc := b.counted.counted hr hi
  have hlt : i < s'.pmm.region.length := by
    rw [b'.counted.length]
    exact (List.getElem?_eq_some_iff.mp hi).1
  have hr' := List.getElem?_eq_getElem hlt
  have hc' := b'.counted.counted hr' hi
  have hord : s'.pmm.region[i].ordern = r.ordern := by rw [hc'.keeps.frame, hc.keeps.frame]
  have hsize : (s'.pmm.region[i].order[order]?).map (·.entryn) = some o.entryn := by
    rw [hc'.keeps.entryn_eq, ← hc.keeps.entryn_eq, ho, Option.map_some]
  have ⟨o', ho', hn⟩ := Option.map_eq_some_iff.mp hsize
  refine ⟨_, o', hr', ho', ?_⟩
  rcases size_made hc.keeps ho with ⟨hk, _⟩ | ⟨_, hz, _⟩
  case inr => omega
  case inl =>
    rw [hc'.counts order o' ho' (hord ▸ hk), u32_of_lt (b'.total_lt hi hf), hn]
    rw [hc.counts order o ho hk] at hle
    have hmono := h.total_le i order
    have hcut : u32 (s.total i order) ≤ s.total i order := Nat.mod_le _ _
    omega

-- What is freed does not make an order of a region usable again.
theorem UsedUp.run (m : Countable entries) (b : Budget entries s) (hi : entries[i]? = some entry)
    (run : Run.Steps LifeStep (fun _ _ => True) s s') (hf : FewReserved s' i entry) (hu : UsedUp s i order) :
    UsedUp s' i order := by
  let kept (v : Life) : Prop := Budget entries v ∧ (FewReserved v i entry → UsedUp v i order)
  have hkept : kept s' := by
    refine run.invariant (I := kept) ⟨b, fun _ => hu⟩ fun hk _ h => ⟨hk.left.step m h, fun hf' => ?_⟩
    refine UsedUp.step m hk.left h hi hf' (hk.right ?_)
    exact Nat.lt_of_le_of_lt (Nat.add_le_add_left (h.reserved_le i) _) hf'
  exact hkept.right hf

-- From then on `allocPhys` fails, for every request that the region is chosen for.
theorem exhausted_forever (m : Countable entries) (run : Run.Steps LifeStep (fun _ _ => True) (.start entries) s)
    (hi : entries[i]? = some entry) (hu : UsedUp s i (orderOf bytes))
    (hbest : bestRegion type (strictFlags type flags) (orderOf bytes) 0 none s.pmm.region = .ok (some i))
    (run' : Run.Steps LifeStep (fun _ _ => True) s s') (hf : FewReserved s' i entry)
    (h : allocPhys bytes type flags s'.pmm = .ok ((ptr, actual), p)) :
    ptr = memoryAllocationFailed ∧ p = s'.pmm := by
  have b := Budget.run m run
  have b' := Budget.run m (run.trans run')
  have ⟨r, o, hr, ho, hle⟩ := UsedUp.run m b hi run' hf hu
  have ⟨j, x, x', hj, hx, ha, _, he⟩ := allocPhys_cases h
  rw [b'.counted.bestRegion_eq, ← b.counted.bestRegion_eq, hbest] at hj
  cases hj
  cases hr.symm.trans hx
  rcases allocRegion_cases ha with ⟨hptr, hsame⟩ | ⟨_, _, _, _, found, _⟩
  · refine ⟨hptr, ?_⟩
    have ⟨hlt, hget⟩ := List.getElem?_eq_some_iff.mp hr
    rw [he, hsame, ← hget, List.set_getElem_self]
  · cases ho.symm.trans found.order
    exact absurd hle (Nat.not_le_of_lt found.used)

end Exhausted

section Example

theorem countable_singleton (hs : blocksIn entry.bytes < 2 ^ 32) (hp : entry.phys % 0x1000 = 0) : Countable [entry] where
  small e he := by
    rw [List.mem_singleton.mp he]
    exact hs
  aligned e he := by
    rw [List.mem_singleton.mp he]
    exact hp

-- A block is handed out and freed.
theorem run_tenOrders : ∃ p p', LifeStep (.start [tenOrders]) (.alloc 0x50000000000 0 0) ⟨p, [(0, 9)], []⟩ ∧
    LifeStep ⟨p, [(0, 9)], []⟩ (.free 0x100000 0x4000) ⟨p', [(0, 9)], []⟩ ∧ UsedUp ⟨p, [(0, 9)], []⟩ 0 9 ∧
    bestRegion 0 (strictFlags 0 0) (orderOf 0x50000000000) 0 none p.region = .ok (some 0) ∧
    (allocPhys 0x50000000000 0 0 p').map Prod.fst = .ok (memoryAllocationFailed, orderBlockSize 9) := by
  have hrun : ∃ p p', allocPhys 0x50000000000 0 0 (initial [tenOrders]).pmm = .ok ((0x100000, orderBlockSize 9), p) ∧
      freeNPhys 1 0x100000 0x4000 p = .ok p' ∧ UsedUp ⟨p, [(0, 9)], []⟩ 0 9 ∧
      bestRegion 0 (strictFlags 0 0) (orderOf 0x50000000000) 0 none p.region = .ok (some 0) ∧
      (allocPhys 0x50000000000 0 0 p').map Prod.fst = .ok (memoryAllocationFailed, orderBlockSize 9) :=
    ⟨_, _, rfl, rfl, ⟨_, _, rfl, rfl, by decide⟩, rfl, rfl⟩
  have ⟨p, p', ha, hf, hu, hb, h⟩ := hrun
  have horder : orderOf 0x50000000000 = 9 := by decide
  have hstep := @LifeStep.alloc (.start [tenOrders]) 0x50000000000 0 0x100000 _ 0 0 p rfl ha
  rw [horder] at hstep
  exact ⟨p, p', hstep, .free hf, hu, hb, h⟩

-- The block is free again, and is never handed out again.
theorem exhausted_forever_tenOrders : ∃ p p', LifeStep ⟨p, [(0, 9)], []⟩ (.free 0x100000 0x4000) ⟨p', [(0, 9)], []⟩ ∧
    allocPhys 0x50000000000 0 0 p' = .ok ((memoryAllocationFailed, orderBlockSize 9), p') := by
  have ⟨p, p', ha, hf, hu, hb, h⟩ := run_tenOrders
  have ⟨⟨⟨ptr, actual⟩, p''⟩, h, he⟩ := Except.exists_ok_of_map h
  cases he
  have few : 2 * blocksIn tenOrders.bytes + List.count 0 [] < 2 ^ 32 := by decide
  have ⟨_, hp⟩ := exhausted_forever (countable_singleton (by decide) (by decide))
    (.step (.refl _) trivial ha) rfl hu hb (.step (.refl _) trivial hf) few h
  cases hp
  exact ⟨p, p', hf, h⟩

end Example

end RoverOS.Pmm
