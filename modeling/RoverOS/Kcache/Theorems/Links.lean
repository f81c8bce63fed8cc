import RoverOS.Kcache.Links
import RoverOS.Kcache.Theorems.Buffers
import RoverOS.Kmalloc.Theorems.Interface

-- The links of a cache's slabs: `kcacheAlloc` links a new slab in both directions, `kcacheGrow` in one.

open Function (update update_self update_of_ne update_apply update_idem)

namespace RoverOS.Kcache

open Kmalloc (Ptr kmalloc kmalloc_some)

abbrev Nodes := Ptr → Option SlabNode

-- The list from a slab on through `next`.
inductive Chain (nodes : Nodes) : Option Ptr → List Ptr → Prop
  | nil : Chain nodes none []
  | cons {p : Ptr} {node : SlabNode} {l : List Ptr} :
    nodes p = some node → Chain nodes node.next l → Chain nodes (some p) (p :: l)

-- The list ends, and each slab that was made for the cache is in it once.
structure Listed (s : LinkedCache) (l : List Ptr) : Prop where
  chain : Chain s.nodes s.slabs l
  nodup : l.Nodup
  all   : ∀ p, s.nodes p ≠ none ↔ p ∈ l

-- Moreover, `prev` is the inverse of `next`.
structure WellLinked (s : LinkedCache) (l : List Ptr) : Prop extends Listed s l where
  first : ∀ p node, s.slabs = some p → s.nodes p = some node → node.prev = none
  back  : ∀ p node q node', s.nodes p = some node → node.next = some q → s.nodes q = some node' →
    node'.prev = some p

inductive LinkStep : LinkedCache → Op → LinkedCache → Prop
  | alloc {s s' fuel managers ptr} : s.kcacheAlloc fuel managers = .ok (ptr, s') → LinkStep s (.alloc managers) s'
  | grow {s s' managers} : s.kcacheGrow managers = .ok s' → LinkStep s (.grow managers) s'

-- A cache is only grown while it has no slab.
def KeepsLinks (s : LinkedCache) : Op → Prop
  | .alloc _ => True
  | .grow _  => s.slabs = none

-- A cache as `fillCacheDetails` or `createVMarkerCache` makes it.
inductive LinkedCreated : LinkedCache → Prop
  | empty {objSize type flags heap} : LinkedCreated (.fillCacheDetails objSize type flags heap)
  | vMarker {objSize type flags ptr heap s} :
    LinkedCache.createVMarkerCache objSize type flags ptr heap = .ok s → LinkedCreated s

variable {s s' s'' : LinkedCache} {nodes nodes' : Nodes} {first : Option Ptr} {l : List Ptr} {p q : Ptr}
variable {node : SlabNode} {slab : Kslab} {managers : Managers} {fuel count : Nat} {op : Op} {f : SlabNode → SlabNode}
variable {r : Option Nat} {heap : Kmalloc.Heap}

section Chain

theorem Chain.next_mem (h : Chain nodes first l) (hp : p ∈ l) (hn : nodes p = some node)
    (hq : node.next = some q) : q ∈ l := by
  induction h
  case nil => cases hp
  case cons r node' l hr hc hi =>
    rcases List.mem_cons.mp hp with rfl | hp
    · rw [hr] at hn
      cases hn
      rw [hq] at hc
      cases hc
      exact List.mem_cons_of_mem _ List.mem_cons_self
    · exact List.mem_cons_of_mem _ (hi hp)

-- A list goes through the same slabs when these have the same next ones.
theorem Chain.congr (h : Chain nodes first l)
    (hn : ∀ p ∈ l, (nodes' p).map (·.next) = (nodes p).map (·.next)) : Chain nodes' first l := by
  induction h
  case nil => exact .nil
  case cons p node l hp _ hi =>
    have hnext := hn p List.mem_cons_self
    rw [hp, Option.map_some] at hnext
    obtain ⟨node', hp', he⟩ := Option.map_eq_some_iff.mp hnext
    refine .cons hp' ?_
    rw [he]
    exact hi fun q hq => hn q (List.mem_cons_of_mem _ hq)

end Chain

section Nodes

theorem modifyNode_ok (h : s.modifyNode p f = .ok s') : ∃ node, s.nodes p = some node ∧
    s' = { s with nodes := update s.nodes p (some (f node)) } := by
  unfold LinkedCache.modifyNode at h
  split at h
  case h_1 => cases h
  case h_2 node hn =>
    cases h
    exact ⟨node, hn, rfl⟩

-- The slab in memory changes, and its links do not.
def LinkedCache.relabel (s : LinkedCache) (p : Ptr) (node : SlabNode) (slab : Kslab) : LinkedCache :=
  { s with nodes := update s.nodes p (some { node with slab }) }

theorem allocateBuffer_ok (h : s.allocateBuffer p = .ok (r, s')) : ∃ node slab, s.nodes p = some node ∧
    Kcache.allocateBuffer s.objSize node.slab = .ok (r, slab) ∧
      s' = s.relabel p node slab := by
  unfold LinkedCache.allocateBuffer at h
  split at h
  case h_1 => cases h
  case h_2 node hn =>
    obtain ⟨⟨_, slab⟩, ha, h⟩ := Except.bind_ok_iff.mp h
    cases h
    exact ⟨node, slab, hn, ha, rfl⟩

theorem kmalloc_ne_none {sz : Nat} {h h' : Kmalloc.Heap} (h0 : sz ≠ 0) : kmalloc sz h ≠ .ok (none, h') := by
  intro hk
  obtain ⟨_, _, hk⟩ := Except.bind_ok_iff.mp hk
  rw [if_neg h0] at hk
  split at hk <;> cases hk

-- The slab at the next address, without links.
def LinkedCache.placed (s : LinkedCache) (slab : Kslab) (heap : Kmalloc.Heap) : LinkedCache :=
  { s with heap, nodes := update s.nodes s.heap.next (some { slab, prev := none, next := none }) }

theorem place_ok {ptr : Option Ptr} (h : s.place slab = .ok (ptr, s')) :
    ∃ heap, s.heap.next < heap.next ∧ ptr = some s.heap.next ∧ s' = s.placed slab heap := by
  obtain ⟨⟨_ | ptr', h₁⟩, hk₁, h⟩ := Except.bind_ok_iff.mp h
  case none => exact absurd hk₁ (kmalloc_ne_none (by decide))
  case some =>
    obtain ⟨⟨_ | bitmap, h₂⟩, hk₂, h⟩ := Except.bind_ok_iff.mp h
    case none => cases h
    case some =>
      cases h
      obtain ⟨rfl, rfl⟩ := kmalloc_some hk₁
      obtain ⟨-, rfl⟩ := kmalloc_some hk₂
      exact ⟨_, Nat.lt_succ_of_lt (Nat.lt_succ_self _), rfl, rfl⟩

theorem newSlab_withList {slabs : List Kslab} :
    (s.withList slabs).newSlab managers count = (s.withList []).newSlab managers count :=
  rfl

theorem newSlab_ok {ptr : Option Ptr} (h : s.newSlab managers count = .ok (ptr, s')) :
    (s.withList []).newSlab managers count = none ∧ ptr = none ∧ s' = s ∨
      ∃ slab heap, (s.withList []).newSlab managers count = some slab ∧ s.heap.next < heap.next ∧
        ptr = some s.heap.next ∧ s' = s.placed slab heap := by
  unfold LinkedCache.newSlab at h
  split at h
  case h_1 hn =>
    cases h
    exact .inl ⟨hn, rfl, rfl⟩
  case h_2 slab hs =>
    obtain ⟨heap, hlt, hp, he⟩ := place_ok h
    exact .inr ⟨slab, heap, hs, hlt, hp, he⟩

end Nodes

section Push

-- Beyond the end of the heap there is no slab.
def Beyond (s : LinkedCache) : Prop :=
  ∀ p, s.heap.next ≤ p → s.nodes p = none

-- The new slab in front of the list, with a link to the one that was there.
def LinkedCache.front (s : LinkedCache) (slab : Kslab) (heap : Kmalloc.Heap) : LinkedCache :=
  { s with
    heap
    slabs := some s.heap.next
    nodes := update s.nodes s.heap.next (some { slab, prev := none, next := s.slabs }) }

-- The link back.
def LinkedCache.back (s : LinkedCache) (p : Ptr) : Option Ptr → LinkedCache
  | none   => s
  | some q => { s with nodes := update s.nodes q ((s.nodes q).map fun node => { node with prev := some p }) }

theorem placed_front (hs : s' = s.placed slab heap) :
    { s' with
      slabs := some s.heap.next
      nodes := update s'.nodes s.heap.next (some { slab, prev := none, next := s'.slabs }) } =
      s.front slab heap := by
  subst hs
  simp only [LinkedCache.front, LinkedCache.placed, update_idem]

theorem kcacheGrow_ok (h : s.kcacheGrow managers = .ok s') : ∃ slab heap, s.heap.next < heap.next ∧
    (s.withList []).newSlab managers 10 = some slab ∧ s' = s.front slab heap := by
  obtain ⟨⟨ptr, s₁⟩, hn, h⟩ := Except.bind_ok_iff.mp h
  rcases newSlab_ok hn with ⟨_, rfl, _⟩ | ⟨slab, heap, hs, hlt, rfl, rfl⟩
  · cases h
  · obtain ⟨s₂, hm, h⟩ := Except.bind_ok_iff.mp h
    cases h
    obtain ⟨node, hp, rfl⟩ := modifyNode_ok hm
    cases (update_self ..).symm.trans hp
    exact ⟨slab, heap, hlt, hs, placed_front (rfl : _ = s.placed slab heap)⟩

theorem kcacheAlloc_ok (h : s.kcacheAlloc fuel managers = .ok (r, s')) :
    (∃ chosen, LinkedCache.findRoom s.nodes fuel s.slabs = .ok (some chosen) ∧
      s.allocateBuffer chosen = .ok (r, s')) ∨
    LinkedCache.findRoom s.nodes fuel s.slabs = .ok none ∧
      ((s.withList []).newSlab managers 10 = none ∧ r = none ∧ s' = s ∨
        ∃ slab heap, s.heap.next < heap.next ∧ (s.withList []).newSlab managers 10 = some slab ∧
          ((s.front slab heap).back s.heap.next s.slabs).allocateBuffer s.heap.next = .ok (r, s')) := by
  obtain ⟨_, _, h⟩ := Except.bind_ok_iff.mp h
  obtain ⟨_ | chosen, hf, h⟩ := Except.bind_ok_iff.mp h
  case some => exact .inl ⟨chosen, hf, h⟩
  case none =>
    refine .inr ⟨hf, ?_⟩
    obtain ⟨⟨ptr, s₁⟩, hn, h⟩ := Except.bind_ok_iff.mp h
    rcases newSlab_ok hn with ⟨hs, rfl, he⟩ | ⟨slab, heap, hs, hlt, rfl, he⟩
    · cases h
      exact .inl ⟨hs, rfl, he⟩
    · refine .inr ⟨slab, heap, hlt, hs, ?_⟩
      obtain ⟨s₂, hm, h⟩ := Except.bind_ok_iff.mp h
      obtain ⟨node, hp, rfl⟩ := modifyNode_ok hm
      subst he
      cases (update_self ..).symm.trans hp
      rw [placed_front rfl] at h
      split at h
      case h_1 hq =>
        rw [LinkedCache.placed] at hq
        rwa [hq]
      case h_2 q hq =>
        obtain ⟨s₃, hm, h⟩ := Except.bind_ok_iff.mp h
        obtain ⟨node, hq', rfl⟩ := modifyNode_ok hm
        rw [LinkedCache.placed] at hq
        rw [hq, LinkedCache.back, hq']
        exact h

-- No link of the list is different, and no slab is new.
theorem Listed.congr (hl : Listed s l) (hs : s'.slabs = s.slabs)
    (hn : ∀ p, (s'.nodes p).map (·.next) = (s.nodes p).map (·.next)) : Listed s' l where
  chain := hs ▸ hl.chain.congr fun p _ => hn p
  nodup := hl.nodup
  all p := by rw [← hl.all p, not_iff_not, ← Option.map_eq_none_iff, hn p, Option.map_eq_none_iff]

theorem Beyond.congr (hb : Beyond s) (hh : s'.heap = s.heap)
    (hn : ∀ p, (s'.nodes p).map (·.next) = (s.nodes p).map (·.next)) : Beyond s' := by
  intro p hp
  rw [hh] at hp
  rw [← Option.map_eq_none_iff, hn p, hb p hp, Option.map_none]

theorem Listed.slabs_mem (hl : Listed s l) (hp : s.slabs = some p) : p ∈ l := by
  have hc := hl.chain
  rw [hp] at hc
  cases hc
  exact List.mem_cons_self

theorem Listed.ne_next (hl : Listed s l) (hb : Beyond s) (hp : p ∈ l) : p ≠ s.heap.next :=
  fun he => (hl.all p).mpr hp (hb p (Nat.le_of_eq he.symm))

theorem LinkedCache.front_nodes (hp : p ≠ s.heap.next) : (s.front slab heap).nodes p = s.nodes p :=
  update_of_ne hp ..

theorem front_self : (s.front slab heap).nodes s.heap.next = some { slab, prev := none, next := s.slabs } :=
  update_self ..

theorem Listed.front (hl : Listed s l) (hb : Beyond s) : Listed (s.front slab heap) (s.heap.next :: l) where
  chain := .cons front_self <| hl.chain.congr fun p hp => by
    rw [LinkedCache.front_nodes (hl.ne_next hb hp)]
  nodup := List.nodup_cons.mpr ⟨fun hm => hl.ne_next hb hm rfl, hl.nodup⟩
  all p := by
    simp only [LinkedCache.front, update_apply, List.mem_cons]
    split
    case isTrue he  => simp [he]
    case isFalse hn => rw [or_iff_right hn, hl.all p]

theorem Beyond.front (hb : Beyond s) (hlt : s.heap.next < heap.next) : Beyond (s.front slab heap) :=
  fun p hp => (LinkedCache.front_nodes (Nat.ne_of_gt (Nat.lt_of_lt_of_le hlt hp))).trans
    (hb p (Nat.le_trans (Nat.le_of_lt hlt) hp))

@[simp]
theorem LinkedCache.back_slabs : ∀ next, (s.back p next).slabs = s.slabs
  | none   => rfl
  | some _ => rfl

@[simp]
theorem LinkedCache.back_heap : ∀ next, (s.back p next).heap = s.heap
  | none   => rfl
  | some _ => rfl

theorem LinkedCache.back_nodes (next : Option Ptr) : (s.back p next).nodes q =
    if next = some q then (s.nodes q).map (fun node => { node with prev := some p }) else s.nodes q := by
  cases next
  case none      => rfl
  case some next =>
    simp only [back, update_apply, Option.some.injEq, eq_comm]
    split
    case isTrue he => rw [he]
    case isFalse   => rfl

theorem LinkedCache.back_next (next : Option Ptr) :
    ((s.back p next).nodes q).map (·.next) = (s.nodes q).map (·.next) := by
  rw [back_nodes]
  split
  case isTrue  => simp [Function.comp_def]
  case isFalse => rfl

theorem Listed.pushed_new (hl : Listed s l) (hb : Beyond s) :
    ((s.front slab heap).back s.heap.next s.slabs).nodes s.heap.next = some { slab, prev := none, next := s.slabs } := by
  rw [LinkedCache.back_nodes, if_neg fun hs => hl.ne_next hb (hl.slabs_mem hs) rfl, front_self]

theorem Listed.push (hl : Listed s l) (hb : Beyond s) :
    Listed ((s.front slab heap).back s.heap.next s.slabs) (s.heap.next :: l) :=
  (hl.front hb).congr (LinkedCache.back_slabs _) fun _ => LinkedCache.back_next _

theorem Beyond.push (hb : Beyond s) (hlt : s.heap.next < heap.next) :
    Beyond ((s.front slab heap).back s.heap.next s.slabs) :=
  (hb.front hlt).congr (LinkedCache.back_heap _) fun _ => LinkedCache.back_next _

-- The front of the list has no link back, and every other slab has one to the slab before it.
theorem WellLinked.not_next_first (hw : WellLinked s l) (hp : s.nodes p = some node) (hn : node.next = some q) :
    s.slabs ≠ some q := by
  intro hq
  obtain ⟨node', hq'⟩ := Option.ne_none_iff_exists'.mp ((hw.all q).mpr (hw.slabs_mem hq))
  have hb := hw.back p node q node' hp hn hq'
  rw [hw.first q node' hq hq'] at hb
  cases hb

-- `kcacheAlloc` puts a new slab in front.
theorem WellLinked.push (hw : WellLinked s l) (hb : Beyond s) :
    WellLinked ((s.front slab heap).back s.heap.next s.slabs) (s.heap.next :: l) := by
  have new := @Listed.pushed_new _ _ slab heap hw.toListed hb
  have old : ∀ p, p ≠ s.heap.next → ((s.front slab heap).back s.heap.next s.slabs).nodes p =
      if s.slabs = some p then (s.nodes p).map (fun node => { node with prev := some s.heap.next })
      else s.nodes p := by
    intro p hp
    rw [LinkedCache.back_nodes, LinkedCache.front_nodes hp]
  refine ⟨hw.toListed.push hb, ?first, ?back⟩
  case first =>
    intro p node hp hn
    rw [LinkedCache.back_slabs] at hp
    cases hp
    cases new.symm.trans hn
    rfl
  case back =>
    intro p node q node' hp hn hq
    by_cases hpn : p = s.heap.next
    case pos =>
      subst hpn
      cases new.symm.trans hp
      rw [old q (hw.ne_next hb (hw.slabs_mem hn)), if_pos hn] at hq
      obtain ⟨_, _, rfl⟩ := Option.map_eq_some_iff.mp hq
      rfl
    case neg =>
      -- A slab that was there before has the same next one.
      obtain ⟨node₀, hp₀, he⟩ : ∃ node₀, s.nodes p = some node₀ ∧ node₀.next = node.next := by
        rw [old p hpn] at hp
        split at hp
        case isTrue =>
          obtain ⟨node₀, hp₀, rfl⟩ := Option.map_eq_some_iff.mp hp
          exact ⟨node₀, hp₀, rfl⟩
        case isFalse => exact ⟨node, hp, rfl⟩
      rw [← he] at hn
      have hm : q ∈ l := hw.chain.next_mem ((hw.all p).mp (by simp [hp₀])) hp₀ hn
      rw [old q (hw.ne_next hb hm), if_neg (hw.not_next_first hp₀ hn)] at hq
      exact hw.back p node₀ q node' hp₀ hn hq

end Push

section Steps

theorem relabel_some (hp : s.nodes p = some node) {node' : SlabNode} (hq : (s.relabel p node slab).nodes q = some node') :
    ∃ node₀, s.nodes q = some node₀ ∧ node₀.prev = node'.prev ∧ node₀.next = node'.next := by
  simp only [LinkedCache.relabel, update_apply] at hq
  split at hq
  case isTrue he =>
    cases hq
    exact ⟨node, he ▸ hp, rfl, rfl⟩
  case isFalse => exact ⟨node', hq, rfl, rfl⟩

theorem relabel_next (hp : s.nodes p = some node) :
    ((s.relabel p node slab).nodes q).map (·.next) = (s.nodes q).map (·.next) := by
  simp only [LinkedCache.relabel, update_apply]
  split
  case isTrue he => rw [he, hp, Option.map_some, Option.map_some]
  case isFalse   => rfl

theorem relabel_self : (s.relabel p node slab).nodes p = some { node with slab } :=
  update_self ..

theorem Listed.relabel (hl : Listed s l) (hp : s.nodes p = some node) : Listed (s.relabel p node slab) l :=
  hl.congr rfl fun _ => relabel_next hp

theorem Beyond.relabel (hb : Beyond s) (hp : s.nodes p = some node) : Beyond (s.relabel p node slab) :=
  hb.congr rfl fun _ => relabel_next hp

theorem WellLinked.relabel (hw : WellLinked s l) (hp : s.nodes p = some node) :
    WellLinked (s.relabel p node slab) l := by
  refine ⟨hw.toListed.relabel hp, ?first, ?back⟩
  case first =>
    intro q node' hs hq
    obtain ⟨node₀, hq₀, hprev, -⟩ := relabel_some hp hq
    rw [← hprev, hw.first q node₀ hs hq₀]
  case back =>
    intro q node' q' node'' hq hn hq'
    obtain ⟨node₀, hq₀, -, hnext⟩ := relabel_some hp hq
    obtain ⟨node₁, hq₁, hprev, -⟩ := relabel_some hp hq'
    rw [← hprev, hw.back q node₀ q' node₁ hq₀ (hnext.trans hn) hq₁]

-- A slab that is in front of another one, which has no link back.
theorem WellLinked.not_front (hw : WellLinked s l) (hb : Beyond s) (hs : s.slabs ≠ none) {l' : List Ptr} :
    ¬WellLinked (s.front slab heap) l' := by
  intro hw'
  obtain ⟨q, hq⟩ := Option.ne_none_iff_exists'.mp hs
  have hm : q ∈ l := hw.slabs_mem hq
  obtain ⟨node, hn⟩ := Option.ne_none_iff_exists'.mp ((hw.all q).mpr hm)
  have hprev := hw'.back s.heap.next _ q node front_self hq
    ((LinkedCache.front_nodes (hw.ne_next hb hm)).trans hn)
  rw [hw.first q node hq hn] at hprev
  cases hprev

-- What the steps of a run keep.
def Linked (s : LinkedCache) : Prop :=
  (∃ l, WellLinked s l) ∧ Beyond s

theorem WellLinked.push_linked (hw : WellLinked s l) (hb : Beyond s) (hlt : s.heap.next < heap.next) :
    Linked ((s.front slab heap).back s.heap.next s.slabs) :=
  ⟨⟨_, hw.push hb⟩, hb.push hlt⟩

theorem Linked.allocateBuffer (hl : Linked s) (h : s.allocateBuffer p = .ok (r, s')) : Linked s' := by
  obtain ⟨⟨l, hw⟩, hb⟩ := hl
  obtain ⟨node, slab, hp, -, rfl⟩ := allocateBuffer_ok h
  exact ⟨⟨l, hw.relabel hp⟩, hb.relabel hp⟩

theorem Linked.alloc (hl : Linked s) (h : s.kcacheAlloc fuel managers = .ok (r, s')) : Linked s' := by
  rcases kcacheAlloc_ok h with ⟨chosen, -, h⟩ | ⟨-, ⟨-, -, rfl⟩ | ⟨slab, heap, hlt, -, h⟩⟩
  · exact hl.allocateBuffer h
  · exact hl
  · obtain ⟨⟨l, hw⟩, hb⟩ := hl
    exact (hw.push_linked hb hlt).allocateBuffer h

theorem Linked.grow (hl : Linked s) (hs : s.slabs = none) (h : s.kcacheGrow managers = .ok s') : Linked s' := by
  obtain ⟨⟨l, hw⟩, hb⟩ := hl
  obtain ⟨slab, heap, hlt, -, rfl⟩ := kcacheGrow_ok h
  have hp := @WellLinked.push_linked _ _ slab heap hw hb hlt
  rwa [hs, LinkedCache.back] at hp

theorem LinkStep.linked (hl : Linked s) (hk : KeepsLinks s op) (h : LinkStep s op s') : Linked s' := by
  cases h
  case alloc h => exact hl.alloc h
  case grow h  => exact hl.grow hk h

-- When the cache has a slab, `kcacheGrow` leaves it without a link back.
theorem LinkStep.wellLinked_iff (hl : Linked s) (h : LinkStep s op s') :
    (∃ l, WellLinked s' l) ↔ KeepsLinks s op := by
  refine ⟨fun hw' => ?mp, fun hk => (h.linked hl hk).left⟩
  cases h
  case alloc  => trivial
  case grow h =>
    obtain ⟨⟨l, hw⟩, hb⟩ := hl
    obtain ⟨slab, heap, -, -, rfl⟩ := kcacheGrow_ok h
    obtain ⟨l', hw'⟩ := hw'
    by_contra hs
    exact hw.not_front hb hs hw'

theorem linked_fillCacheDetails {objSize type : Nat} {flags : Word} :
    Linked (.fillCacheDetails objSize type flags heap) := by
  refine ⟨⟨[], ⟨.nil, List.nodup_nil, fun p => ?_⟩, fun p _ h => ?_, fun p _ _ _ h => ?_⟩, fun p _ => rfl⟩
  · exact ⟨fun h => absurd rfl h, fun h => absurd h List.not_mem_nil⟩
  · cases h
  · cases h

theorem LinkedCreated.linked (hc : LinkedCreated s) : Linked s := by
  cases hc
  case empty => exact linked_fillCacheDetails
  case vMarker objSize type flags ptr heap h =>
    obtain ⟨⟨slabs, s₁⟩, hp, h⟩ := Except.bind_ok_iff.mp h
    obtain ⟨heap', hlt, rfl, rfl⟩ := place_ok hp
    cases h
    obtain ⟨⟨l, hw⟩, hb⟩ := @linked_fillCacheDetails heap objSize type flags
    exact hw.push_linked hb hlt

end Steps

section Refinement

-- The slabs at the addresses of a list.
def slabsAt (nodes : Nodes) (l : List Ptr) : List Kslab :=
  l.filterMap fun p => (nodes p).map (·.slab)

-- The cache without links and addresses.
def LinkedCache.abs (s : LinkedCache) (l : List Ptr) : Kcache :=
  s.withList (slabsAt s.nodes l)

theorem slabsAt_cons (hp : nodes p = some node) : slabsAt nodes (p :: l) = node.slab :: slabsAt nodes l := by
  rw [slabsAt, List.filterMap_cons_some (by rw [hp, Option.map_some])]
  rfl

theorem slabsAt_congr (h : ∀ p ∈ l, (nodes' p).map (·.slab) = (nodes p).map (·.slab)) :
    slabsAt nodes' l = slabsAt nodes l :=
  List.filterMap_congr h

theorem slabsAt_update (hp : p ∉ l) {node : Option SlabNode} : slabsAt (update nodes p node) l = slabsAt nodes l :=
  slabsAt_congr fun _ hq => by rw [update_of_ne (ne_of_mem_of_not_mem hq hp)]

theorem slabsAt_relabel (hp : p ∉ l) : slabsAt (s.relabel p node slab).nodes l = slabsAt s.nodes l :=
  slabsAt_update hp

theorem slabsAt_back : slabsAt (s.back p first).nodes l = slabsAt s.nodes l := by
  refine slabsAt_congr fun q _ => ?_
  rw [LinkedCache.back_nodes]
  split
  case isTrue  => simp [Function.comp_def]
  case isFalse => rfl

theorem findRoom_eq (hp : nodes p = some node) : LinkedCache.findRoom nodes (fuel + 1) (some p) =
    if HasRoom node.slab then .ok (some p) else LinkedCache.findRoom nodes fuel node.next := by
  rw [LinkedCache.findRoom, hp]

-- The search ends at the end of the list.
theorem Chain.findRoom_ok (h : Chain nodes first l) (hf : l.length < fuel) :
    ∃ chosen, LinkedCache.findRoom nodes fuel first = .ok chosen := by
  induction h generalizing fuel
  case nil =>
    obtain ⟨fuel, rfl⟩ := Nat.exists_eq_add_of_lt hf
    exact ⟨none, rfl⟩
  case cons p node l hp _ hi =>
    cases fuel
    case zero      => cases hf
    case succ fuel =>
      rw [findRoom_eq hp]
      split
      case isTrue  => exact ⟨some p, rfl⟩
      case isFalse => exact hi (Nat.lt_of_succ_lt_succ hf)

theorem Chain.findRoom_none {objSize : Nat} (h : Chain nodes first l)
    (hf : LinkedCache.findRoom nodes fuel first = .ok none) : allocChosen objSize (slabsAt nodes l) = .ok none := by
  induction h generalizing fuel
  case nil => rfl
  case cons p node l hp _ hi =>
    cases fuel
    case zero      => cases hf
    case succ fuel =>
      rw [findRoom_eq hp] at hf
      split at hf
      case isTrue     => cases hf
      case isFalse hr =>
        rw [slabsAt_cons hp, allocChosen, if_neg hr, hi hf]
        rfl

theorem Chain.findRoom_mem (h : Chain nodes first l) (hf : LinkedCache.findRoom nodes fuel first = .ok (some p)) :
    p ∈ l := by
  induction h generalizing fuel
  case nil => cases fuel <;> cases hf
  case cons q node l hq _ hi =>
    cases fuel
    case zero      => cases hf
    case succ fuel =>
      rw [findRoom_eq hq] at hf
      split at hf
      case isTrue =>
        cases hf
        exact List.mem_cons_self
      case isFalse => exact List.mem_cons_of_mem _ (hi hf)

theorem Chain.findRoom_some {objSize : Nat} (h : Chain nodes first l) (hd : l.Nodup)
    (hf : LinkedCache.findRoom nodes fuel first = .ok (some p)) (hp : nodes p = some node)
    (ha : Kcache.allocateBuffer objSize node.slab = .ok (r, slab)) :
    allocChosen objSize (slabsAt nodes l) =
      .ok (some (r, slabsAt (update nodes p (some { node with slab })) l)) := by
  induction h generalizing fuel
  case nil => cases fuel <;> cases hf
  case cons q node' l hq hc hi =>
    obtain ⟨hn, hd⟩ := List.nodup_cons.mp hd
    cases fuel
    case zero      => cases hf
    case succ fuel =>
      rw [findRoom_eq hq] at hf
      split at hf
      case isTrue hr =>
        cases hf
        cases hq.symm.trans hp
        rw [slabsAt_cons hp, slabsAt_cons (update_self ..), slabsAt_update hn, allocChosen, if_pos hr, ha]
        rfl
      case isFalse hr =>
        have he : q ≠ p := (ne_of_mem_of_not_mem (hc.findRoom_mem hf) hn).symm
        rw [slabsAt_cons hq, slabsAt_cons ((update_of_ne he ..).trans hq), allocChosen, if_neg hr, hi hd hf]
        rfl

theorem LinkedCache.back_withList {slabs : List Kslab} : ∀ next, (s.back p next).withList slabs = s.withList slabs
  | none   => rfl
  | some _ => rfl

theorem Listed.push_abs (hl : Listed s l) (hb : Beyond s) {slab' : Kslab} :
    (((s.front slab heap).back s.heap.next s.slabs).relabel s.heap.next { slab, prev := none, next := s.slabs } slab').abs
      (s.heap.next :: l) = s.withList (slab' :: slabsAt s.nodes l) := by
  have hn : s.heap.next ∉ l := fun hm => hl.ne_next hb hm rfl
  have hs : slabsAt ((s.front slab heap).back s.heap.next s.slabs).nodes l = slabsAt s.nodes l :=
    slabsAt_back.trans (slabsAt_update hn)
  rw [LinkedCache.abs, slabsAt_cons relabel_self, slabsAt_relabel hn, hs]
  exact LinkedCache.back_withList _

-- The calls do to the list of the slabs what they do to the cache that is given by it.
theorem Listed.kcacheAlloc_abs (hl : Listed s l) (hb : Beyond s) (h : s.kcacheAlloc fuel managers = .ok (r, s')) :
    ∃ l', Listed s' l' ∧ Beyond s' ∧ kcacheAlloc managers (s.abs l) = .ok (r, s'.abs l') := by
  obtain ⟨_, hlock, _⟩ := Except.bind_ok_iff.mp h
  rcases kcacheAlloc_ok h with ⟨chosen, hf, h⟩ | ⟨hf, hn⟩
  · obtain ⟨node, slab, hp, ha, rfl⟩ := allocateBuffer_ok h
    refine ⟨l, hl.relabel hp, hb.relabel hp, ?_⟩
    simp only [kcacheAlloc, LinkedCache.abs, LinkedCache.withList, hlock, hl.chain.findRoom_some hl.nodup hf hp ha]
    rfl
  · have hc : allocChosen s.objSize (slabsAt s.nodes l) = .ok none := hl.chain.findRoom_none hf
    rcases hn with ⟨hn, rfl, rfl⟩ | ⟨slab, heap, hlt, hn, h⟩
    · refine ⟨l, hl, hb, ?_⟩
      have hn' : (s'.abs l).newSlab managers 10 = none := newSlab_withList.trans hn
      simp only [kcacheAlloc, hn']
      simp only [LinkedCache.abs, LinkedCache.withList, hlock, hc]
      rfl
    · obtain ⟨node, slab', hp, ha, rfl⟩ := allocateBuffer_ok h
      cases (hl.pushed_new hb).symm.trans hp
      refine ⟨s.heap.next :: l, (hl.push hb).relabel hp, (hb.push hlt).relabel hp, ?_⟩
      have ho : ((s.front slab heap).back s.heap.next s.slabs).objSize = s.objSize :=
        congrArg Kcache.objSize (@LinkedCache.back_withList _ _ [] _)
      rw [ho] at ha
      have hn' : (s.abs l).newSlab managers 10 = some slab := newSlab_withList.trans hn
      rw [hl.push_abs hb]
      simp only [kcacheAlloc, hn']
      simp only [LinkedCache.abs, LinkedCache.withList, hlock, hc, ha]
      rfl

theorem Listed.kcacheGrow_abs (hl : Listed s l) (hb : Beyond s) (h : s.kcacheGrow managers = .ok s') :
    ∃ l', Listed s' l' ∧ Beyond s' ∧ kcacheGrow managers (s.abs l) = .ok (s'.abs l') := by
  obtain ⟨slab, heap, hlt, hn, rfl⟩ := kcacheGrow_ok h
  refine ⟨s.heap.next :: l, hl.front hb, hb.front hlt, ?_⟩
  have hm : s.heap.next ∉ l := fun hm => hl.ne_next hb hm rfl
  have hs : slabsAt (s.front slab heap).nodes (s.heap.next :: l) = slab :: slabsAt s.nodes l := by
    rw [slabsAt_cons front_self]
    exact congrArg _ (slabsAt_update hm)
  have hn' : (s.abs l).newSlab managers 10 = some slab := newSlab_withList.trans hn
  rw [kcacheGrow, hn', LinkedCache.abs, LinkedCache.abs, hs]
  rfl

theorem LinkStep.refines (hl : Listed s l) (hb : Beyond s) (h : LinkStep s op s') (out : List Nat) :
    ∃ l' out', Listed s' l' ∧ Beyond s' ∧ Step ⟨s.abs l, out⟩ op ⟨s'.abs l', out'⟩ := by
  cases h
  case alloc h =>
    obtain ⟨l', hl', hb', ha⟩ := hl.kcacheAlloc_abs hb h
    exact ⟨l', _, hl', hb', .alloc ha⟩
  case grow h =>
    obtain ⟨l', hl', hb', hg⟩ := hl.kcacheGrow_abs hb h
    exact ⟨l', _, hl', hb', .grow hg⟩

-- Whatever the calls are, the links to the next slab are right: a run is one of the cache that is given by the
-- list, and has every slab once.
theorem steps_refine {s₀ : LinkedCache} {l₀ : List Ptr} (hl : Listed s₀ l₀) (hb : Beyond s₀)
    (run : Run.Steps LinkStep (fun _ _ => True) s₀ s) (out₀ : List Nat) : ∃ l out, Listed s l ∧ Beyond s ∧
      Run.Steps Step (fun _ _ => True) ⟨s₀.abs l₀, out₀⟩ ⟨s.abs l, out⟩ := by
  induction run
  case refl => exact ⟨l₀, out₀, hl, hb, .refl _⟩
  case step h hi =>
    obtain ⟨l, out, hl, hb, run⟩ := hi
    obtain ⟨l', out', hl', hb', step⟩ := h.refines hl hb out
    exact ⟨l', out', hl', hb', .step run trivial step⟩

end Refinement

-- In every run in which the cache is only grown while it has no slab, the list of the slabs is well linked,
-- and after the next step it is if and only if that is such a step too.
theorem slabs_linked_iff {s₀ : LinkedCache} (hc : LinkedCreated s₀) (run : Run.Steps LinkStep KeepsLinks s₀ s) :
    (∃ l, WellLinked s l) ∧ ∀ op s', LinkStep s op s' → ((∃ l, WellLinked s' l) ↔ KeepsLinks s op) := by
  have hl : Linked s := run.invariant hc.linked fun hl hk h => h.linked hl hk
  exact ⟨hl.left, fun _ _ h => h.wellLinked_iff hl⟩

section Example

def emptyHeap : Kmalloc.Heap where
  mem _ _  := 0
  blocks _ := none
  free _   := 0
  next     := 1
  lock     := false

def emptyCache : LinkedCache :=
  .fillCacheDetails 8 0 0 emptyHeap

-- Of objects that fill a block, the first is in the slab of `kcacheGrow`, and the second in a new one.
theorem slabs_linked_twoSlabs : ∃ s₁ s₂ s₃ node l,
    (LinkedCache.fillCacheDetails 64 0 0 emptyHeap).kcacheGrow oneBlock = .ok s₁ ∧
    s₁.kcacheAlloc 2 nextBlock = .ok (some 0x200000, s₂) ∧ s₂.kcacheAlloc 2 nextBlock = .ok (some 0x201000, s₃) ∧
    s₃.slabs = some 3 ∧ s₃.nodes 3 = some node ∧ node.next = some 1 ∧ WellLinked s₃ l := by
  have hs : ∃ s₁ s₂ s₃ node, (LinkedCache.fillCacheDetails 64 0 0 emptyHeap).kcacheGrow oneBlock = .ok s₁ ∧
      s₁.kcacheAlloc 2 nextBlock = .ok (some 0x200000, s₂) ∧ s₂.kcacheAlloc 2 nextBlock = .ok (some 0x201000, s₃) ∧
      s₃.slabs = some 3 ∧ s₃.nodes 3 = some node ∧ node.next = some 1 :=
    ⟨_, _, _, _, rfl, rfl, rfl, rfl, rfl, rfl⟩
  obtain ⟨s₁, s₂, s₃, node, h₁, h₂, h₃, hfirst, hnode, hnext⟩ := hs
  have hempty : KeepsLinks (.fillCacheDetails 64 0 0 emptyHeap) (.grow oneBlock) := rfl
  have hany (s : LinkedCache) : KeepsLinks s (.alloc nextBlock) := trivial
  have run : Run.Steps LinkStep KeepsLinks (.fillCacheDetails 64 0 0 emptyHeap) s₂ :=
    .step (.step (.refl _) hempty (.grow h₁)) (hany s₁) (.alloc h₂)
  obtain ⟨l, hw⟩ := ((slabs_linked_iff .empty run).right (.alloc nextBlock) s₃ (.alloc h₃)).mpr (hany s₂)
  exact ⟨s₁, s₂, s₃, node, l, h₁, h₂, h₃, hfirst, hnode, hnext, hw⟩

-- The slab that `kcacheAlloc` made has no link back to the one that `kcacheGrow` puts in front of it.
theorem kcacheGrow_without_prev :
    ¬∀ s₀ s, LinkedCreated s₀ → Run.Steps LinkStep (fun _ _ => True) s₀ s → ∃ l, WellLinked s l := by
  intro h
  have hs : ∃ ptr s₁ s₂ node node', emptyCache.kcacheAlloc 1 oneBlock = .ok (ptr, s₁) ∧
      s₁.kcacheGrow oneBlock = .ok s₂ ∧ s₂.nodes 3 = some node ∧ node.next = some 1 ∧
        s₂.nodes 1 = some node' ∧ node'.prev = none :=
    ⟨_, _, _, _, _, rfl, rfl, rfl, rfl, rfl, rfl⟩
  obtain ⟨ptr, s₁, s₂, node, node', ha, hg, hp, hn, hq, hprev⟩ := hs
  have run : Run.Steps LinkStep (fun _ _ => True) emptyCache s₂ :=
    .step (.step (.refl _) trivial (.alloc ha)) trivial (.grow hg)
  obtain ⟨l, hw⟩ := h emptyCache s₂ .empty run
  cases hprev.symm.trans (hw.back 3 node 1 node' hp hn hq)

end Example

end RoverOS.Kcache
