import RoverOS.Kheap.Theorems.Layout
import RoverOS.Kheap.Theorems.Sound

-- The blocks of the chain fill the chunks that the heap owns, from the first byte to the last.

open List (IsChain Perm)

namespace RoverOS.Kheap

open Extent (Apart Follows Begins Inside)

namespace Extent

-- A border is behind a block that ends where its chunk ends.
def Ends (a b : Extent) : Prop :=
  b.border = true → a.hi = a.chunk.snd

-- Behind the last block, another chunk would begin.
def beyond : Extent := ⟨0, 0, true, (0, 0)⟩

def size (e : Extent) : Nat :=
  e.hi - e.lo

end Extent

open Extent (beyond)

-- The chunk of the first block, and those that a border begins.
def starts : List Extent → List (Nat × Nat)
  | []      => []
  | e :: es => e.chunk :: (es.filter (·.border)).map (·.chunk)

structure Filled (owned : List (Nat × Nat)) (es : List Extent) : Prop where
  ends  : (es ++ [beyond]).IsChain Extent.Ends
  owned : owned.Perm (starts es)
  first : ∀ e ∈ es.head?, e.lo = e.chunk.fst

variable {owned : List (Nat × Nat)} {pre post es : List Extent} {a b e : Extent} {mid lo hi : Nat}

section Splice

theorem starts_splice {old new : List Extent} (hc : old.head?.map (·.chunk) = new.head?.map (·.chunk))
    (hh : old.head?.map (·.border) = new.head?.map (·.border))
    (ht : old.tail.filter (·.border) = []) (ht' : new.tail.filter (·.border) = []) :
    starts (pre ++ (new ++ post)) = starts (pre ++ (old ++ post)) := by
  cases old
  case nil =>
    cases new
    case nil       => rfl
    case cons n ns => cases hc
  case cons o os =>
    cases new
    case nil       => cases hc
    case cons n ns =>
      simp only [List.head?_cons, Option.map_some, Option.some.injEq] at hc hh
      simp only [List.tail_cons] at ht ht'
      cases pre
      case nil       => simp [starts, hc, ht, ht']
      case cons x xs =>
        simp only [starts, List.cons_append, List.filter_append, List.filter_cons, hh, ht, ht']
        split <;> simp [hc]

theorem Filled.first_splice (old new : List Extent) (h : Filled owned (pre ++ (old ++ post))) (ho : old ≠ [])
    (hn : ∀ e ∈ new.head?, ∀ o ∈ old.head?, o.lo = o.chunk.fst → e.lo = e.chunk.fst) (hne : new ≠ []) :
    ∀ e ∈ (pre ++ (new ++ post)).head?, e.lo = e.chunk.fst := by
  have hf := h.first
  cases pre
  case cons => exact hf
  case nil  =>
    have ⟨o, os, ho⟩ := List.exists_cons_of_ne_nil ho
    have ⟨n, ns, hnew⟩ := List.exists_cons_of_ne_nil hne
    subst ho hnew
    intro e he
    cases he
    exact hn n rfl o rfl (hf o rfl)

theorem Filled.split (h : Filled owned (pre ++ e :: post)) :
    Filled owned (pre ++ { e with hi := mid } :: ⟨mid, e.hi, false, e.chunk⟩ :: post) where
  ends  := by
    have hends := h.ends
    rw [List.append_assoc] at hends ⊢
    refine Splice.isChain [e] [_, _] hends ?_ (by simp) (by simp) ?_ ?_ <;>
      simp [Extent.Ends]
  owned := by
    have hst := @starts_splice pre post [e] [{ e with hi := mid }, ⟨mid, e.hi, false, e.chunk⟩] rfl rfl rfl rfl
    exact hst ▸ h.owned
  first := h.first_splice [e] [_, _] (by simp) (by simp) (by simp)

theorem Filled.merge (h : Filled owned (pre ++ a :: b :: post)) (hb : b.border = false)
    (hc : b.chunk = a.chunk) : Filled owned (pre ++ { a with hi := b.hi } :: post) where
  ends  := by
    have hends := h.ends
    rw [List.append_assoc] at hends ⊢
    refine Splice.isChain [a, b] [_] hends ?_ (by simp) (by simp) ?_ ?_ <;>
      simp [Extent.Ends, hc]
  owned := by
    have hst := @starts_splice pre post [a, b] [{ a with hi := b.hi }] rfl rfl (by simp [hb]) rfl
    exact hst ▸ h.owned
  first := h.first_splice [a, b] [_] (by simp) (by simp) (by simp)

theorem starts_mem {c : Nat × Nat} (h : c ∈ starts es) : ∃ e ∈ es, e.chunk = c := by
  cases es
  case nil => cases h
  case cons e es =>
    cases h
    case head => exact ⟨e, .head _, rfl⟩
    case tail h =>
      have ⟨x, hx, hc⟩ := List.mem_map.mp h
      exact ⟨x, .tail _ (List.mem_of_mem_filter hx), hc⟩

theorem Filled.drop (hl : Layout owned (pre ++ a :: b :: post)) (h : Filled owned (pre ++ a :: b :: post))
    (hb : b.border = true) (hp : ∀ c ∈ post.head?, c.border = true) :
    Filled (owned.filter (·.fst ≠ b.lo)) (pre ++ a :: post) where
  ends  := by
    have hends := h.ends
    simp only [List.append_assoc, List.cons_append] at hends ⊢
    have ⟨h₁, h₂, h₃⟩ := List.isChain_append.mp hends
    have ⟨hab, h₂⟩ := List.isChain_cons_cons.mp h₂
    refine List.isChain_append.mpr ⟨h₁, List.isChain_cons.mpr ⟨fun c hc _ => hab hb, h₂.tail⟩, h₃⟩
  owned := by
    have hne : ∀ x ∈ pre ++ a :: post, x.chunk.fst ≠ b.lo := by
      have hl' : Layout owned ((pre ++ [a]) ++ b :: post) := by simpa using hl
      simpa using hl'.ne_chunk hb hp
    have hlo : b.chunk.fst = b.lo := ((hl.inside b (by simp)).first hb).symm
    have hperm : Perm (starts (pre ++ a :: b :: post)) (b.chunk :: starts (pre ++ a :: post)) := by
      cases pre
      case nil => simpa [starts, List.filter_cons, hb] using .swap _ _ _
      case cons x xs =>
        simp only [starts, List.cons_append, List.filter_append, List.filter_cons, hb, if_true, List.map_append]
        refine (Perm.cons _ ?_).trans (.swap _ _ _)
        split
        case isTrue  =>
          simp only [List.map_cons]
          exact (Perm.append_left _ (.swap _ _ _)).trans List.perm_middle
        case isFalse => exact List.perm_middle
    have hself : (starts (pre ++ a :: post)).filter (fun c => decide (c.fst ≠ b.lo)) = starts (pre ++ a :: post) := by
      apply List.filter_eq_self.mpr
      intro c hc
      have ⟨x, hx, he⟩ := starts_mem hc
      exact decide_eq_true (he ▸ hne x hx)
    have hfilter := (h.owned.trans hperm).filter (fun c => decide (c.fst ≠ b.lo))
    rwa [List.filter_cons_of_neg (by simp [hlo]), hself] at hfilter
  first := by
    have hf := h.first
    cases pre <;> exact hf

theorem Filled.extend (h : Filled owned es) (hne : es ≠ []) :
    Filled ((lo, hi) :: owned) (es ++ [⟨lo, hi, true, (lo, hi)⟩]) where
  ends  := by
    rw [List.append_assoc]
    have ⟨h₁, _, h₂⟩ := List.isChain_append.mp h.ends
    refine List.isChain_append.mpr ⟨h₁, by simp [Extent.Ends], fun x hx y hy _ => ?_⟩
    exact h₂ x hx beyond rfl rfl
  owned := by
    have ⟨e, es', he⟩ := List.exists_cons_of_ne_nil hne
    subst he
    have hperm := (h.owned.cons (lo, hi)).trans (List.perm_append_singleton (lo, hi) _).symm
    simpa [starts] using hperm
  first := by
    have hf := h.first
    cases es
    case nil  => exact absurd rfl hne
    case cons => exact hf

end Splice

section Size

-- The blocks behind a block, and what is before it in its chunk, are the bytes of their chunks.
theorem sum_size (hi : ∀ x ∈ e :: es, Inside owned x) (hf : (e :: es).IsChain Follows)
    (he : (e :: es ++ [beyond]).IsChain Extent.Ends) :
    ((e :: es).map Extent.size).sum + e.lo = ((starts (e :: es)).map fun c => c.snd - c.fst).sum + e.chunk.fst := by
  induction es generalizing e
  case nil =>
    have hin := hi e (.head _)
    have hlo := hin.lo
    have hsize := hin.size
    have hend : e.hi = e.chunk.snd := (List.isChain_cons_cons.mp he).left rfl
    simp only [starts, Extent.size, List.map_cons, List.map_nil, List.filter_nil, List.sum_cons, List.sum_nil]
    omega
  case cons c es ih =>
    have hin := hi e (.head _)
    have hlo := hin.lo
    have hsize := hin.size
    have ⟨hec, hf⟩ := List.isChain_cons_cons.mp hf
    have ⟨hend, he⟩ := List.isChain_cons_cons.mp he
    have hsum := ih (fun x hx => hi x (.tail _ hx)) hf he
    have hinc := hi c (.tail _ (.head _))
    cases hcb : c.border
    case false =>
      have ⟨hclo, hch⟩ := hec hcb
      simp only [starts, Extent.size, List.map_cons, List.sum_cons, List.filter_cons, hcb, hch] at hsum ⊢
      simp only [Bool.false_eq_true, if_false]
      omega
    case true =>
      have hfirst := hinc.first hcb
      have hehi := hend hcb
      simp only [starts, Extent.size, List.map_cons, List.sum_cons, List.filter_cons, hcb, if_true] at hsum ⊢
      omega

theorem Filled.sum_size (h : Filled owned es) (hl : Layout owned es) :
    (es.map Extent.size).sum = (owned.map fun c => c.snd - c.fst).sum := by
  rw [(h.owned.map _).sum_eq]
  cases es
  case nil => rfl
  case cons e es =>
    have hsum := Kheap.sum_size hl.inside hl.follows h.ends
    have hfirst := h.first e rfl
    omega

end Size

-- No byte of the heap is lost: in every run the blocks are the bytes of the chunks, and when all is freed the
-- heap is as it was at first.

open Bytes (Memory load store)
open List (Perm)

-- The blocks fill the chunks, and the first of them, of which nothing is allocated, begins `chunk`.
structure Whole (chunk : Nat × Nat) (s : State) (bs : List Block) : Prop where
  holds  : Holds s bs
  filled : Filled s.owned (bs.map Block.extent)
  first  : ∀ b ∈ bs.head?, b.chunk = chunk ∧ b.allocated = 0

variable {memcpy : Memory → Nat → Nat → Nat → Memory} {s s' : State} {bs bs' pre post : List Block} {a b : Block}
variable {op : Op} {h : Kheap} {owned owned' : List (Nat × Nat)} {chunk₀ : Nat × Nat} {sz chunk ptr fuel : Nat}

section Step

theorem Placed.filled (hp : Placed sz chunk owned bs owned' bs' ptr) (hf : Filled owned (bs.map Block.extent))
    (hne : bs ≠ []) (hfit : sz + 40 ≤ extendSize (sz + 40)) : Filled owned' (bs'.map Block.extent) := by
  cases hp
  case split pre post b hbs _ hb =>
    have hrest : (b.rest sz).extent = ⟨b.used, b.fin, false, b.chunk⟩ :=
      congrArg (fun x => (⟨b.used, x, false, b.chunk⟩ : Extent)) (b.rest_fin hb)
    have he : Block.extent { b with free := 0 } = { b.extent with hi := b.used } := rfl
    rw [hbs, List.map_append, List.map_cons] at hf
    rw [List.map_append, List.map_cons, List.map_cons, hrest, he]
    exact hf.split
  case extend =>
    have he : (Block.ofChunk chunk sz).extent = ⟨chunk, chunk + extendSize (sz + 40), true,
        (chunk, chunk + extendSize (sz + 40))⟩ :=
      congrArg (fun x => (⟨chunk, x, true, (chunk, chunk + extendSize (sz + 40))⟩ : Extent)) (Block.ofChunk_fin hfit)
    rw [List.map_append, List.map_singleton, he]
    exact hf.extend (by simpa using hne)

theorem Placed.first (hp : Placed sz chunk owned bs owned' bs' ptr)
    (hf : ∀ b ∈ bs.head?, b.chunk = chunk₀ ∧ b.allocated = 0) (hne : bs ≠ []) :
    ∀ b ∈ bs'.head?, b.chunk = chunk₀ ∧ b.allocated = 0 := by
  cases hp
  case split pre post b hbs _ _ =>
    subst hbs
    cases pre
    case cons => exact hf
    case nil  =>
      intro x hx
      cases hx
      exact hf b rfl
  case extend =>
    have ⟨b, bs, he⟩ := List.exists_cons_of_ne_nil hne
    subst he
    exact hf

theorem Chain.freed_filled (hc : Chain h owned (pre ++ a :: b :: post))
    (hf : Filled owned ((pre ++ a :: b :: post).map Block.extent))
    (hb : b.border = true → ∀ c ∈ post.head?, c.border = true) :
    Filled (b.leaves owned) ((pre ++ a.freed b :: post).map Block.extent) := by
  have hl := hc.layout
  rw [Block.leaves, Block.freed]
  rw [List.map_append, List.map_cons, List.map_cons] at hl hf
  rw [List.map_append, List.map_cons]
  cases hbb : b.border
  case true =>
    refine Filled.drop hl hf hbb fun c hm => ?_
    rw [List.head?_map] at hm
    obtain ⟨x, hx, he⟩ := Option.map_eq_some_iff.mp hm
    exact he ▸ hb hbb x hx
  case false =>
    obtain ⟨haddr, hch⟩ := hc.follows hbb
    have hfin : Block.fin { a with free := a.free + (32 + b.allocated + b.free + 8) } = b.fin := by
      simp only [Block.fin, Block.used] at haddr ⊢
      omega
    have he : Block.extent { a with free := a.free + (32 + b.allocated + b.free + 8) } =
        { a.extent with hi := b.extent.hi } :=
      congrArg (fun x => (⟨a.addr, x, a.border, a.chunk⟩ : Extent)) hfin
    simp only [Bool.false_eq_true, if_false, he]
    exact hf.merge hbb hch

theorem freed_first (hf : ∀ x ∈ (pre ++ a :: b :: post).head?, x.chunk = chunk₀ ∧ x.allocated = 0) :
    ∀ x ∈ (pre ++ a.freed b :: post).head?, x.chunk = chunk₀ ∧ x.allocated = 0 := by
  cases pre
  case cons => exact hf
  case nil  =>
    intro x hx
    cases hx
    have ha := hf a rfl
    rw [Block.freed]
    split <;> exact ha

theorem Whole.kfree (w : Whole chunk₀ s (pre ++ a :: b :: post)) (hgo : AloneInChunk s.heap.mem b.addr)
    (hr : (Op.kfree (b.addr + 32)).run memcpy fuel s = .ok s') : Whole chunk₀ s' (pre ++ a.freed b :: post) := by
  have happ : pre ++ a :: b :: post = (pre ++ [a]) ++ b :: post := by simp
  have hpost := (happ ▸ w.holds.chain).aloneInChunk_iff.mp hgo
  have ⟨s₁, hr₁, ho, hs₁⟩ : ∃ s', (Op.kfree (b.addr + 32)).run memcpy fuel s = .ok s' ∧
      s'.owned = b.leaves s.owned ∧ Holds s' (pre ++ a.freed b :: post) := w.holds.kfree hgo
  cases hr.symm.trans hr₁
  refine ⟨hs₁, ?_, freed_first w.first⟩
  rw [ho]
  exact w.holds.chain.freed_filled w.filled hpost

theorem Whole.step (w : Whole chunk₀ s bs) (hm : WritesInside memcpy) (ha : Allowed AloneInChunk s op)
    (hr : op.run memcpy fuel s = .ok s') : ∃ bs', Whole chunk₀ s' bs' := by
  cases op
  case kmalloc sz chunk =>
    have ⟨hsz, hf⟩ := ha
    cases Nat.eq_zero_or_pos sz
    case inl h0 =>
      subst h0
      exact ⟨bs, run_kmalloc_zero hr ▸ w⟩
    case inr hpos =>
      have ⟨bs', _, hp, _, hs'⟩ := w.holds.kmalloc hsz hf hpos hr
      have hne := w.holds.chain.ne
      exact ⟨bs', hs', hp.filled w.filled hne (le_extendSize hsz), hp.first w.first hne⟩
  case krealloc ptr sz chunk =>
    have ⟨hp, hsz, hf, hgo⟩ := ha
    have ⟨pre, a, b, post, hbs, hptr⟩ := w.holds.exists_block hp
    subst hbs hptr
    have happ : pre ++ a :: b :: post = (pre ++ [a]) ++ b :: post := by simp
    have hb := (happ ▸ w.holds.chain).seg.at
    rw [lastAddr_concat] at hb
    rw [blockFromPtr_data, hb.allocated, hb.free] at hgo
    cases Nat.lt_or_ge (b.allocated + b.free) sz
    case inl hlt =>
      have ⟨r, hk⟩ := kmallocInt_of_run hb hlt (w.holds.chain.size_lt (by simp)) hr
      have ⟨s₁, owned', pre', a', b', post', hr₁, hplaced, ⟨h₁, hc₁⟩, hpost, ho, hs₁⟩ :=
        w.holds.moved_blocks hm hsz hf hlt (hgo hlt) hk
      cases hr.symm.trans hr₁
      have hne := w.holds.chain.ne
      refine ⟨_, hs₁, ?_, freed_first (hplaced.first w.first hne)⟩
      rw [ho]
      exact hc₁.freed_filled (hplaced.filled w.filled hne (le_extendSize hsz)) hpost
    case inr hle =>
      have ⟨s₁, hr₁, ho, hs₁⟩ : ∃ s', (∀ fuel, (Op.krealloc (b.addr + 32) sz chunk).run memcpy fuel s = .ok s') ∧
          s'.owned = s.owned ∧ Holds s' (pre ++ a :: b.resized sz :: post) := w.holds.krealloc_kept hle
      cases hr.symm.trans (hr₁ fuel)
      have hex : (pre ++ a :: b.resized sz :: post).map Block.extent = (pre ++ a :: b :: post).map Block.extent := by
        simp only [List.map_append, List.map_cons, Block.resized_extent hle]
      refine ⟨_, hs₁, ?_, ?_⟩
      · rw [ho, hex]
        exact w.filled
      · have hfirst := w.first
        cases pre <;> exact hfirst
  case kfree ptr =>
    have ⟨hp, hgo⟩ := ha
    have ⟨pre, a, b, post, hbs, hptr⟩ := w.holds.exists_block hp
    subst hbs hptr
    rw [blockFromPtr_data] at hgo
    exact ⟨_, w.kfree hgo hr⟩
  case write addr v =>
    cases hr
    exact ⟨bs, w.holds.write ha, w.filled, w.first⟩

end Step

section Runs

variable {heapStart size : Nat} {m : Memory}

theorem whole_initial (hpos : 0 < heapStart) (hmin : 40 ≤ size) (hmax : size < 2 ^ 32)
    (hend : heapStart + size ≤ 2 ^ 64) :
    Whole (heapStart, heapStart + size) (initial heapStart size m) [firstBlock heapStart size] := by
  have hfin : (firstBlock heapStart size).fin = heapStart + size := by
    simp only [firstBlock, Block.fin, Block.used]
    omega
  refine ⟨holds_initial hpos hmin hmax hend, ⟨?ends, .refl _, ?first⟩, ?head⟩
  case ends  => exact List.isChain_cons_cons.mpr ⟨fun _ => hfin, .singleton _⟩
  case first =>
    intro e he
    cases he
    rfl
  case head =>
    intro b hb
    cases hb
    exact ⟨rfl, rfl⟩

theorem whole_of_steps (hm : WritesInside memcpy) (hpos : 0 < heapStart) (hmin : 40 ≤ size) (hmax : size < 2 ^ 32)
    (hend : heapStart + size ≤ 2 ^ 64)
    (run : Run.Steps (Step memcpy) (Allowed AloneInChunk) (initial heapStart size m) s) :
    ∃ bs, Whole (heapStart, heapStart + size) s bs := by
  refine run.invariant (I := fun s => ∃ bs, Whole _ s bs) ⟨_, whole_initial hpos hmin hmax hend⟩ ?_
  intro s op s' ⟨bs, w⟩ ha ⟨fuel, hr⟩
  exact w.step hm ha hr

-- The bytes of a block, with its header and its redzone, as the memory says.
def blockBytes (m : Memory) (b : Nat) : Nat :=
  40 + allocated m b + free m b

theorem Header.blockBytes {p n : Nat} (hh : Header s.heap.mem b p n) :
    blockBytes s.heap.mem b.addr = b.extent.size := by
  rw [Kheap.blockBytes, hh.allocated, hh.free, Extent.size]
  simp only [Block.extent, Block.fin, Block.used]
  omega

theorem sum_blocks : (bs.map fun b => 40 + b.allocated + b.free).sum =
    (bs.map Block.free).sum + (bs.map Block.allocated).sum + 40 * bs.length := by
  induction bs
  case nil => rfl
  case cons b bs hi =>
    simp only [List.map_cons, List.sum_cons, List.length_cons, hi]
    omega

-- The blocks that the heap gets to are one more than the live pointers, and are together the bytes of the
-- chunks. So what is not live, header or redzone is free.
theorem heap_conserved (hm : WritesInside memcpy) (hpos : 0 < heapStart) (hmin : 40 ≤ size) (hmax : size < 2 ^ 32)
    (hend : heapStart + size ≤ 2 ^ 64)
    (run : Run.Steps (Step memcpy) (Allowed AloneInChunk) (initial heapStart size m) s) :
    ∃ blocks : List Nat, blocks.Nodup ∧ (∀ b, b ∈ blocks ↔ Reaches s.heap b) ∧
      (blocks.map (blockBytes s.heap.mem)).sum = (s.owned.map fun c => c.snd - c.fst).sum ∧
      (blocks.map (free s.heap.mem)).sum + (s.live.map Prod.snd).sum + 40 * (s.live.length + 1) =
        (s.owned.map fun c => c.snd - c.fst).sum := by
  have ⟨bs, w⟩ := whole_of_steps hm hpos hmin hmax hend run
  have hc := w.holds.chain
  have hsize : bs.map (fun b => blockBytes s.heap.mem b.addr) = (bs.map Block.extent).map Extent.size := by
    rw [List.map_map]
    refine List.map_congr_left fun b hb => ?_
    have ⟨p, n, hh⟩ := hc.seg.header hb
    exact hh.blockBytes
  have hsum : (bs.map fun b => blockBytes s.heap.mem b.addr).sum = (s.owned.map fun c => c.snd - c.fst).sum := by
    rw [hsize, w.filled.sum_size hc.layout]
  refine ⟨bs.map Block.addr, hc.addr_nodup, fun b => ?_, ?_, ?_⟩
  · rw [hc.reaches_iff, List.mem_map]
  · rw [List.map_map]
    exact hsum
  · rw [← hsum, List.map_map, (w.holds.live.map Prod.snd).sum_eq, w.holds.live.length_eq]
    have hbytes : bs.map (fun b => blockBytes s.heap.mem b.addr) = bs.map fun b => 40 + b.allocated + b.free := by
      refine List.map_congr_left fun b hb => ?_
      have ⟨p, n, hh⟩ := hc.seg.header hb
      rw [blockBytes, hh.allocated, hh.free]
    have hfree : bs.map (free s.heap.mem ∘ Block.addr) = bs.map Block.free := by
      refine List.map_congr_left fun b hb => ?_
      have ⟨p, n, hh⟩ := hc.seg.header hb
      exact hh.free
    rw [hbytes, hfree, sum_blocks]
    have ⟨b, bs', he⟩ := List.exists_cons_of_ne_nil hc.ne
    subst he
    have hfirst := (w.first b rfl).right
    simp only [List.tail_cons, List.map_map, List.map_cons, List.sum_cons, List.length_map, List.length_cons, hfirst]
    have hdata : bs'.map (Prod.snd ∘ Block.data) = bs'.map Block.allocated := rfl
    rw [hdata]
    omega

-- When all has been freed, in whatever order, the heap is as it was at first.
theorem freed_heap_is_new (hm : WritesInside memcpy) (hpos : 0 < heapStart) (hmin : 40 ≤ size) (hmax : size < 2 ^ 32)
    (hend : heapStart + size ≤ 2 ^ 64)
    (run : Run.Steps (Step memcpy) (Allowed AloneInChunk) (initial heapStart size m) s) (hl : s.live = []) :
    s.heap.startBlock = heapStart ∧ s.owned = [(heapStart, heapStart + size)] ∧
      Header s.heap.mem (firstBlock heapStart size) 0 0 := by
  have ⟨bs, w⟩ := whole_of_steps hm hpos hmin hmax hend run
  have hc := w.holds.chain
  have ⟨b, bs', he⟩ := List.exists_cons_of_ne_nil hc.ne
  subst he
  have hnil : bs' = [] := by
    have hlen := w.holds.live.length_eq
    rw [hl] at hlen
    exact List.map_eq_nil_iff.mp (List.length_eq_zero_iff.mp hlen.symm)
  subst hnil
  have ⟨hch, hall⟩ := w.first b rfl
  have hlo : b.addr = b.chunk.fst := w.filled.first _ rfl
  have hhi : b.fin = b.chunk.snd := (List.isChain_cons_cons.mp w.filled.ends).left rfl
  have hb : b = firstBlock heapStart size := by
    have hborder := hc.border b rfl
    cases b
    simp only [Block.fin, Block.used] at hch hall hlo hhi hborder
    subst hch hall hlo hborder
    simp only [firstBlock, Block.mk.injEq, true_and, and_true]
    omega
  subst hb
  exact ⟨hc.start.symm, List.perm_singleton.mp w.filled.owned, hc.seg.left⟩

end Runs

section Example

theorem heap_conserved_kmalloc : ∃ (s₃ s₄ s₅ s : State) (blocks : List Nat),
    s₃.live = [(0x1000c0, 8), (0x100080, 24), (0x100048, 16)] ∧
      Step memcpyAt s₃ (.krealloc 0x100080 16 0x200000) s₄ ∧ Step memcpyAt s₄ (.kfree 0x1000c0) s₅ ∧
      allocated s₅.heap.mem 0x100028 + free s₅.heap.mem 0x100028 < 64 ∧
      Step memcpyAt s₅ (.krealloc 0x100048 64 0x200000) s ∧ (∀ b, b ∈ blocks ↔ Reaches s.heap b) ∧
      (blocks.map (blockBytes s.heap.mem)).sum = (s.owned.map fun c => c.snd - c.fst).sum := by
  have ⟨s₃, s₄, s₅, s, run, hlive, h₄, h₅, hsmall, h⟩ := exists_calls fun _ _ => NotBorder.aloneInChunk
  have ⟨blocks, _, hb, hsum, _⟩ := heap_conserved memcpyAt_writesInside (by decide) (by decide) (by decide)
    (by decide) run
  exact ⟨s₃, s₄, s₅, s, blocks, hlive, h₄, h₅, hsmall, h, hb, hsum⟩

-- A block is allocated and freed.
theorem freed_heap_is_new_kfree : ∃ s₁ s : State, s₁.live ≠ [] ∧ Step memcpyAt (initial 0x100000 0x4000 fun _ => 0)
    (.kmalloc 16 0x200000) s₁ ∧ (∃ ptr, Step memcpyAt s₁ (.kfree ptr) s) ∧
    Header s.heap.mem (firstBlock 0x100000 0x4000) 0 0 := by
  have hs : Holds (initial 0x100000 0x4000 fun _ => 0) [firstBlock 0x100000 0x4000] :=
    holds_initial (by decide) (by decide) (by decide) (by decide)
  have hf : Fresh [(0x100000, 0x104000)] 0x200000 (extendSize (16 + 40)) := fresh_firstChunk (by decide)
  have ⟨fuel, s₁, hr⟩ : ∃ fuel s', (Op.kmalloc 16 0x200000).run memcpyAt fuel
      (initial 0x100000 0x4000 fun _ => 0) = .ok s' := hs.kmalloc_ok (by decide) hf
  have ⟨bs, ptr, hp, hl, hs₁⟩ := hs.kmalloc (by decide) hf (by decide) hr
  have hlive : s₁.live = [(ptr, 16)] := hl
  have ha : Allowed AloneInChunk s₁ (.kfree ptr) := by
    have hmem : ptr ∈ s₁.live.map Prod.fst := by
      rw [hlive]
      exact .head _
    refine ⟨hmem, ?_⟩
    have ⟨pre, a, b, post, hbs, hptr⟩ := hs₁.exists_block hmem
    have happ : pre ++ a :: b :: post = (pre ++ [a]) ++ b :: post := by simp
    subst hbs
    have hc : Chain s₁.heap s₁.owned ((pre ++ [a]) ++ b :: post) := happ ▸ hs₁.chain
    rw [hptr, blockFromPtr_data, hc.aloneInChunk_iff]
    have hpost : post = [] := by
      have hlen := hs₁.live.length_eq
      simp only [hlive, List.length_map, List.length_tail, List.length_append, List.length_cons, List.length_nil] at hlen
      exact List.length_eq_zero_iff.mp (by omega)
    rw [hpost]
    exact fun _ _ hc => nomatch hc
  have ⟨⟨fuel', s, hr'⟩, _⟩ := hs₁.step memcpyAt_writesInside ha
  have hnil : s.live = [] := by
    have ⟨h', _, he⟩ := Except.bind_ok_iff.mp hr'
    cases he
    simp [hlive]
  have run : Run.Steps (Step memcpyAt) (Allowed AloneInChunk) (initial 0x100000 0x4000 fun _ => 0) s :=
    .step (.step (.refl _) (l := Op.kmalloc 16 0x200000) ⟨by decide, hf⟩ ⟨fuel, hr⟩) (l := .kfree ptr) ha ⟨fuel', hr'⟩
  have ⟨_, _, hh⟩ := freed_heap_is_new memcpyAt_writesInside (by decide) (by decide) (by decide) (by decide) run hnil
  exact ⟨s₁, s, hl ▸ List.cons_ne_nil _ _, ⟨fuel, hr⟩, ⟨ptr, fuel', hr'⟩, hh⟩

end Example

end RoverOS.Kheap
