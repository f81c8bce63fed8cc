import RoverOS.Kheap.Theorems.Krealloc
import RoverOS.Library.Run

-- What the callers hold is the data of the blocks behind the first one, in every reachable state.

open Bytes (Memory)
open List (Perm)

namespace RoverOS.Kheap

-- The pointer that callers get, and the size.
def Block.data (b : Block) : Nat × Nat := (b.addr + 32, b.allocated)

structure Holds (s : State) (bs : List Block) : Prop where
  chain : Chain s.heap s.owned bs
  live  : s.live.Perm (bs.tail.map Block.data)

variable {h : Kheap} {m : Memory} {s s' : State} {owned owned' : List (Nat × Nat)}
  {bs bs' pre post : List Block} {a b c : Block} {n sz ptr chunk : Nat}

section Data

theorem data_insert (b : Block) : Perm ((pre ++ a :: b :: post).tail.map Block.data)
    (b.data :: (pre ++ a :: post).tail.map Block.data) := by
  cases pre
  case nil => exact .refl _
  case cons c pre =>
    have happ : pre ++ a :: b :: post = (pre ++ [a]) ++ b :: post := by simp
    have happ' : pre ++ a :: post = (pre ++ [a]) ++ post := by simp
    simp only [List.cons_append, List.tail_cons]
    rw [happ, happ']
    exact List.perm_middle.map _

theorem data_congr (ha : a.data = b.data) :
    (pre ++ a :: post).tail.map Block.data = (pre ++ b :: post).tail.map Block.data := by
  cases pre
  case nil  => rfl
  case cons => simp [ha]

theorem Chain.addr_nodup (hc : Chain h owned bs) : (bs.map Block.addr).Nodup :=
  List.pairwise_map.mpr (hc.apart.imp Extent.Apart.addr_ne)

theorem Chain.data_nodup (hc : Chain h owned bs) : ((bs.tail.map Block.data).map Prod.fst).Nodup := by
  have hd : (bs.tail.map Block.data).map Prod.fst = (bs.map Block.addr).tail.map (· + 32) := by
    rw [List.map_map, ← List.map_tail, List.map_map]
    rfl
  rw [hd]
  have hn := hc.addr_nodup.sublist (List.tail_sublist _)
  exact List.Pairwise.map (· + 32) (fun _ _ hne he => hne (Nat.add_right_cancel he)) hn

-- A block other than the first one has a block before it.
theorem exists_before (hb : b ∈ bs.tail) : ∃ pre a post, bs = pre ++ a :: b :: post := by
  cases bs
  case nil => cases hb
  case cons c bs =>
    have ⟨pre, post, hp⟩ := List.append_of_mem hb
    simp only [List.tail_cons] at hp
    subst hp
    cases pre using List.reverseRecOn
    case nil                      => exact ⟨[], c, post, rfl⟩
    case append_singleton pre x _ => exact ⟨c :: pre, x, post, by simp⟩

theorem Holds.exists_block (hs : Holds s bs) (hp : ptr ∈ s.live.map Prod.fst) :
    ∃ pre a b post, bs = pre ++ a :: b :: post ∧ ptr = b.addr + 32 := by
  have ⟨x, hx, he⟩ := List.mem_map.mp hp
  have ⟨b, hb, hd⟩ := List.mem_map.mp (hs.live.subset hx)
  have ⟨pre, a, post, hbs⟩ := exists_before hb
  exact ⟨pre, a, b, post, hbs, by rw [← he, ← hd]; rfl⟩

-- What is left when the block is not live any more.
theorem Holds.live_filter (hs : Holds s (pre ++ a :: b :: post)) :
    (s.live.filter (·.fst ≠ b.addr + 32)).Perm ((pre ++ a :: post).tail.map Block.data) := by
  have hn := hs.chain.data_nodup
  have hp : Perm _ (b.data :: (pre ++ a :: post).tail.map Block.data) := data_insert b
  have hn' := (hp.map Prod.fst).nodup_iff.mp hn
  have hnot := (List.nodup_cons.mp hn').left
  refine ((hs.live.trans hp).filter _).trans ?_
  rw [List.filter_cons_of_neg (by simp [Block.data]), List.filter_eq_self.mpr]
  intro x hx
  refine decide_eq_true fun he => hnot ?_
  have hm := List.mem_map_of_mem (f := Prod.fst) hx
  rw [he] at hm
  exact hm

end Data

section Placed

variable (hp : Placed sz chunk owned bs owned' bs' ptr)
include hp

theorem Placed.data (hne : bs ≠ []) :
    Perm (bs'.tail.map Block.data) ((ptr, sz) :: bs.tail.map Block.data) := by
  cases hp
  case split pre post b hbs _ _ =>
    have hd : Block.data { b with free := 0 } = b.data := rfl
    rw [hbs, ← data_congr hd]
    exact data_insert (b.rest sz)
  case extend =>
    have ⟨b, bs, he⟩ := List.exists_cons_of_ne_nil hne
    rw [he]
    simp only [List.cons_append, List.tail_cons, List.map_append, List.map_singleton]
    exact List.perm_append_singleton _ _

theorem Placed.grow_eq (hc : Chain h owned bs)
    (hf : Fresh owned chunk (extendSize (sz + 40))) : owned' = grow owned sz chunk ptr := by
  cases hp
  case split pre post b hbs _ hb =>
    have hin := hc.inside (b := b) (by simp [hbs])
    have ha := hf.apart _ hin.owned
    have hl : b.chunk.fst ≤ b.addr := hin.lo
    have hh : b.fin ≤ b.chunk.snd := hin.hi
    have hfu : b.used + b.free = b.fin := rfl
    have hu := b.addr_lt_used
    rw [grow, if_neg]
    rw [blockDataPtr, kheapBlockDataSz]
    simp only [Block.extent] at ha
    omega
  case extend => exact (if_pos rfl).symm

-- The blocks that were there are there, one of them with less free bytes.
theorem Placed.keeps (hb : b ∈ bs) : ∃ n, { b with free := n } ∈ bs' := by
  cases hp
  case split pre post c hbs _ _ =>
    rw [hbs] at hb
    cases List.mem_append.mp hb
    case inl hb => exact ⟨b.free, List.mem_append_left _ hb⟩
    case inr hb =>
      cases hb
      case head    => exact ⟨0, by simp⟩
      case tail hb => exact ⟨b.free, List.mem_append_right _ (.tail _ (.tail _ hb))⟩
  case extend => exact ⟨b.free, List.mem_append_left _ hb⟩

end Placed

section Kmalloc

variable {memcpy : Memory → Nat → Nat → Nat → Memory} {fuel : Nat}

theorem Placed.pos (hp : Placed sz chunk owned bs owned' bs' ptr) : ptr ≠ 0 := by
  cases hp <;> exact Nat.succ_ne_zero _

theorem run_kmalloc_zero (h : (Op.kmalloc 0 chunk).run memcpy fuel s = .ok s') :
    s' = s := by
  cases h
  rfl

theorem run_kmalloc {r : Nat × Kheap} (hr : r.fst ≠ 0)
    (hk : kmallocInt (fun _ => chunk) fuel sz false s.heap = .ok r) :
    (Op.kmalloc sz chunk).run memcpy fuel s =
      .ok ⟨r.snd, (r.fst, sz) :: s.live, grow s.owned sz chunk r.fst⟩ := by
  simp only [Op.run, hk, bind, Except.bind, if_neg hr, pure, Except.pure]

variable (hs : Holds s bs) (hsz : sz < 2 ^ 31) (hf : Fresh s.owned chunk (extendSize (sz + 40)))
include hs hsz hf

theorem Holds.kmalloc (hpos : 0 < sz) (h : (Op.kmalloc sz chunk).run memcpy fuel s = .ok s') :
    ∃ bs' ptr, Placed sz chunk s.owned bs s'.owned bs' ptr ∧ s'.live = (ptr, sz) :: s.live ∧
      Holds s' bs' := by
  have h' := h
  rw [Op.run] at h'
  have ⟨⟨ptr, h₁⟩, hk, _⟩ := Except.bind_ok_iff.mp h'
  have ⟨owned', bs', hp, hc⟩ := hs.chain.kmallocInt_spec hpos hsz hf rfl hk
  have he := hp.grow_eq hs.chain hf
  rw [run_kmalloc hp.pos hk] at h
  cases h
  refine ⟨bs', ptr, he ▸ hp, rfl, he ▸ hc, ?_⟩
  exact (hs.live.cons _).trans (hp.data hs.chain.ne).symm

theorem Holds.kmalloc_ok : ∃ fuel s', (Op.kmalloc sz chunk).run memcpy fuel s = .ok s' := by
  cases Nat.eq_zero_or_pos sz
  case inl h0 =>
    subst h0
    exact ⟨0, s, rfl⟩
  case inr hpos =>
    have ⟨r, hk⟩ : ∃ r, kmallocInt (fun _ => chunk) bs.length sz false s.heap = .ok r :=
      hs.chain.kmallocInt_ok hpos hsz hf rfl
    have ⟨_, _, hp, _⟩ := hs.chain.kmallocInt_spec hpos hsz hf rfl hk
    exact ⟨_, _, run_kmalloc (r := r) hp.pos hk⟩

end Kmalloc

section Kfree

-- What the memory says about the block behind.
theorem Chain.aloneInChunk_iff (hc : Chain h owned (pre ++ b :: post)) :
    AloneInChunk h.mem b.addr ↔ (b.border = true → ∀ c ∈ post.head?, c.border = true) := by
  have hb := hc.seg.at
  rw [AloneInChunk, hb.border, hb.next]
  cases post
  case nil => simp [firstAddr]
  case cons c post =>
    have happ : pre ++ b :: c :: post = (pre ++ [b]) ++ c :: post := by simp
    have hpos := hc.addr_pos (b := c) (by simp)
    rw [happ] at hc
    rw [firstAddr, hc.seg.at.border]
    simp [Nat.ne_of_gt hpos]

theorem shrink_eq (hb : Header m b a.addr n) : shrink m owned (b.addr + 32) = b.leaves owned := by
  have hp : blockFromPtr (b.addr + 32) = b.addr := Nat.add_sub_cancel ..
  rw [shrink, hp, hb.border, Block.leaves]

theorem run_kfree {memcpy : Memory → Nat → Nat → Nat → Memory} {fuel : Nat} {h' : Kheap}
    (hk : kfreeInt ptr s.heap = .ok h') : (Op.kfree ptr).run memcpy fuel s =
      .ok ⟨h', s.live.filter (·.fst ≠ ptr), shrink s.heap.mem s.owned ptr⟩ := by
  simp only [Op.run, hk, bind, Except.bind, pure, Except.pure]

theorem Holds.kfree {memcpy : Memory → Nat → Nat → Nat → Memory} {fuel : Nat}
    (hs : Holds s (pre ++ a :: b :: post)) (ha : AloneInChunk s.heap.mem b.addr) :
    ∃ s', (Op.kfree (b.addr + 32)).run memcpy fuel s = .ok s' ∧ s'.owned = b.leaves s.owned ∧
      Holds s' (pre ++ a.freed b :: post) := by
  have happ : pre ++ a :: b :: post = (pre ++ [a]) ++ b :: post := by simp
  have hc := hs.chain
  have hf : (a.freed b).data = a.data := by rw [Block.data, Block.freed_addr, Block.freed_allocated]; rfl
  have hsh : shrink s.heap.mem s.owned (b.addr + 32) = b.leaves s.owned := by
    have hb := (happ ▸ hc.seg).at
    rw [lastAddr_concat] at hb
    exact shrink_eq hb
  have hb := (happ ▸ hc).aloneInChunk_iff.mp ha
  have ⟨h', hk, hc'⟩ := hc.kfreeInt_spec hb
  refine ⟨_, run_kfree hk, hsh, hsh ▸ hc', ?_⟩
  rw [data_congr hf]
  exact hs.live_filter

end Kfree

section Ends

-- Behind the block at `x`, another chunk begins.
def Ends (x : Nat) (bs : List Block) : Prop :=
  bs.IsChain fun c d => c.addr = x → d.border = true

theorem ends_of_ne {x : Nat} (hn : ∀ c ∈ bs, c.addr ≠ x) : Ends x bs := by
  refine List.Pairwise.isChain (List.pairwise_of_forall_mem_list fun c hc d _ he => ?_)
  exact absurd he (hn c hc)

theorem Chain.ends_iff (hc : Chain h owned (pre ++ b :: post)) :
    Ends b.addr (pre ++ b :: post) ↔ ∀ c ∈ post.head?, c.border = true := by
  have hpre : ∀ c ∈ pre, c.addr ≠ b.addr := fun c hm => (hc.apart_before hm).addr_ne
  have hpost : ∀ c ∈ post, c.addr ≠ b.addr := fun c hm => (hc.apart_behind hm).addr_ne.symm
  constructor
  case mp =>
    intro he c hm
    have ⟨_, hb, _⟩ := List.isChain_append.mp he
    exact (List.isChain_cons.mp hb).left c hm rfl
  case mpr =>
    intro hh
    have hb : (b :: post).IsChain fun c d => c.addr = b.addr → d.border = true :=
      List.isChain_cons.mpr ⟨fun c hm _ => hh c hm, ends_of_ne hpost⟩
    refine List.isChain_append.mpr ⟨ends_of_ne hpre, hb, fun c hm d _ he => ?_⟩
    exact absurd he (hpre c (List.mem_of_getLast? hm))

theorem Placed.ends {x : Nat} (hp : Placed sz chunk owned bs owned' bs' ptr) (hc : Chain h owned bs)
    (hb : b ∈ bs) (hx : b.addr = x) (hsm : b.free < sz + 40) (he : Ends x bs) : Ends x bs' := by
  cases hp
  case split pre post c hbs _ hcf =>
    subst hbs
    have hne : c ≠ b := by
      rintro rfl
      omega
    have hbc : c.extent.Apart b.extent := by
      cases List.mem_append.mp hb
      case inl hb => exact (hc.apart_before hb).symm
      case inr hb =>
        cases hb
        case head    => exact absurd rfl hne
        case tail hb => exact hc.apart_behind hb
    have hr : (c.rest sz).addr ≠ x := by
      have hu := c.addr_lt_used
      have hfu : c.used + c.free = c.fin := rfl
      have hfb := b.used_le_fin
      have hub := b.addr_lt_used
      simp only [Extent.Apart, Block.extent] at hbc
      simp only [Block.rest]
      omega
    refine Splice.isChain [c] [_, _] he ?_ (by simp) (by simp) ?_ ?_
    · exact List.isChain_cons_cons.mpr ⟨fun hcx => absurd (hcx.trans hx.symm) hbc.addr_ne, .singleton _⟩
    · intro y hy d hd
      cases hd
      exact hy c rfl
    · intro y _ d hd
      cases hd
      exact fun he => absurd he hr
  case extend =>
    refine List.IsChain.append he (.singleton _) fun c _ d hd _ => ?_
    cases hd
    rfl

end Ends

section Krealloc

variable {memcpy : Memory → Nat → Nat → Nat → Memory} {fuel : Nat}

-- The three ways through `krealloc`.
theorem krealloc_same {vmalloc : Nat → Nat} {p : Nat} (hb : Header h.mem b p n) :
    krealloc memcpy vmalloc fuel (b.addr + 32) b.allocated h = .ok (b.addr + 32, h) := by
  have hp : blockFromPtr (b.addr + 32) = b.addr := Nat.add_sub_cancel ..
  simp only [krealloc, hp, hb.checks.left, hb.checks.right, hb.allocated, bind, Except.bind, if_true]
  rfl

theorem krealloc_resize {vmalloc : Nat → Nat} {p : Nat} (hb : Header h.mem b p n) (hne : b.allocated ≠ sz)
    (hl : b.allocated + b.free < 2 ^ 32) (hsz : sz ≤ b.allocated + b.free) :
    krealloc memcpy vmalloc fuel (b.addr + 32) sz h =
      .ok (b.addr + 32, { h with mem := resize h.mem b.addr sz }) := by
  have hp : blockFromPtr (b.addr + 32) = b.addr := Nat.add_sub_cancel ..
  simp only [krealloc, hp, hb.checks.left, hb.checks.right, hb.allocated, hb.free, bind, Except.bind,
    if_neg hne, u32_of_lt hl, if_pos hsz]
  rfl

theorem krealloc_move {vmalloc : Nat → Nat} {p : Nat} (hb : Header h.mem b p n)
    (hl : b.allocated + b.free < 2 ^ 32) (hsz : b.allocated + b.free < sz) :
    krealloc memcpy vmalloc fuel (b.addr + 32) sz h = do
      let (nptr, h) ← kmallocInt vmalloc fuel sz false h
      if nptr = 0 then return (0, h)
      let h := { h with mem := memcpy h.mem nptr (b.addr + 32) (allocated h.mem b.addr) }
      let h ← kfreeInt (b.addr + 32) h
      return (nptr, h) := by
  have hp : blockFromPtr (b.addr + 32) = b.addr := Nat.add_sub_cancel ..
  have hne : b.allocated ≠ sz := by omega
  simp only [krealloc, hp, hb.checks.left, hb.checks.right, hb.allocated, hb.free, bind, Except.bind,
    if_neg hne, u32_of_lt hl, if_neg (Nat.not_le_of_lt hsz)]

theorem run_krealloc_kept {h' : Kheap}
    (hk : krealloc memcpy (fun _ => chunk) fuel ptr sz s.heap = .ok (ptr, h')) (hp : ptr ≠ 0) :
    (Op.krealloc ptr sz chunk).run memcpy fuel s =
      .ok { s with heap := h', live := (ptr, sz) :: s.live.filter (·.fst ≠ ptr) } := by
  simp only [Op.run, hk, bind, Except.bind, if_neg hp, if_true, pure, Except.pure]

-- The block stays where it is.
theorem Holds.krealloc_kept (hs : Holds s (pre ++ a :: b :: post)) (hsz : sz ≤ b.allocated + b.free) :
    ∃ s', (∀ fuel, (Op.krealloc (b.addr + 32) sz chunk).run memcpy fuel s = .ok s') ∧ s'.owned = s.owned ∧
      Holds s' (pre ++ a :: b.resized sz :: post) := by
  have happ : pre ++ a :: b :: post = (pre ++ [a]) ++ b :: post := by simp
  have happ' : pre ++ a :: b.resized sz :: post = (pre ++ [a]) ++ b.resized sz :: post := by simp
  have hc := happ ▸ hs.chain
  have hb := hc.seg.at
  rw [lastAddr_concat] at hb
  have hl := hc.size_lt (b := b) (by simp)
  have hlive : Perm ((b.addr + 32, sz) :: s.live.filter (·.fst ≠ b.addr + 32))
      ((pre ++ a :: b.resized sz :: post).tail.map Block.data) :=
    (hs.live_filter.cons _).trans (data_insert (b.resized sz)).symm
  by_cases he : b.allocated = sz
  case pos =>
    have hr : b.resized sz = b := by
      rw [← he, Block.resized, Nat.add_sub_cancel_left]
    rw [hr] at hlive ⊢
    refine ⟨_, fun fuel => run_krealloc_kept (he ▸ krealloc_same hb) (Nat.succ_ne_zero _), rfl, ?_, hlive⟩
    exact hs.chain
  case neg =>
    have hk {fuel : Nat} : krealloc memcpy (fun _ => chunk) fuel (b.addr + 32) sz s.heap = _ :=
      krealloc_resize hb he (by omega) hsz
    refine ⟨_, fun fuel => run_krealloc_kept hk (Nat.succ_ne_zero _), rfl, ?_, hlive⟩
    exact happ' ▸ hc.resize hsz

-- The block as it is when another one has been allocated.
theorem Placed.moves (hp : Placed sz chunk owned bs owned' bs' ptr) (hc : Chain h owned bs)
    {h' : Kheap} (hc' : Chain h' owned' bs') (hb : b ∈ bs.tail) (hlt : b.free < sz + 40)
    (ha : b.border = true → Ends b.addr bs) :
    ∃ pre a b' post, bs' = pre ++ a :: b' :: post ∧ b'.data = b.data ∧ b'.border = b.border ∧
      (b'.border = true → ∀ c ∈ post.head?, c.border = true) := by
  have hd : b.data ∈ bs'.tail.map Block.data :=
    (hp.data hc.ne).symm.subset (.tail _ (List.mem_map_of_mem hb))
  have ⟨b', hb', he⟩ := List.mem_map.mp hd
  have haddr : b'.addr = b.addr := Nat.add_right_cancel (congrArg Prod.fst he)
  have ⟨n, hn⟩ := hp.keeps (List.mem_of_mem_tail hb)
  have hbn : b' = { b with free := n } :=
    List.inj_on_of_nodup_map hc'.addr_nodup (List.mem_of_mem_tail hb') hn haddr
  have ⟨pre, a, post, hbs⟩ := exists_before hb'
  refine ⟨pre, a, b', post, hbs, he, by rw [hbn], fun hbd => ?_⟩
  have happ : pre ++ a :: b' :: post = (pre ++ [a]) ++ b' :: post := by simp
  rw [hbn] at hbd
  have hends := hp.ends hc (List.mem_of_mem_tail hb) rfl hlt (ha hbd)
  rw [hbs, happ] at hc' hends
  exact hc'.ends_iff.mp (haddr ▸ hends)

-- The new block is allocated, and the old one is freed.
theorem Holds.moved_blocks (hs : Holds s (pre ++ a :: b :: post)) (hm : WritesInside memcpy)
    (hsz : sz < 2 ^ 31) (hf : Fresh s.owned chunk (extendSize (sz + 40)))
    (hlt : b.allocated + b.free < sz) (ha : AloneInChunk s.heap.mem b.addr) {r : Nat × Kheap}
    (hk : kmallocInt (fun _ => chunk) fuel sz false s.heap = .ok r) :
    ∃ s' owned' pre' a' b' post', (Op.krealloc (b.addr + 32) sz chunk).run memcpy fuel s = .ok s' ∧
      Placed sz chunk s.owned (pre ++ a :: b :: post) owned' (pre' ++ a' :: b' :: post') r.fst ∧
      (∃ h', Chain h' owned' (pre' ++ a' :: b' :: post')) ∧
      (b'.border = true → ∀ c ∈ post'.head?, c.border = true) ∧ s'.owned = b'.leaves owned' ∧
      Holds s' (pre' ++ a'.freed b' :: post') := by
  have happ : pre ++ a :: b :: post = (pre ++ [a]) ++ b :: post := by simp
  have hpos : 0 < sz := by omega
  have hb := (happ ▸ hs.chain).seg.at
  have hends : b.border = true → Ends b.addr (pre ++ a :: b :: post) := fun hbd => by
    have ha := (happ ▸ hs.chain).aloneInChunk_iff.mp ha hbd
    rw [happ]
    exact (happ ▸ hs.chain).ends_iff.mpr ha
  rw [lastAddr_concat] at hb
  have hl := hs.chain.size_lt (b := b) (by simp)
  have hbt : b ∈ (pre ++ a :: b :: post).tail := by cases pre <;> simp
  -- the new block
  have ⟨owned', bs', hp, hc'⟩ := hs.chain.kmallocInt_spec hpos hsz hf rfl hk
  have ho := hp.grow_eq hs.chain hf
  have hdata := hp.data hs.chain.ne
  have ⟨pre', a', b', post', hbs', hd, hbd, hpost'⟩ := hp.moves hs.chain hc' hbt (by omega) hends
  have haddr : b'.addr = b.addr := Nat.add_right_cancel (congrArg Prod.fst hd)
  have hall : b'.allocated = b.allocated := congrArg Prod.snd hd
  have happ' : pre' ++ a' :: b' :: post' = (pre' ++ [a']) ++ b' :: post' := by simp
  subst hbs'
  have hb' := (happ' ▸ hc').seg.at
  rw [lastAddr_concat] at hb'
  have hcopied : allocated r.snd.mem b.addr = b.allocated := by
    rw [← haddr, hb'.allocated, hall]
  -- the copy stays inside of the new block
  have hw : ∀ i, memcpy r.snd.mem r.fst (b.addr + 32) b.allocated i ≠ r.snd.mem i →
      Writable owned' (pre' ++ a' :: b' :: post') i := by
    intro i hi
    have hin : r.fst ≤ i ∧ i ≤ r.fst + b.allocated := by
      by_contra hout
      exact hi (hm _ _ _ _ _ (by omega))
    have ⟨x, hx, hxd⟩ := List.mem_map.mp (hdata.symm.subset (.head _))
    have hxa : x.addr + 32 = r.fst := congrArg Prod.fst hxd
    have hxs : x.allocated = sz := congrArg Prod.snd hxd
    exact .inl ⟨x, List.mem_of_mem_tail hx, by omega, by omega⟩
  let s₂ : State := ⟨{ r.snd with mem := memcpy r.snd.mem r.fst (b.addr + 32) b.allocated },
    (r.fst, sz) :: s.live, owned'⟩
  have hs₂ : Holds s₂ (pre' ++ a' :: b' :: post') :=
    ⟨hc'.write hw, (hs.live.cons _).trans hdata.symm⟩
  have hb₂ := (happ' ▸ hs₂.chain).seg.at
  rw [lastAddr_concat] at hb₂
  have ⟨s₃, hrun, hleft, hs₃⟩ : ∃ s', (Op.kfree (b'.addr + 32)).run memcpy fuel s₂ = .ok s' ∧
      s'.owned = b'.leaves owned' ∧ Holds s' (pre' ++ a'.freed b' :: post') :=
    hs₂.kfree ((happ' ▸ hs₂.chain).aloneInChunk_iff.mpr hpost')
  have ⟨h₃, hk₃, he₃⟩ := Except.bind_ok_iff.mp hrun
  rw [haddr] at hk₃ he₃
  have hk₃ : kfreeInt (b.addr + 32) { r.snd with
      mem := memcpy r.snd.mem r.fst (b.addr + 32) b.allocated } = .ok h₃ := hk₃
  -- the old pointer is not the new one
  have hne : r.fst ≠ b.addr + 32 := by
    have hn := (hs₂.live.map Prod.fst).nodup_iff.mpr hs₂.chain.data_nodup
    have hold : b.addr + 32 ∈ s.live.map Prod.fst :=
      List.mem_map.mpr ⟨b.data, hs.live.symm.subset (List.mem_map_of_mem hbt), rfl⟩
    exact fun he => (List.nodup_cons.mp hn).left (he ▸ hold)
  have hsh : shrink s₂.heap.mem owned' (b.addr + 32) =
      shrink s.heap.mem (grow s.owned sz chunk r.fst) (b.addr + 32) := by
    have hleaves : b'.leaves owned' = b.leaves owned' := by
      rw [Block.leaves, Block.leaves, hbd, haddr]
    rw [shrink_eq hb, ← ho, ← hleaves, ← shrink_eq hb₂, haddr]
  have hlive : s₂.live.filter (·.fst ≠ b.addr + 32) =
      (r.fst, sz) :: s.live.filter (·.fst ≠ b.addr + 32) :=
    List.filter_cons_of_pos (decide_eq_true hne)
  have hrun : (Op.krealloc (b.addr + 32) sz chunk).run memcpy fuel s =
      .ok ⟨h₃, (r.fst, sz) :: s.live.filter (·.fst ≠ b.addr + 32),
        shrink s.heap.mem (grow s.owned sz chunk r.fst) (b.addr + 32)⟩ := by
    simp only [Op.run, krealloc_move hb (by omega) hlt, hk, bind, Except.bind, pure, Except.pure,
      if_neg hp.pos, hcopied, hk₃, if_neg hne]
  have he : s₃ = ⟨h₃, _, _⟩ := (Except.ok.inj he₃).symm
  refine ⟨s₃, owned', pre', a', b', post', ?_, hp, ⟨_, hc'⟩, hpost', hleft, hs₃⟩
  rw [hrun, he, hsh, hlive]

theorem Holds.moved (hs : Holds s (pre ++ a :: b :: post)) (hm : WritesInside memcpy)
    (hsz : sz < 2 ^ 31) (hf : Fresh s.owned chunk (extendSize (sz + 40)))
    (hlt : b.allocated + b.free < sz) (ha : AloneInChunk s.heap.mem b.addr) {r : Nat × Kheap}
    (hk : kmallocInt (fun _ => chunk) fuel sz false s.heap = .ok r) :
    ∃ s', (Op.krealloc (b.addr + 32) sz chunk).run memcpy fuel s = .ok s' ∧ ∃ bs', Holds s' bs' := by
  have ⟨s', _, _, _, _, _, hr, _, _, _, _, hs'⟩ := hs.moved_blocks hm hsz hf hlt ha hk
  exact ⟨s', hr, _, hs'⟩

end Krealloc

end RoverOS.Kheap
