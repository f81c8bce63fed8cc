import RoverOS.Kheap.Theorems.Border
import RoverOS.Kheap.Theorems.Search

-- What `krealloc` keeps of the data, when it moves a block with the C library's `memcpy`.

open Bytes (Memory store store_outside)

namespace RoverOS.Kheap

variable {h h' : Kheap} {m m' : Memory} {s : State} {owned owned' : List (Nat × Nat)}
  {bs bs' pre post : List Block} {a b c : Block} {chunk fuel lo hi i n old p ptr q sz x y : Nat}

-- The bytes from `lo` to `hi` are in one of the chunks.
def InChunk (chunks : List (Nat × Nat)) (lo hi : Nat) : Prop :=
  ∃ c ∈ chunks, c.fst ≤ lo ∧ hi ≤ c.snd

-- What is expected when `krealloc` returns `q`: `chunks` are the heap's.
structure KeepsData (s : State) (h' : Kheap) (chunks : List (Nat × Nat)) (ptr old q sz : Nat) : Prop where
  kept    : ∀ i < min old sz, h'.mem (q + i) = s.heap.mem (ptr + i)
  size    : sz ≤ allocated h'.mem (blockFromPtr q)
  redzone : redzone h'.mem (blockFromPtr q) = kheapRedzoneMagic
  inside  : InChunk chunks (blockFromPtr q) (q + sz + 8)
  others  : ∀ x ∈ s.live, x.fst ≠ ptr → ∀ i < x.snd, h'.mem (x.fst + i) = s.heap.mem (x.fst + i)

section Goes

-- The first block along `next` with room for a block of `sz` bytes.
inductive FirstFit (m : Memory) (sz : Nat) : Nat → Nat → Prop
  | here {a : Nat} : sz + 40 ≤ free m a → FirstFit m sz a a
  | behind {a x : Nat} : free m a < sz + 40 → next m a ≠ 0 → FirstFit m sz (next m a) x → FirstFit m sz a x

-- Where the data of a new block is going to be, if the heap finds room for it.
inductive Goes (h : Kheap) (chunk sz : Nat) : Nat → Prop
  | split {x : Nat} : FirstFit h.mem sz h.startBlock x →
    Goes h chunk sz (blockDataPtr (newUnalignedBlock h.mem x))
  | extend : (∀ x, Reaches h x → free h.mem x < sz + 40) → sz + 40 ≤ extendSize (sz + 40) →
    Goes h chunk sz (blockDataPtr chunk)

theorem FirstFit.le (hf : FirstFit m sz p x) : sz + 40 ≤ free m x := by
  induction hf
  case here h          => exact h
  case behind _ _ _ hi => exact hi

theorem FirstFit.reaches (hf : FirstFit h.mem sz p x) (hp : Reaches h p) : Reaches h x := by
  induction hf
  case here              => exact hp
  case behind _ hn _ hi  => exact hi (hp.next hn)

theorem FirstFit.unique (hx : FirstFit m sz p x) (hy : FirstFit m sz p y) : x = y := by
  induction hx
  case here h =>
    cases hy
    case here             => rfl
    case behind hlt _ _   => exact absurd h (Nat.not_le_of_lt hlt)
  case behind hlt _ _ hi =>
    cases hy
    case here h           => exact absurd h (Nat.not_le_of_lt hlt)
    case behind _ _ hy    => exact hi hy

theorem Goes.unique (hp : Goes h chunk sz p) (hq : Goes h chunk sz q) : p = q := by
  cases hp
  case split hx =>
    cases hq
    case split hy       => rw [hx.unique hy]
    case extend hall _  => exact absurd hx.le (Nat.not_le_of_lt (hall _ (hx.reaches .start)))
  case extend hall _ =>
    cases hq
    case split hy => exact absurd hy.le (Nat.not_le_of_lt (hall _ (hy.reaches .start)))
    case extend   => rfl

theorem Goes.lt (hg : Goes h chunk sz p) : sz + 40 < 2 ^ 32 := by
  cases hg
  case split x hx =>
    have hfree : free h.mem x < 2 ^ 32 := Bytes.load_lt
    exact lt_of_le_of_lt hx.le hfree
  case extend hle => exact lt_of_le_of_lt hle extendSize_lt

-- The first block that is large enough, as a block of the chain.
theorem Seg.firstFit (hs : Seg m p (pre ++ b :: post) 0) (hpos : ∀ c ∈ pre ++ b :: post, 0 < c.addr)
    (hpre : ∀ c ∈ pre, c.free < sz + 40) (hb : sz + 40 ≤ b.free) :
    FirstFit m sz (firstAddr (pre ++ b :: post) 0) b.addr := by
  induction pre generalizing p
  case nil => exact .here (hb.trans_eq hs.left.free.symm)
  case cons c pre hi =>
    have hn : next m c.addr = firstAddr (pre ++ b :: post) 0 := hs.left.next
    have hne : firstAddr (pre ++ b :: post) 0 ≠ 0 := by
      cases pre
      case nil      => exact Nat.ne_of_gt (hpos b (by simp))
      case cons d _ => exact Nat.ne_of_gt (hpos d (by simp))
    have hf := hi hs.right (fun d hd => hpos d (.tail _ hd)) fun d hd => hpre d (.tail _ hd)
    have hc : free m c.addr < sz + 40 := hs.left.free.trans_lt (hpre c (.head _))
    exact .behind hc (hn ▸ hne) (hn ▸ hf)

theorem Chain.free_lt_iff (hc : Chain h owned bs) :
    (∀ x, Reaches h x → free h.mem x < n) ↔ ∀ b ∈ bs, b.free < n := by
  have hfree {b : Block} (hb : b ∈ bs) : free h.mem b.addr = b.free := by
    obtain ⟨_, _, hh⟩ := hc.seg.header hb
    exact hh.free
  constructor
  · intro hall b hb
    exact (hfree hb).symm.trans_lt (hall _ (hc.reaches_iff.mpr ⟨b, hb, rfl⟩))
  · intro hall x hx
    obtain ⟨b, hb, rfl⟩ := hc.reaches_iff.mp hx
    exact (hfree hb).trans_lt (hall b hb)

theorem Placed.goes (hp : Placed sz chunk owned bs owned' bs' q) (hc : Chain h owned bs)
    (hfit : (∀ c ∈ bs, c.free < sz + 40) → sz + 40 ≤ extendSize (sz + 40)) : Goes h chunk sz q := by
  cases hp
  case split pre post b hbs hpre hb =>
    subst hbs
    have hnew : newUnalignedBlock h.mem b.addr = b.used := by
      rw [newUnalignedBlock, maxAllocPtr, hc.seg.at.allocated, kheapBlockDataSz, Block.used]
      omega
    have hf := hc.seg.firstFit (fun c hm => hc.addr_pos hm) hpre hb
    rw [hc.start] at hf
    exact hnew ▸ .split hf
  case extend hall => exact .extend (hc.free_lt_iff.mpr hall) (hfit hall)

end Goes

section Frame

-- Nothing changes but headers of the blocks, and the bytes from `lo` to `hi`.
def Frame (bs : List Block) (lo hi : Nat) (m m' : Memory) : Prop :=
  ∀ i, (∀ c ∈ bs, i < c.addr ∨ c.addr + 32 ≤ i) → i < lo ∨ hi ≤ i → m' i = m i

theorem relink_outside (hi : n ≠ 0 → i < n ∨ n + 32 ≤ i) : relink m n p i = m i := by
  rw [relink]
  split_ifs with hn
  · have := hi hn
    exact store_outside (by omega)
  · rfl

theorem outside_firstAddr (hh : ∀ c ∈ bs, i < c.addr ∨ c.addr + 32 ≤ i) (hn : firstAddr bs 0 ≠ 0) :
    i < firstAddr bs 0 ∨ firstAddr bs 0 + 32 ≤ i := by
  cases bs
  case nil      => exact absurd rfl hn
  case cons c _ => exact hh c (.head _)

theorem writeFields_outside (hi : i < b.addr ∨ b.addr + 32 ≤ i) : writeFields m b p n i = m i := by
  simp (disch := omega) only [writeFields, setAllocated, setFree, setChunkBorder, setPrev, setNext,
    store_outside]

theorem finish_outside (hall : allocated m n = sz) (hi : i < n ∨ n + 32 ≤ i)
    (hr : i < n + 32 + sz ∨ n + 32 + sz + 8 ≤ i) : finish m n i = m i := by
  rw [finish, setMagic, store_outside (by omega), setRedzone]
  refine store_outside ?_
  rw [redzoneOffset, hall, kheapBlockDataSz]
  omega

theorem allocated_finish : allocated (finish m n) n = allocated m n :=
  load_finish (by omega) (by omega)

theorem Chain.split_frame (hc : Chain h owned (pre ++ b :: post)) (hf : sz + 40 ≤ b.free) :
    Frame (pre ++ { b with free := 0 } :: b.rest sz :: post) (b.used + 32 + sz) (b.used + 32 + sz + 8)
      h.mem (finish (Kheap.split h.mem b.addr sz).snd b.used) := by
  have happ : pre ++ b :: post = (pre ++ [b]) ++ post := by simp
  have hn : firstAddr post 0 < 2 ^ 64 := (happ ▸ hc).firstAddr_lt
  have hl := hc.size_lt (b := b) (by simp)
  have heq := split_eq hc.seg.at hf hl hn
  obtain ⟨m', hm, hseg⟩ := split_spec hc hf
  have happ : pre ++ { b with free := 0 } :: b.rest sz :: post =
      (pre ++ [{ b with free := 0 }]) ++ b.rest sz :: post := by simp
  have hall : allocated m' b.used = sz :=
    allocated_finish.symm.trans (happ ▸ hseg).at.allocated
  intro i hh hr
  have hb : i < b.addr ∨ b.addr + 32 ≤ i := hh { b with free := 0 } (by simp)
  have hnew : i < b.used ∨ b.used + 32 ≤ i := hh (b.rest sz) (by simp)
  have hra : (b.rest sz).addr = b.used := rfl
  have hpost : firstAddr post 0 ≠ 0 → i < firstAddr post 0 ∨ firstAddr post 0 + 32 ≤ i :=
    outside_firstAddr fun c hm => hh c (by simp [hm])
  rw [hm, finish_outside hall (by omega) hr]
  rw [hm] at heq
  obtain ⟨_, rfl⟩ := Prod.mk.inj heq
  rw [relink_outside hpost, setFree, store_outside (by omega), setNext, store_outside (by omega),
    writeFields_outside (by omega)]

theorem Chain.extend_frame (hc : Chain h owned (pre ++ [b])) (hfit : sz + 40 ≤ extendSize (sz + 40))
    (hf : Fresh owned chunk (extendSize (sz + 40))) :
    Frame (pre ++ [b] ++ [.ofChunk chunk sz]) (chunk + 32 + sz) (chunk + 32 + sz + 8) h.mem
      (finish (append (writeFields h.mem (.blank chunk sz) 0 0) b.addr chunk sz) chunk) := by
  have hseg := append_spec hfit hf hc
  have hall : allocated (append (writeFields h.mem (.blank chunk sz) 0 0) b.addr chunk sz) chunk = sz :=
    allocated_finish.symm.trans hseg.at.allocated
  intro i hh hr
  have hb := hh b (by simp)
  have hnew := hh (.ofChunk chunk sz) (by simp)
  have hca : (Block.ofChunk chunk sz).addr = chunk := rfl
  have hba : (Block.blank chunk sz).addr = chunk := rfl
  rw [finish_outside hall (by omega) hr]
  simp (disch := omega) only [append, setAllocated, setFree, setChunkBorder, setPrev, setNext,
    store_outside, writeFields_outside]

theorem Chain.kfreeInt_frame (hc : Chain h owned (pre ++ a :: b :: post))
    (hk : kfreeInt (b.addr + 32) h = .ok h') : Frame (pre ++ a :: b :: post) 0 0 h.mem h'.mem := by
  have happ : pre ++ a :: b :: post = (pre ++ [a]) ++ b :: post := by simp
  have hb := (happ ▸ hc).seg.at
  rw [lastAddr_concat] at hb
  have hab : Clear a b := (hc.apart_behind (c := b) (.head _)).clear
  rw [kfreeInt_eq hc.seg.at hb hab] at hk
  cases hk
  intro i hh _
  have hia := hh a (by simp)
  have hib := hh b (by simp)
  have hpost : firstAddr post 0 ≠ 0 → i < firstAddr post 0 ∨ firstAddr post 0 + 32 ≤ i :=
    outside_firstAddr fun c hm => hh c (by simp [hm])
  dsimp only
  rw [setMagic, store_outside (by omega), relink_outside hpost, setNext, store_outside (by omega),
    writeFreed]
  split
  case isTrue  => rfl
  case isFalse => exact store_outside (by omega)

theorem memcpyAt_apply {dest src len : Nat} : memcpyAt m dest src len i =
    if dest < i ∧ i ≤ dest + len then m (src + (i - dest)) else m i := by
  rw [memcpyAt]
  split_ifs with hlt
  · omega
  · rfl
  · rw [Libc.memcpy_apply, if_pos (by omega)]
  · rw [Libc.memcpy_apply, if_neg (by omega), Nat.add_sub_cancel' (by omega)]

end Frame

section Kmalloc

-- `vmalloc` maps at least one page.
def chunkSize (sz : Nat) : Nat := extendSize (u64 (sz + 40))

theorem chunkSize_eq (h : sz + 40 < 2 ^ 64) : chunkSize sz = extendSize (sz + 40) :=
  congrArg extendSize (u64_of_lt h)

theorem Fresh.mono (hf : Fresh owned chunk n) (hle : p ≤ n) : Fresh owned chunk p where
  pos       := hf.pos
  le        := le_trans (Nat.add_le_add_left hle _) hf.le
  apart d hd := (hf.apart d hd).imp_right fun h => le_trans (Nat.add_le_add_left hle _) h

theorem Chain.inChunk_lt (hc : Chain h owned bs)
    (hin : InChunk ((chunk, chunk + chunkSize sz) :: owned) lo hi) : hi < lo + 2 ^ 32 := by
  obtain ⟨c, hm, hlo, hhi⟩ := hin
  cases hm
  case head =>
    have hlt : chunkSize sz < 2 ^ 32 := extendSize_lt
    dsimp only at hlo hhi
    omega
  case tail hm =>
    have hlt := (hc.layout.chunks c hm).right.left
    omega

-- The new block has its place among the others, or else it is not in any chunk.
theorem Chain.kmallocInt_goes (hc : Chain h owned bs) (hpos : 1 ≤ sz)
    (hf : Fresh owned chunk (max 0x1000 (chunkSize sz)))
    (hk : kmallocInt (fun _ => chunk) fuel sz false h = .ok (q, h')) :
    (Goes h chunk sz q ∧ ∃ owned' bs', owned' ⊆ (chunk, chunk + chunkSize sz) :: owned ∧
      Placed sz chunk owned bs owned' bs' q ∧ Chain h' owned' bs' ∧
      Frame bs' (q + sz) (q + sz + 8) h.mem h'.mem) ∨
    (∀ p, ¬Goes h chunk sz p) ∧
      ¬InChunk ((chunk, chunk + chunkSize sz) :: owned) (blockFromPtr q) (q + sz + 8) := by
  obtain ⟨x, found, hs, hq⟩ := kmallocInt_ptr hpos hk
  have hq32 : blockFromPtr q + 32 = q := by
    rw [hq]
    exact congrArg (· + 32) blockFromPtr_data
  by_cases hlt : sz + 40 < 2 ^ 64
  case neg =>
    refine .inr ⟨fun p hg => absurd hg.lt (by omega), fun hi => ?_⟩
    have hi := hc.inChunk_lt hi
    omega
  case pos =>
    rw [csz_eq hlt] at hs
    have hsize := chunkSize_eq hlt
    have hsrch : Searched (sz + 40) bs x found :=
      search_searched hc.seg (fun b hb => hc.addr_pos hb) hc.ne (hc.start ▸ hs)
    have hf' : Fresh owned chunk (extendSize (sz + 40)) := hf.mono (hsize ▸ le_max_right _ _)
    cases hsrch
    case found pre post b hbs hp hb =>
      subst hbs
      rw [hc.kmallocInt_split hpos hb hs] at hk
      cases hk
      obtain ⟨m', hm, hseg⟩ := split_spec hc hb
      have hpl : Placed sz chunk owned (pre ++ b :: post) owned _ _ := .split rfl hp hb
      refine .inl ⟨hpl.goes hc fun hall => ?_, _, _, List.subset_cons_self _ _, hpl, ?_, hc.split_frame hb⟩
      · exact absurd hb (Nat.not_le_of_lt (hall b (by simp)))
      · exact hc.split hb (hm ▸ hseg)
    case last pre b hbs hp =>
      by_cases hfit : sz + 40 ≤ extendSize (sz + 40)
      case pos =>
        subst hbs
        rw [hc.kmallocInt_extend hpos hfit hf' rfl hs] at hk
        cases hk
        have hpl : Placed sz chunk owned (pre ++ [b]) _ _ _ := .extend hp
        refine .inl ⟨hpl.goes hc fun _ => hfit, _, _, ?_, hpl, ?_, hc.extend_frame hfit hf'⟩
        · rw [hsize]
          exact List.Subset.refl _
        · exact hc.extend hfit hf' (append_spec hfit hf' hc)
      case neg =>
        refine .inr ⟨fun p hg => ?_, ?_⟩
        · cases hg
          case split x hx =>
            have hall := hc.free_lt_iff.mpr hp x (hx.reaches .start)
            exact absurd hx.le (Nat.not_le_of_lt hall)
          case extend hle => exact hfit hle
        · rintro ⟨d, hm, hlo, hhi⟩
          have hqc : q = chunk + 32 := hq
          cases hm
          case head =>
            dsimp only at hlo hhi
            omega
          case tail hm =>
            have hd := (hf.mono (le_max_left _ _)).apart d hm
            omega

end Kmalloc

section Data

-- The data of a block is apart from the other blocks, and from all headers.
theorem Chain.data_apart (hc : Chain h owned bs) (hb : b ∈ bs) (hm : c ∈ bs) (hne : b ≠ c)
    (hlo : c.addr + 32 ≤ i) (hhi : i < c.addr + 32 + c.allocated) : i < b.addr ∨ b.fin ≤ i := by
  have ha := hc.apart_of_ne hb hm hne
  have hu : c.addr + 40 + c.allocated = c.used := rfl
  have hf := c.used_le_fin
  simp only [Extent.Apart, Block.extent] at ha
  omega

-- The data and the redzone of another block.
theorem Chain.data_outside (hc : Chain h owned bs) (hb : b ∈ bs) (hm : c ∈ bs) (hne : b ≠ c)
    (hlo : c.addr + 32 ≤ i) (hhi : i < c.addr + 32 + c.allocated) : i < b.addr ∨ b.addr + 40 + b.allocated ≤ i := by
  have ha := hc.data_apart hb hm hne hlo hhi
  have hf := b.used_le_fin
  have hu : b.addr + 40 + b.allocated = b.used := rfl
  omega

theorem Chain.data_headers (hc : Chain h owned bs) (hm : c ∈ bs) (hlo : c.addr + 32 ≤ i)
    (hhi : i < c.addr + 32 + c.allocated) : ∀ b ∈ bs, i < b.addr ∨ b.addr + 32 ≤ i := by
  intro b hb
  by_cases hne : b = c
  case pos => exact .inr (hne ▸ hlo)
  case neg =>
    have ha := hc.data_apart hb hm hne hlo hhi
    have hu := b.addr_lt_used
    have hf := b.used_le_fin
    omega

theorem Chain.inChunk (hc : Chain h owned bs) (hb : b ∈ bs) {chunks : List (Nat × Nat)}
    (hsub : owned ⊆ chunks) (hle : hi ≤ b.fin) : InChunk chunks b.addr hi := by
  have hin := hc.inside hb
  exact ⟨b.chunk, hsub hin.owned, hin.lo, le_trans hle hin.hi⟩

end Data

section InPlace

variable {memcpy : Memory → Nat → Nat → Nat → Memory} {vmalloc : Nat → Nat}

theorem Chain.krealloc_inPlace (hc : Chain h owned (pre ++ b :: post)) (hsz : sz ≤ b.allocated + b.free)
    (hk : krealloc memcpy vmalloc fuel (b.addr + 32) sz h = .ok (q, h')) :
    q = b.addr + 32 ∧ Chain h' owned (pre ++ b.resized sz :: post) ∧
      Frame [b] (b.addr + 32 + sz) (b.addr + 32 + sz + 8) h.mem h'.mem := by
  have hl := hc.size_lt (b := b) (by simp)
  by_cases he : b.allocated = sz
  case pos =>
    have hr : b.resized sz = b := by
      rw [← he, Block.resized, Nat.add_sub_cancel_left]
    rw [← he, krealloc_same hc.seg.at] at hk
    cases hk
    refine ⟨rfl, ?_, fun _ _ _ => rfl⟩
    rwa [hr]
  case neg =>
    rw [krealloc_resize hc.seg.at he (by omega) hsz] at hk
    cases hk
    refine ⟨rfl, hc.resize hsz, fun i hh hi => ?_⟩
    have hb := hh b (.head _)
    dsimp only
    rw [resize_eq hc.seg.at hl hsz, store_outside hi, setAllocated, store_outside (by omega), setFree,
      store_outside (by omega)]

theorem Holds.kept_inPlace (hs : Holds s (pre ++ b :: post)) {chunks : List (Nat × Nat)}
    (hsub : s.owned ⊆ chunks) (hsz : sz ≤ b.allocated + b.free)
    (hk : krealloc memcpy vmalloc fuel (b.addr + 32) sz s.heap = .ok (q, h')) :
    KeepsData s h' chunks (b.addr + 32) b.allocated q sz := by
  obtain ⟨rfl, hc', hfr⟩ := hs.chain.krealloc_inPlace hsz hk
  have hb : b ∈ pre ++ b :: post := by simp
  have hfin : b.addr + 32 + sz + 8 ≤ b.fin := by
    rw [Block.fin, Block.used]
    omega
  have hh := hc'.seg.at
  have hra : (b.resized sz).addr = b.addr := rfl
  constructor
  case kept =>
    intro i hi
    refine hfr _ (List.forall_mem_singleton.mpr ?_) ?_ <;> omega
  case size =>
    rw [blockFromPtr_data]
    exact hh.allocated.ge
  case redzone =>
    rw [blockFromPtr_data]
    exact hh.redzone_eq
  case inside =>
    rw [blockFromPtr_data]
    exact hs.chain.inChunk hb hsub hfin
  case others =>
    intro x hx hne i hi
    obtain ⟨c, hm, rfl⟩ := List.mem_map.mp (hs.live.subset hx)
    have hbc : b ≠ c := by
      rintro rfl
      exact hne rfl
    have hlo : c.addr + 32 ≤ c.data.fst + i := Nat.le_add_right ..
    have hhi : c.data.fst + i < c.addr + 32 + c.allocated := Nat.add_lt_add_left hi _
    have ha := hs.chain.data_apart hb (List.mem_of_mem_tail hm) hbc hlo hhi
    refine hfr _ (List.forall_mem_singleton.mpr ?_) ?_ <;> omega

end InPlace

section Moved

variable {r : Block} {len src : Nat}

-- `memcpy` writes no more than the data of the new block.
theorem Chain.copy (hc : Chain h owned bs) (hr : r ∈ bs) (hlt : len < r.allocated) :
    Chain { h with mem := memcpyAt h.mem (r.addr + 32) src len } owned bs := by
  refine hc.write fun i hi => .inl ⟨r, hr, ?_⟩
  by_contra hout
  refine hi ?_
  rw [memcpyAt_apply, if_neg (by omega)]

theorem mem_freed (hx : c ∈ pre ++ a :: b :: post) (hne : c ≠ b) :
    ∃ d ∈ pre ++ a.freed b :: post, d.addr = c.addr ∧ d.allocated = c.allocated := by
  rcases List.mem_append.mp hx with hx | hx
  · exact ⟨c, by simp [hx], rfl, rfl⟩
  cases hx
  case head => exact ⟨a.freed b, by simp, Block.freed_addr, Block.freed_allocated⟩
  case tail hx =>
    cases hx
    case head    => exact absurd rfl hne
    case tail hx => exact ⟨c, List.mem_append_right _ (.tail _ hx), rfl, rfl⟩

-- What is left when the data has been copied to `r`, and `b` is freed.
theorem Chain.moved (hc : Chain h owned (pre ++ a :: b :: post)) (hr : r ∈ pre ++ a :: b :: post)
    (hne : r ≠ b) (hlt : len < r.allocated)
    (hk : kfreeInt (b.addr + 32) { h with mem := memcpyAt h.mem (r.addr + 32) src len } = .ok h') :
    r.allocated ≤ allocated h'.mem r.addr ∧ redzone h'.mem r.addr = kheapRedzoneMagic ∧
      ∀ c ∈ pre ++ a :: b :: post, ∀ i, c.addr + 32 ≤ i → i < c.addr + 32 + c.allocated →
        h'.mem i = memcpyAt h.mem (r.addr + 32) src len i := by
  have hc₂ : Chain { h with mem := memcpyAt h.mem (r.addr + 32) src len } owned (pre ++ a :: b :: post) :=
    hc.copy hr hlt
  have hfr := hc₂.kfreeInt_frame hk
  obtain ⟨m', hk', hseg⟩ := hc₂.kfreeInt_seg
  rw [hk] at hk'
  cases hk'
  obtain ⟨d, hd, haddr, hall⟩ := mem_freed hr hne
  obtain ⟨_, _, hh⟩ := hseg.header hd
  refine ⟨?_, ?_, fun c hm i hlo hhi => ?_⟩
  · rw [← haddr, ← hall]
    exact hh.allocated.ge
  · rw [← haddr]
    exact hh.redzone_eq
  · exact hfr i (hc₂.data_headers hm hlo hhi) (.inr (Nat.zero_le _))

-- The data of a block, when only the redzone of the new block `r` is written.
theorem Frame.data_eq {m : Memory} (hc : Chain h owned bs) (hr : r ∈ bs) (hm : c ∈ bs)
    (hfr : Frame bs (r.addr + 32 + r.allocated) (r.addr + 32 + r.allocated + 8) m h.mem)
    (hlo : c.addr + 32 ≤ i) (hhi : i < c.addr + 32 + c.allocated) : h.mem i = m i := by
  refine hfr i (hc.data_headers hm hlo hhi) ?_
  by_cases he : r = c
  case pos =>
    subst he
    omega
  case neg =>
    have ha := hc.data_outside hr hm he hlo hhi
    omega

theorem Holds.kept_moved (hs : Holds s bs) (hb : b ∈ bs.tail) (hpos : 1 ≤ sz) (hlt : b.allocated < sz)
    {chunks : List (Nat × Nat)} (hsub : owned' ⊆ chunks) (hp : Placed sz chunk s.owned bs owned' bs' q)
    (hc : Chain h owned' bs') (hfr : Frame bs' (q + sz) (q + sz + 8) s.heap.mem h.mem)
    (hk : kfreeInt (b.addr + 32)
      { h with mem := memcpyAt h.mem q (b.addr + 32) (allocated h.mem b.addr) } = .ok h') :
    KeepsData s h' chunks (b.addr + 32) b.allocated q sz ↔
      b.allocated = 0 ∨ s.heap.mem q = s.heap.mem (b.addr + 32) := by
  have hdata := hp.data hs.chain.ne
  obtain ⟨b', hb', hbd⟩ := List.mem_map.mp (hdata.symm.subset (.tail _ (List.mem_map_of_mem hb)))
  obtain ⟨r, hr, hrd⟩ := List.mem_map.mp (hdata.symm.subset (.head _))
  have haddr : b'.addr = b.addr := Nat.add_right_cancel (congrArg Prod.fst hbd)
  have hall : b'.allocated = b.allocated := congrArg Prod.snd hbd
  have hrq : q = r.addr + 32 := (congrArg Prod.fst hrd).symm
  have hrs : r.allocated = sz := congrArg Prod.snd hrd
  subst hrq hrs
  have hne : r ≠ b' := by
    rintro rfl
    omega
  obtain ⟨pre, a, post, hbs⟩ := exists_before hb'
  have hr := List.mem_of_mem_tail hr
  have hcopied : allocated h.mem b.addr = b.allocated := by
    obtain ⟨_, _, hh⟩ := hc.seg.header (List.mem_of_mem_tail hb')
    rw [← haddr, hh.allocated, hall]
  rw [hcopied, ← haddr] at hk
  subst hbs
  obtain ⟨hsize, hred, hbytes⟩ := hc.moved hr hne (by omega) hk
  have hfirst : h'.mem (r.addr + 32) = s.heap.mem (r.addr + 32) := by
    rw [hbytes r hr _ le_rfl (by omega), memcpyAt_apply, if_neg (by omega)]
    exact hfr.data_eq hc hr hr le_rfl (by omega)
  have hcopy (i : Nat) (h0 : 0 < i) (hi : i < b.allocated) :
      h'.mem (r.addr + 32 + i) = s.heap.mem (b.addr + 32 + i) := by
    rw [hbytes r hr _ (by omega) (by omega), memcpyAt_apply, if_pos (by omega), Nat.add_sub_cancel_left,
      haddr]
    exact hfr.data_eq hc hr (c := b') (by simp) (by omega) (by omega)
  constructor
  case mp =>
    intro hkd
    by_cases h0 : b.allocated = 0
    case pos => exact .inl h0
    case neg =>
      have h := hkd.kept 0 (by omega)
      exact .inr (hfirst.symm.trans h)
  case mpr =>
    intro hbyte
    constructor
    case kept =>
      intro i hi
      by_cases h0 : i = 0
      case pos =>
        subst h0
        exact hfirst.trans (hbyte.resolve_left (by omega))
      case neg => exact hcopy i (by omega) (by omega)
    case size =>
      rw [blockFromPtr_data]
      exact hsize
    case redzone =>
      rw [blockFromPtr_data]
      exact hred
    case inside =>
      rw [blockFromPtr_data]
      refine hc.inChunk hr hsub (le_trans ?_ r.used_le_fin)
      rw [Block.used]
      omega
    case others =>
      intro x hx hxb i hi
      obtain ⟨c, hm, rfl⟩ := List.mem_map.mp (hdata.symm.subset (.tail _ (hs.live.subset hx)))
      have hnodup := (hdata.map Prod.fst).nodup_iff.mp hc.data_nodup
      have hrc : r ≠ c := by
        rintro rfl
        exact (List.nodup_cons.mp hnodup).left (List.mem_map_of_mem (hs.live.subset hx))
      have hm := List.mem_of_mem_tail hm
      have hlo : c.addr + 32 ≤ c.data.fst + i := Nat.le_add_right ..
      have hhi : c.data.fst + i < c.addr + 32 + c.allocated := Nat.add_lt_add_left hi _
      have ha := hc.data_outside hr hm hrc hlo hhi
      rw [hbytes c hm _ hlo hhi, memcpyAt_apply, if_neg (by omega)]
      exact hfr.data_eq hc hr hm hlo hhi

end Moved

section Krealloc

-- The block stays where it is, or finds another place, at which the byte that is not copied is right already.
def StaysOrMatches (h : Kheap) (chunk ptr old sz : Nat) : Prop :=
  sz ≤ allocated h.mem (blockFromPtr ptr) + free h.mem (blockFromPtr ptr) ∨
    ∃ p, Goes h chunk sz p ∧ (old = 0 ∨ h.mem p = h.mem ptr)

theorem Holds.keepsData_iff (hs : Holds s bs) (hx : (ptr, old) ∈ s.live) (hpos : 1 ≤ sz)
    (hf : Fresh s.owned chunk (max 0x1000 (chunkSize sz)))
    (hk : krealloc memcpyAt (fun _ => chunk) fuel ptr sz s.heap = .ok (q, h')) :
    KeepsData s h' ((chunk, chunk + chunkSize sz) :: s.owned) ptr old q sz ↔
      StaysOrMatches s.heap chunk ptr old sz := by
  obtain ⟨b, hb, hd⟩ := List.mem_map.mp (hs.live.subset hx)
  obtain ⟨rfl, rfl⟩ := Prod.mk.inj hd
  obtain ⟨pre, post, hbs⟩ := List.append_of_mem (List.mem_of_mem_tail hb)
  subst hbs
  have hh := hs.chain.seg.at
  have hl := hs.chain.size_lt (b := b) (by simp)
  rw [StaysOrMatches, blockFromPtr_data, hh.allocated, hh.free]
  by_cases hsz : sz ≤ b.allocated + b.free
  case pos =>
    refine iff_of_true (hs.kept_inPlace (List.subset_cons_self _ _) hsz hk) (.inl hsz)
  case neg =>
    rw [krealloc_move hh (by omega) (by omega)] at hk
    obtain ⟨⟨p, h₁⟩, hk₁, hk⟩ := Except.bind_ok_iff.mp hk
    obtain ⟨_, _, _, hp⟩ := kmallocInt_ptr hpos hk₁
    have hp0 : p ≠ 0 := hp ▸ Nat.succ_ne_zero _
    dsimp only at hk
    rw [if_neg hp0] at hk
    obtain ⟨h₂, hk₂, hk⟩ := Except.bind_ok_iff.mp hk
    cases hk
    rcases hs.chain.kmallocInt_goes hpos hf hk₁ with ⟨hg, owned', bs', hsub, hpl, hc, hfr⟩ | ⟨hng, hout⟩
    · rw [hs.kept_moved hb hpos (by omega) hsub hpl hc hfr hk₂]
      constructor
      case mp => exact fun hbyte => .inr ⟨_, hg, hbyte⟩
      case mpr =>
        rintro (hle | ⟨p, hp, hbyte⟩)
        · exact absurd hle hsz
        · exact hg.unique hp ▸ hbyte
    · refine iff_of_false (fun hkd => hout hkd.inside) ?_
      rintro (hle | ⟨p, hp, _⟩)
      · exact hsz hle
      · exact hng p hp

end Krealloc

section Example

-- A heap with two blocks of 16 bytes behind the first one.
def twoBlocks : List Block :=
  [{ firstBlock 0x100000 0x4000 with free := 0 }, { (firstBlock 0x100000 0x4000).rest 16 with free := 0 },
    ((firstBlock 0x100000 0x4000).rest 16).rest 16]

theorem Holds.kmalloc_frame (hs : Holds s bs) (hpos : 1 ≤ sz) (hsz : sz < 2 ^ 31)
    (hf : Fresh s.owned chunk (extendSize (sz + 40))) :
    ∃ fuel s' bs' q, (Op.kmalloc sz chunk).run memcpyAt fuel s = .ok s' ∧
      Placed sz chunk s.owned bs s'.owned bs' q ∧ s'.live = (q, sz) :: s.live ∧ Holds s' bs' ∧
      Frame bs' (q + sz) (q + sz + 8) s.heap.mem s'.heap.mem := by
  obtain ⟨⟨q, h'⟩, hk⟩ : ∃ r, kmallocInt (fun _ => chunk) bs.length sz false s.heap = .ok r :=
    hs.chain.kmallocInt_ok hpos hsz hf rfl
  have hlt : sz + 40 < 2 ^ 64 := by omega
  have hfit := le_extendSize hsz
  have hf' : Fresh s.owned chunk (max 0x1000 (chunkSize sz)) := by
    have hle : 0x1000 ≤ extendSize (sz + 40) := by
      rw [extendSize_eq (by omega)]
      omega
    rwa [chunkSize_eq hlt, max_eq_right hle]
  rcases hs.chain.kmallocInt_goes hpos hf' hk with ⟨_, owned', bs', _, hp, hc, hfr⟩ | ⟨hng, _⟩
  · refine ⟨_, _, bs', q, run_kmalloc hp.pos hk, ?_, rfl, ⟨?_, ?_⟩, hfr⟩
    · exact hp.grow_eq hs.chain hf ▸ hp
    · exact hp.grow_eq hs.chain hf ▸ hc
    · exact (hs.live.cons _).trans (hp.data hs.chain.ne).symm
  · obtain ⟨_, _, hp, _⟩ := hs.chain.kmallocInt_spec hpos hsz hf rfl hk
    exact absurd (hp.goes hs.chain fun _ => hfit) (hng q)

theorem initKmalloc_outside {heapStart size : Nat} (hi : heapStart + 40 ≤ i) :
    (initKmalloc heapStart size m).mem i = m i := by
  rw [initKmalloc]
  dsimp only
  rw [setRedzone, store_outside]
  · simp (disch := omega) only [setMagic, setAllocated, setFree, setChunkBorder, setPrev, setNext,
      store_outside]
  · rw [redzoneOffset]
    simp (disch := omega) only [allocated, setAllocated, setFree, setChunkBorder, setPrev, setNext,
      Bytes.load_store_of_apart, Bytes.load_store, kheapBlockDataSz]
    exact .inr hi

-- The first of the two begins with zero, and behind the second one there are only zeros.
theorem exists_twoBlocks : ∃ s, Holds s twoBlocks ∧ (0x100048, 16) ∈ s.live ∧
    s.owned = [(0x100000, 0x104000)] ∧ s.heap.mem 0x100048 = 0 ∧ s.heap.mem 0x1000b8 = 0 ∧
    Run.Steps (Step memcpyAt) (Allowed AloneInChunk) (initial 0x100000 0x4000 fun _ => 0) s := by
  have hs₀ : Holds (initial 0x100000 0x4000 fun _ => 0) [firstBlock 0x100000 0x4000] :=
    holds_initial (by decide) (by decide) (by decide) (by decide)
  have hm₀ {i : Nat} (hi : 0x100028 ≤ i) : (initial 0x100000 0x4000 fun _ => 0).heap.mem i = 0 :=
    initKmalloc_outside hi
  have hf : Fresh [(0x100000, 0x104000)] 0x200000 (extendSize (16 + 40)) := fresh_firstChunk (by decide)
  obtain ⟨f₁, s₁, bs₁, p₁, hr₁, hp₁, hl₁, hs₁, hfr₁⟩ := hs₀.kmalloc_frame (by decide) (by decide) hf
  have ha₁ : Allowed AloneInChunk (initial 0x100000 0x4000 fun _ => 0) (.kmalloc 16 0x200000) :=
    ⟨by decide, hf⟩
  have hp₁ : Placed _ _ _ ([] ++ [_]) _ bs₁ p₁ := hp₁
  obtain ⟨ho₁, hbs₁, rfl⟩ := hp₁.splits_last (by decide) (by decide)
  subst hbs₁
  have hf₁ : Fresh s₁.owned 0x200000 (extendSize (16 + 40)) := ho₁ ▸ hf
  obtain ⟨f₂, s₂, bs₂, p₂, hr₂, hp₂, hl₂, hs₂, hfr₂⟩ := hs₁.kmalloc_frame (by decide) (by decide) hf₁
  have ha₂ : Allowed AloneInChunk s₁ (.kmalloc 16 0x200000) := ⟨by decide, hf₁⟩
  have hp₂ : Placed _ _ _ ([_] ++ [_]) _ bs₂ p₂ := hp₂
  obtain ⟨ho₂, hbs₂, rfl⟩ := hp₂.splits_last (by decide) (by decide)
  subst hbs₂
  have hlive : (0x100048, 16) ∈ s₂.live := by
    rw [hl₂, hl₁]
    exact .tail _ (.head _)
  have hfirst : s₂.heap.mem 0x100048 = 0 :=
    (hfr₂ 0x100048 (by decide) (by decide)).trans ((hfr₁ 0x100048 (by decide) (by decide)).trans (hm₀ (by decide)))
  have hbehind : s₂.heap.mem 0x1000b8 = 0 :=
    (hfr₂ 0x1000b8 (by decide) (by decide)).trans ((hfr₁ 0x1000b8 (by decide) (by decide)).trans (hm₀ (by decide)))
  have run : Run.Steps (Step memcpyAt) (Allowed AloneInChunk) (initial 0x100000 0x4000 fun _ => 0) s₂ :=
    .step (.step (.refl _) ha₁ ⟨f₁, hr₁⟩) ha₂ ⟨f₂, hr₂⟩
  exact ⟨s₂, hs₂, hlive, ho₂.trans ho₁, hfirst, hbehind, run⟩

-- Its owner has written a byte into the first of the two.
theorem exists_written {addr : Nat} (v : BitVec 8) (hlo : 0x100048 ≤ addr) (hhi : addr < 0x100058) : ∃ s,
    Holds s twoBlocks ∧ (0x100048, 16) ∈ s.live ∧ s.owned = [(0x100000, 0x104000)] ∧ s.heap.mem addr = v ∧
    (addr ≠ 0x100048 → s.heap.mem 0x100048 = 0) ∧ s.heap.mem 0x1000b8 = 0 ∧
    Run.Steps (Step memcpyAt) (Allowed AloneInChunk) (initial 0x100000 0x4000 fun _ => 0) s := by
  obtain ⟨s, hs, hlive, ho, hfirst, hbehind, run⟩ := exists_twoBlocks
  have ha : Allowed AloneInChunk s (.write addr v) := .inl ⟨_, hlive, hlo, hhi⟩
  refine ⟨_, hs.write ha, hlive, ho, Function.update_self .., fun hne => ?_, ?_, run.step ha ⟨0, rfl⟩⟩
  · exact (Function.update_of_ne hne.symm _ _).trans hfirst
  · exact (Function.update_of_ne (by omega) _ _).trans hbehind

theorem fresh_twoBlocks (ho : owned = [(0x100000, 0x104000)]) (hn : n < 2 ^ 32) : Fresh owned 0x200000 n :=
  ho ▸ fresh_firstChunk hn

theorem header_twoBlocks (hs : Holds s twoBlocks) : allocated s.heap.mem 0x100028 = 16 ∧ free s.heap.mem 0x100028 = 0 ∧
    ∃ h', krealloc memcpyAt (fun _ => 0x200000) 0 0x100048 8 s.heap = .ok (0x100048, h') := by
  let b : Block := { (firstBlock 0x100000 0x4000).rest 16 with free := 0 }
  have hs : Holds s ([{ firstBlock 0x100000 0x4000 with free := 0 }] ++
      b :: [((firstBlock 0x100000 0x4000).rest 16).rest 16]) := hs
  have hb := hs.chain.seg.at
  have hk : krealloc memcpyAt (fun _ => 0x200000) 0 (b.addr + 32) 8 s.heap = .ok (b.addr + 32, _) :=
    krealloc_resize hb (by decide) (by decide) (by decide)
  exact ⟨hb.allocated, hb.free, _, hk⟩

-- When the first of the two is made larger, it is moved behind the second one.
theorem krealloc_twoBlocks (hs : Holds s twoBlocks) (ho : s.owned = [(0x100000, 0x104000)]) :
    Goes s.heap 0x200000 64 0x1000b8 ∧
      ∃ fuel q h', krealloc memcpyAt (fun _ => 0x200000) fuel 0x100048 64 s.heap = .ok (q, h') := by
  let a : Block := { firstBlock 0x100000 0x4000 with free := 0 }
  let b : Block := { (firstBlock 0x100000 0x4000).rest 16 with free := 0 }
  let c : Block := ((firstBlock 0x100000 0x4000).rest 16).rest 16
  constructor
  case left =>
    have hc : Chain s.heap s.owned ([a, b] ++ c :: []) := hs.chain
    have hff : FirstFit s.heap.mem 64 (firstAddr twoBlocks 0) c.addr :=
      hc.seg.firstFit (fun x hx => hc.addr_pos hx) (by decide) (by decide)
    have hcc := hc.seg.at
    have hnew : newUnalignedBlock s.heap.mem c.addr = 0x100098 := by
      rw [newUnalignedBlock, maxAllocPtr, hcc.allocated]
      rfl
    rw [show firstAddr twoBlocks 0 = s.heap.startBlock from hs.chain.start] at hff
    have hgo : Goes s.heap 0x200000 64 _ := .split hff
    rwa [hnew] at hgo
  case right =>
    have hf : Fresh s.owned 0x200000 (extendSize (64 + 40)) := fresh_twoBlocks ho (by decide)
    have hb : Holds s ([a] ++ b :: [c]) := hs
    have hnb : NotBorder s.heap.mem b.addr := hb.notBorder rfl
    obtain ⟨r, hk⟩ : ∃ r, kmallocInt (fun _ => 0x200000) twoBlocks.length 64 false s.heap = .ok r :=
      hs.chain.kmallocInt_ok (by decide) (by decide) hf rfl
    have hs' : Holds s ([] ++ a :: b :: [c]) := hs
    obtain ⟨_, hrun, _⟩ := hs'.moved memcpyAt_writesInside (by decide) hf (by decide) hnb.aloneInChunk hk
    obtain ⟨⟨q, h'⟩, hk, _⟩ := Except.bind_ok_iff.mp hrun
    exact ⟨_, q, h', hk⟩

end Example

end RoverOS.Kheap
