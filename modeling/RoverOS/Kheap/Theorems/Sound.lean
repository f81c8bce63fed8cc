import RoverOS.Kheap.Theorems.Live
import RoverOS.Libc.String

-- Whatever callers do, without freeing or moving the first block of a chunk, the chain of blocks
-- tiles the chunks and what the callers hold does not overlap.

open Bytes (Memory load store load_store load_store_of_apart)

namespace RoverOS.Kheap

variable {memcpy : Memory → Nat → Nat → Nat → Memory} {s s' : State} {bs : List Block} {op : Op}

section Step

theorem blockFromPtr_data {a : Nat} : blockFromPtr (a + 32) = a :=
  Nat.add_sub_cancel ..

theorem kmallocInt_of_run {a b : Block} {n sz chunk fuel : Nat} (hb : Header s.heap.mem b a.addr n)
    (hlt : b.allocated + b.free < sz) (hl : 40 + b.allocated + b.free < 2 ^ 32)
    (hr : (Op.krealloc (b.addr + 32) sz chunk).run memcpy fuel s = .ok s') :
    ∃ r, kmallocInt (fun _ => chunk) fuel sz false s.heap = .ok r := by
  have ⟨_, hk, _⟩ := Except.bind_ok_iff.mp hr
  rw [krealloc_move hb (by omega) hlt] at hk
  have ⟨r, hk, _⟩ := Except.bind_ok_iff.mp hk
  exact ⟨r, hk⟩

theorem Holds.write {P : Memory → Nat → Prop} {addr : Nat} {v : BitVec 8} (hs : Holds s bs)
    (ha : Allowed P s (.write addr v)) :
    Holds { s with heap := { s.heap with mem := Function.update s.heap.mem addr v } } bs := by
  refine ⟨hs.chain.write fun i hi => ?_, hs.live⟩
  have hia : i = addr := by
    by_contra hne
    exact hi (Function.update_of_ne hne _ _)
  subst hia
  cases ha
  case inl ha =>
    have ⟨x, hx, hl, hu⟩ := ha
    have ⟨b, hb, hd⟩ := List.mem_map.mp (hs.live.subset hx)
    subst hd
    exact .inl ⟨b, List.mem_of_mem_tail hb, hl, hu⟩
  case inr ha => exact .inr ha

-- Every allowed call returns, and keeps what the callers hold in step with the blocks.
theorem Holds.step (hs : Holds s bs) (hm : WritesInside memcpy) (ha : Allowed AloneInChunk s op) :
    (∃ fuel s', op.run memcpy fuel s = .ok s') ∧
      ∀ fuel s', op.run memcpy fuel s = .ok s' → ∃ bs', Holds s' bs' := by
  cases op
  case kmalloc sz chunk =>
    have ⟨hsz, hf⟩ := ha
    refine ⟨hs.kmalloc_ok hsz hf, fun fuel s' hr => ?_⟩
    cases Nat.eq_zero_or_pos sz
    case inl h0 =>
      subst h0
      exact ⟨bs, run_kmalloc_zero hr ▸ hs⟩
    case inr hpos =>
      have ⟨bs', _, _, _, hs'⟩ := hs.kmalloc hsz hf hpos hr
      exact ⟨bs', hs'⟩
  case krealloc ptr sz chunk =>
    have ⟨hp, hsz, hf, hgo⟩ := ha
    have ⟨pre, a, b, post, hbs, hptr⟩ := hs.exists_block hp
    subst hbs hptr
    have happ : pre ++ a :: b :: post = (pre ++ [a]) ++ b :: post := by simp
    have hb := (happ ▸ hs.chain).seg.at
    rw [lastAddr_concat] at hb
    rw [blockFromPtr_data, hb.allocated, hb.free] at hgo
    cases Nat.lt_or_ge (b.allocated + b.free) sz
    case inl hlt =>
      have hpos : 0 < sz := by omega
      have ⟨r, hk⟩ : ∃ r, kmallocInt (fun _ => chunk) _ sz false s.heap = .ok r :=
        hs.chain.kmallocInt_ok hpos hsz hf rfl
      have ⟨s₁, hr₁, _⟩ := hs.moved hm hsz hf hlt (hgo hlt) hk
      refine ⟨⟨_, s₁, hr₁⟩, fun fuel s' hr => ?_⟩
      have ⟨r', hk'⟩ := kmallocInt_of_run hb hlt (hs.chain.size_lt (by simp)) hr
      have ⟨s₂, hr₂, hs₂⟩ := hs.moved hm hsz hf hlt (hgo hlt) hk'
      rw [hr] at hr₂
      cases hr₂
      exact hs₂
    case inr hle =>
      have ⟨s₁, hr₁, _, hs₁⟩ : ∃ s', (∀ fuel, (Op.krealloc (b.addr + 32) sz chunk).run memcpy fuel s =
          .ok s') ∧ s'.owned = s.owned ∧ Holds s' (pre ++ a :: b.resized sz :: post) := hs.krealloc_kept hle
      refine ⟨⟨0, s₁, hr₁ 0⟩, fun fuel s' hr => ?_⟩
      rw [hr₁ fuel] at hr
      cases hr
      exact ⟨_, hs₁⟩
  case kfree ptr =>
    have ⟨hp, hgo⟩ := ha
    have ⟨pre, a, b, post, hbs, hptr⟩ := hs.exists_block hp
    subst hbs hptr
    rw [blockFromPtr_data] at hgo
    have hk (fuel : Nat) : ∃ s', (Op.kfree (b.addr + 32)).run memcpy fuel s = .ok s' ∧
        s'.owned = b.leaves s.owned ∧ Holds s' (pre ++ a.freed b :: post) := hs.kfree hgo
    have ⟨s₁, hr₁, _⟩ := hk 0
    refine ⟨⟨0, s₁, hr₁⟩, fun fuel s' hr => ?_⟩
    have ⟨s₂, hr₂, _, hs₂⟩ := hk fuel
    rw [hr] at hr₂
    cases hr₂
    exact ⟨_, hs₂⟩
  case write addr v =>
    refine ⟨⟨0, _, rfl⟩, fun fuel s' hr => ?_⟩
    cases hr
    exact ⟨bs, hs.write ha⟩

end Step

section Initial

variable {heapStart size : Nat} {m : Memory}

-- The first block, with all of the initial heap free.
def firstBlock (heapStart size : Nat) : Block :=
  ⟨heapStart, 0, size - 40, false, (heapStart, heapStart + size)⟩

variable (hpos : 0 < heapStart) (hmin : 40 ≤ size) (hmax : size < 2 ^ 32)
  (hend : heapStart + size ≤ 2 ^ 64)
include hpos hmin hmax hend

omit hpos hend in
theorem initKmalloc_header :
    Header (initKmalloc heapStart size m).mem (firstBlock heapStart size) 0 0 := by
  have hfree : freeData heapStart (heapStart + size) 0 = size - 40 := by
    rw [freeData_eq (by omega) (by omega)]
    omega
  have hr {m : Memory} (h : allocated m heapStart = 0) : redzoneOffset m heapStart = heapStart + 32 := by
    rw [redzoneOffset, h]
    rfl
  rw [initKmalloc, hfree]
  dsimp only
  rw [setRedzone, hr]
  rotate_left
  · simp (disch := omega) only [allocated, setAllocated, setFree, setChunkBorder, setPrev, setNext,
      load_store_of_apart, load_store]
  constructor
  case border =>
    simp only [firstBlock]
    rw [chunkBorder_store (by omega), setNext, chunkBorder_store (by omega), setPrev,
      chunkBorder_store (by omega), chunkBorder_setChunkBorder]
  case redzone => exact load_store (by decide)
  all_goals
    simp (disch := omega) only [magic, allocated, free, prev, next, firstBlock, kheapMagic, setMagic,
      setAllocated, setFree, setChunkBorder, setPrev, setNext, load_store_of_apart, load_store]

theorem holds_initial : Holds (initial heapStart size m) [firstBlock heapStart size] where
  live  := .refl _
  chain := by
    have hfin : (firstBlock heapStart size).fin = heapStart + size := by
      simp only [firstBlock, Block.fin, Block.used]
      omega
    refine ⟨⟨initKmalloc_header hmin hmax, trivial⟩, ?_, rfl, by simp, by simp [firstBlock]⟩
    refine ⟨?_, ?_, List.pairwise_singleton .., .singleton _, List.pairwise_singleton ..⟩
    · exact List.forall_mem_singleton.mpr ⟨hpos, by dsimp only; omega, hend⟩
    · refine List.forall_mem_singleton.mpr ⟨.head _, le_rfl, hfin.le, ?_, fun hb => absurd hb Bool.false_ne_true⟩
      simp only [Block.extent, hfin]
      simp only [firstBlock]
      omega

end Initial

section Sound

variable {h : Kheap} {owned : List (Nat × Nat)}

-- The blocks tile their chunks, their links fit together, and the live data does not overlap.
structure Sound (s : State) : Prop where
  tiles : ∀ b, Reaches s.heap b → b ≠ s.heap.startBlock → chunkBorder s.heap.mem b = false →
    b = maxTotalPtr s.heap.mem (prev s.heap.mem b)
  next  : ∀ b, Reaches s.heap b → next s.heap.mem b ≠ 0 → prev s.heap.mem (next s.heap.mem b) = b
  prev  : ∀ b, Reaches s.heap b → b ≠ s.heap.startBlock →
    Reaches s.heap (prev s.heap.mem b) ∧ Kheap.next s.heap.mem (prev s.heap.mem b) = b
  apart : s.live.Pairwise fun x y => x.fst + x.snd ≤ y.fst ∨ y.fst + y.snd ≤ x.fst

-- `vmalloc` is not asked while a block is large enough.
def ExtendsLast (memcpy : Memory → Nat → Nat → Nat → Memory) (h : Kheap) : Prop :=
  ∀ sz < 2 ^ 31, (∃ b, Reaches h b ∧ sz + 40 ≤ free h.mem b) → ∀ vmalloc vmalloc' fuel,
    kmallocInt vmalloc fuel sz false h = kmallocInt vmalloc' fuel sz false h ∧
    ∀ ptr, krealloc memcpy vmalloc fuel ptr sz h = krealloc memcpy vmalloc' fuel ptr sz h

theorem Header.maxTotalPtr {m : Memory} {b : Block} {p n : Nat} (hb : Header m b p n) :
    maxTotalPtr m b.addr = b.fin := by
  have hu : b.addr + 40 + b.allocated = b.used := rfl
  have hf : b.used + b.free = b.fin := rfl
  rw [Kheap.maxTotalPtr, hb.free, hb.allocated, kheapBlockDataSz]
  omega

-- A block other than the first one, with the one before it.
theorem Chain.exists_pair (hc : Chain h owned bs) {x : Nat} (hr : Reaches h x)
    (hx : x ≠ h.startBlock) : ∃ pre a b post, bs = pre ++ a :: b :: post ∧ b.addr = x := by
  have ⟨pre, b, post, hbs, hb⟩ := hc.exists_of_reaches hr
  cases pre using List.reverseRecOn
  case nil =>
    rw [hbs] at hc
    exact absurd (hb.symm.trans hc.start) hx
  case append_singleton pre a _ => exact ⟨pre, a, b, post, by simp [hbs], hb⟩

theorem Chain.prev_eq {pre post : List Block} {a b : Block} (hc : Chain h owned (pre ++ a :: b :: post)) :
    prev h.mem b.addr = a.addr := by
  have happ : pre ++ a :: b :: post = (pre ++ [a]) ++ b :: post := by simp
  have hb := (happ ▸ hc).seg.at.prev
  rwa [lastAddr_concat] at hb

theorem Holds.sound (hs : Holds s bs) : Sound s where
  tiles x hr hx hbd := by
    have ⟨pre, a, b, post, hbs, hb⟩ := hs.chain.exists_pair hr hx
    subst hbs hb
    have happ : pre ++ a :: b :: post = (pre ++ [a]) ++ b :: post := by simp
    have hb := (happ ▸ hs.chain).seg.at
    rw [hb.border] at hbd
    rw [hs.chain.prev_eq, hs.chain.seg.at.maxTotalPtr]
    exact (hs.chain.follows hbd).left
  next x hr hn := by
    have ⟨pre, a, post, hbs, ha⟩ := hs.chain.exists_of_reaches hr
    subst hbs ha
    rw [hs.chain.seg.at.next] at hn ⊢
    cases post
    case nil  => exact absurd rfl hn
    case cons => exact hs.chain.prev_eq
  prev x hr hx := by
    have ⟨pre, a, b, post, hbs, hb⟩ := hs.chain.exists_pair hr hx
    subst hbs hb
    rw [hs.chain.prev_eq]
    exact ⟨hs.chain.reaches_append, hs.chain.seg.at.next⟩
  apart := by
    refine hs.live.symm.pairwise (List.pairwise_map.mpr ?_) Or.symm
    refine (hs.chain.clear.sublist (List.tail_sublist bs)).imp fun {b c} ha => ?_
    have hb : b.addr + 40 + b.allocated = b.used := rfl
    have hc : c.addr + 40 + c.allocated = c.used := rfl
    rw [Clear] at ha
    simp only [Block.data]
    omega

theorem Chain.newBlock_congr (hc : Chain h owned bs) {sz fuel : Nat} {b : Block} (hb : b ∈ bs)
    (hsz : sz < 2 ^ 31) (hf : sz + 40 ≤ b.free) (vmalloc vmalloc' : Nat → Nat) :
    newBlock vmalloc fuel sz false h = newBlock vmalloc' fuel sz false h := by
  have hcsz : u64 (sz + 8 + kheapBlockDataSz) = sz + 40 :=
    u64_of_lt (by rw [kheapBlockDataSz]; omega)
  rw [newBlock, newBlock, hcsz]
  cases hs : search h.mem (sz + 40) false fuel h.startBlock
  case error => simp only [bind, Except.bind]
  case ok r =>
    obtain ⟨blk, found⟩ := r
    have hr : Searched (sz + 40) bs blk found :=
      search_searched hc.seg (fun b hb => hc.addr_pos hb) hc.ne (hc.start ▸ hs)
    have hfound : found = true := by
      cases hr
      case found       => rfl
      case last _ _ hl => exact absurd (hl b hb) (Nat.not_lt_of_le hf)
    simp only [hfound, bind, Except.bind, Bool.false_eq_true, false_and, if_false, if_true]

theorem Holds.extendsLast (hs : Holds s bs) : ExtendsLast memcpy s.heap := by
  intro sz hsz ⟨x, hr, hf⟩ vmalloc vmalloc' fuel
  have ⟨pre, b, post, hbs, hb⟩ := hs.chain.exists_of_reaches hr
  subst hbs hb
  rw [hs.chain.seg.at.free] at hf
  have hk : kmallocInt vmalloc fuel sz false s.heap = kmallocInt vmalloc' fuel sz false s.heap := by
    rw [kmallocInt, kmallocInt, hs.chain.newBlock_congr (by simp) hsz hf vmalloc vmalloc']
  refine ⟨hk, fun ptr => ?_⟩
  rw [krealloc, krealloc, hk]

end Sound

section Runs

variable {P Q : Memory → Nat → Prop}

theorem Allowed.imp (hi : ∀ m b, P m b → Q m b) (ha : Allowed P s op) : Allowed Q s op := by
  cases op
  case kmalloc  => exact ha
  case krealloc =>
    have ⟨hp, hsz, hf, hgo⟩ := ha
    exact ⟨hp, hsz, hf, fun hlt => hi _ _ (hgo hlt)⟩
  case kfree    => exact ⟨ha.left, hi _ _ ha.right⟩
  case write    => exact ha

theorem NotBorder.aloneInChunk {m : Memory} {b : Nat} (h : NotBorder m b) : AloneInChunk m b :=
  fun hb => absurd (h.symm.trans hb) Bool.false_ne_true

variable {heapStart size : Nat} {m : Memory} (hm : WritesInside memcpy) (hpos : 0 < heapStart)
  (hmin : 40 ≤ size) (hmax : size < 2 ^ 32) (hend : heapStart + size ≤ 2 ^ 64)
include hm hpos hmin hmax hend

theorem holds_of_steps (hi : ∀ m b, P m b → AloneInChunk m b)
    (h : Run.Steps (Step memcpy) (Allowed P) (initial heapStart size m) s) :
    ∃ bs, Holds s bs := by
  refine h.invariant (I := fun s => ∃ bs, Holds s bs) ⟨_, holds_initial hpos hmin hmax hend⟩ ?_
  intro s op s' ⟨bs, hs⟩ ha ⟨fuel, hr⟩
  exact (hs.step hm (ha.imp hi)).right fuel s' hr

theorem steps_sound (h : Run.Steps (Step memcpy) (Allowed NotBorder) (initial heapStart size m) s) :
    Sound s ∧ (∀ op, Allowed NotBorder s op → ∃ s', Step memcpy s op s') ∧
      ExtendsLast memcpy s.heap := by
  have ⟨bs, hs⟩ := holds_of_steps hm hpos hmin hmax hend (fun _ _ => NotBorder.aloneInChunk) h
  refine ⟨hs.sound, fun op ha => ?_, hs.extendsLast⟩
  have ⟨fuel, s', hr⟩ := (hs.step hm (ha.imp fun _ _ => NotBorder.aloneInChunk)).left
  exact ⟨s', fuel, hr⟩

end Runs

section Example

-- The C library's `memcpy` in the heap's memory.
def memcpyAt (m : Memory) (dest src len : Nat) : Memory := fun i =>
  if i < dest then m i else Libc.memcpy (fun j => m (dest + j)) (fun j => m (src + j)) len (i - dest)

theorem memcpyAt_writesInside : WritesInside memcpyAt := by
  intro m dest src len i hi
  rw [memcpyAt]
  split
  case isTrue  => rfl
  case isFalse =>
    rw [Libc.memcpy_apply, if_neg (by omega), Nat.add_sub_cancel' (by omega)]

theorem fresh_firstChunk {bytes : Nat} (hb : bytes < 2 ^ 32) :
    Fresh [(0x100000, 0x104000)] 0x200000 bytes :=
  ⟨by decide, by omega, List.forall_mem_singleton.mpr (.inl (by decide))⟩

theorem Placed.splits_last {sz chunk ptr : Nat} {owned owned' : List (Nat × Nat)} {pre bs' : List Block} {b : Block}
    (hp : Placed sz chunk owned (pre ++ [b]) owned' bs' ptr) (hpre : ∀ c ∈ pre, c.free < sz + 40)
    (hb : sz + 40 ≤ b.free) :
    owned' = owned ∧ bs' = pre ++ [{ b with free := 0 }, b.rest sz] ∧ ptr = b.used + 32 := by
  cases hp
  case extend hl => exact absurd (hl b (by simp)) (Nat.not_lt_of_le hb)
  case split pre' post c hbs _ hf =>
    cases post using List.reverseRecOn
    case nil =>
      obtain ⟨rfl, he⟩ := List.append_inj' hbs rfl
      cases he
      exact ⟨rfl, rfl, rfl⟩
    case append_singleton post d _ =>
      rw [← List.cons_append, ← List.append_assoc] at hbs
      obtain ⟨rfl, _⟩ := List.append_inj' hbs rfl
      exact absurd (hpre c (by simp)) (Nat.not_lt_of_le hf)

theorem Holds.kmalloc_last {pre : List Block} {b : Block} {sz : Nat} (hs : Holds s (pre ++ [b]))
    (hpre : ∀ c ∈ pre, c.free < sz + 40) (hb : sz + 40 ≤ b.free) (hpos : 0 < sz) (hsz : sz < 2 ^ 31)
    (ho : s.owned = [(0x100000, 0x104000)]) {P : Memory → Nat → Prop} :
    ∃ s', Allowed P s (.kmalloc sz 0x200000) ∧ Step memcpyAt s (.kmalloc sz 0x200000) s' ∧
      s'.live = (b.used + 32, sz) :: s.live ∧ s'.owned = [(0x100000, 0x104000)] ∧
      Holds s' (pre ++ [{ b with free := 0 }, b.rest sz]) := by
  have hf : Fresh s.owned 0x200000 (extendSize (sz + 40)) := ho ▸ fresh_firstChunk (u32_lt _)
  have hrun : ∃ fuel s', (Op.kmalloc sz 0x200000).run memcpyAt fuel s = .ok s' := hs.kmalloc_ok hsz hf
  obtain ⟨fuel, s', hr⟩ := hrun
  obtain ⟨bs', ptr, hp, hl, hs'⟩ := hs.kmalloc hsz hf hpos hr
  obtain ⟨ho', hbs, hptr⟩ := hp.splits_last hpre hb
  subst hbs hptr
  exact ⟨s', ⟨hsz, hf⟩, ⟨fuel, hr⟩, hl, ho'.trans ho, hs'⟩

theorem Holds.notBorder {pre post : List Block} {b : Block} (hs : Holds s (pre ++ b :: post)) (hb : b.border = false) :
    NotBorder s.heap.mem b.addr :=
  hs.chain.seg.at.border.trans hb

theorem Holds.held {ptr : Nat} (hs : Holds s bs) (hp : ptr ∈ bs.tail.map fun b => b.data.fst) :
    ptr ∈ s.live.map Prod.fst := by
  rw [(hs.live.map Prod.fst).mem_iff, List.map_map]
  exact hp

-- Three calls of `kmalloc`: blocks of 16, 24 and 8 bytes behind the first one.
def block₁ : Block := { (firstBlock 0x100000 0x4000).rest 16 with free := 0 }
def block₂ : Block := { ((firstBlock 0x100000 0x4000).rest 16).rest 24 with free := 0 }
def block₃ : Block := (((firstBlock 0x100000 0x4000).rest 16).rest 24).rest 8

theorem exists_threeBlocks (P : Memory → Nat → Prop) : ∃ s,
    Run.Steps (Step memcpyAt) (Allowed P) (initial 0x100000 0x4000 fun _ => 0) s ∧
      s.live = [(0x1000c0, 8), (0x100080, 24), (0x100048, 16)] ∧ s.owned = [(0x100000, 0x104000)] ∧
      Holds s [{ firstBlock 0x100000 0x4000 with free := 0 }, block₁, block₂, block₃] := by
  let a : Block := { firstBlock 0x100000 0x4000 with free := 0 }
  have hs₀ : Holds (initial 0x100000 0x4000 fun _ => 0) ([] ++ [firstBlock 0x100000 0x4000]) :=
    holds_initial (by decide) (by decide) (by decide) (by decide)
  obtain ⟨s₁, ha₁, hr₁, hl₁, ho₁, hs₁⟩ := hs₀.kmalloc_last (P := P) (by decide) (by decide : 16 + 40 ≤ _)
    (by decide) (by decide) rfl
  have hs₁ : Holds s₁ ([a] ++ [(firstBlock 0x100000 0x4000).rest 16]) := hs₁
  obtain ⟨s₂, ha₂, hr₂, hl₂, ho₂, hs₂⟩ := hs₁.kmalloc_last (P := P) (by decide) (by decide : 24 + 40 ≤ _)
    (by decide) (by decide) ho₁
  have hs₂ : Holds s₂ ([a, block₁] ++ [((firstBlock 0x100000 0x4000).rest 16).rest 24]) := hs₂
  obtain ⟨s₃, ha₃, hr₃, hl₃, ho₃, hs₃⟩ := hs₂.kmalloc_last (P := P) (by decide) (by decide : 8 + 40 ≤ _)
    (by decide) (by decide) ho₂
  refine ⟨s₃, .step (.step (.step (.refl _) ha₁ hr₁) ha₂ hr₂) ha₃ hr₃, ?_, ho₃, hs₃⟩
  rw [hl₃, hl₂, hl₁]
  rfl

-- The second block is made smaller, the third is freed, and the first is moved.
theorem exists_calls {P : Memory → Nat → Prop} (hP : ∀ m b, NotBorder m b → P m b) : ∃ s₃ s₄ s₅ s,
    Run.Steps (Step memcpyAt) (Allowed P) (initial 0x100000 0x4000 fun _ => 0) s ∧
      s₃.live = [(0x1000c0, 8), (0x100080, 24), (0x100048, 16)] ∧
      Step memcpyAt s₃ (.krealloc 0x100080 16 0x200000) s₄ ∧ Step memcpyAt s₄ (.kfree 0x1000c0) s₅ ∧
      allocated s₅.heap.mem 0x100028 + free s₅.heap.mem 0x100028 < 64 ∧
      Step memcpyAt s₅ (.krealloc 0x100048 64 0x200000) s := by
  obtain ⟨s₃, run, hlive, ho₃, hs₃⟩ := exists_threeBlocks P
  let a : Block := { firstBlock 0x100000 0x4000 with free := 0 }
  have hf {s : State} {bytes : Nat} (ho : s.owned = [(0x100000, 0x104000)]) :
      Fresh s.owned 0x200000 (extendSize bytes) := ho ▸ fresh_firstChunk (u32_lt _)
  -- There is room for the 16 bytes where the 24 are.
  have hs₃ : Holds s₃ ([a] ++ block₁ :: block₂ :: [block₃]) := hs₃
  have hb₃ : Holds s₃ ([a, block₁] ++ block₂ :: [block₃]) := hs₃
  have ha₄ : Allowed P s₃ (.krealloc 0x100080 16 0x200000) :=
    ⟨hs₃.held (by decide), by decide, hf ho₃, fun _ => hP _ _ (hb₃.notBorder rfl)⟩
  have hkept : ∃ s', (∀ fuel, (Op.krealloc 0x100080 16 0x200000).run memcpyAt fuel s₃ = .ok s') ∧
      s'.owned = s₃.owned ∧ Holds s' ([a] ++ block₁ :: block₂.resized 16 :: [block₃]) := hs₃.krealloc_kept (by decide)
  obtain ⟨s₄, hr₄, ho₄, hs₄⟩ := hkept
  -- The third block becomes free memory of the second.
  have hs₄ : Holds s₄ ([a, block₁] ++ block₂.resized 16 :: block₃ :: []) := hs₄
  have hb₄ : Holds s₄ ([a, block₁, block₂.resized 16] ++ block₃ :: []) := hs₄
  have hnb₄ : NotBorder s₄.heap.mem 0x1000a0 := hb₄.notBorder rfl
  have ha₅ : Allowed P s₄ (.kfree 0x1000c0) := ⟨hs₄.held (by decide), hP _ _ hnb₄⟩
  have hfreed : ∃ s', (Op.kfree 0x1000c0).run memcpyAt 0 s₄ = .ok s' ∧ s'.owned = block₃.leaves s₄.owned ∧
      Holds s' ([a, block₁] ++ (block₂.resized 16).freed block₃ :: []) := hs₄.kfree hnb₄.aloneInChunk
  obtain ⟨s₅, hr₅, ho₅, hs₅⟩ := hfreed
  have ho₅ : s₅.owned = [(0x100000, 0x104000)] := ho₅.trans (ho₄.trans ho₃)
  -- Nothing is free behind the first one.
  have hs₅ : Holds s₅ ([] ++ a :: block₁ :: [(block₂.resized 16).freed block₃]) := hs₅
  have hb₅ : Holds s₅ ([a] ++ block₁ :: [(block₂.resized 16).freed block₃]) := hs₅
  have hnb₅ : NotBorder s₅.heap.mem 0x100028 := hb₅.notBorder rfl
  have hsmall : allocated s₅.heap.mem block₁.addr + free s₅.heap.mem block₁.addr = 16 := by
    have hh := hb₅.chain.seg.at
    rw [hh.allocated, hh.free]
    rfl
  have ha : Allowed P s₅ (.krealloc 0x100048 64 0x200000) :=
    ⟨hs₅.held (by decide), by decide, hf ho₅, fun _ => hP _ _ hnb₅⟩
  have hgrown : ∃ r, kmallocInt (fun _ => 0x200000) 3 64 false s₅.heap = .ok r :=
    hs₅.chain.kmallocInt_ok (by decide) (by decide) (hf ho₅) rfl
  obtain ⟨r, hk⟩ := hgrown
  obtain ⟨s, hr, _⟩ := hs₅.moved memcpyAt_writesInside (by decide) (hf ho₅) (by decide) hnb₅.aloneInChunk hk
  exact ⟨s₃, s₄, s₅, s, .step (.step (.step run ha₄ ⟨0, hr₄ 0⟩) ha₅ ⟨0, hr₅⟩) ha ⟨3, hr⟩, hlive, ⟨0, hr₄ 0⟩,
    ⟨0, hr₅⟩, lt_of_eq_of_lt hsmall (by decide), ⟨3, hr⟩⟩

theorem steps_sound_kmalloc : ∃ s₃ s₄ s₅ s, s₃.live = [(0x1000c0, 8), (0x100080, 24), (0x100048, 16)] ∧
    Step memcpyAt s₃ (.krealloc 0x100080 16 0x200000) s₄ ∧ Step memcpyAt s₄ (.kfree 0x1000c0) s₅ ∧
    allocated s₅.heap.mem 0x100028 + free s₅.heap.mem 0x100028 < 64 ∧
    Step memcpyAt s₅ (.krealloc 0x100048 64 0x200000) s ∧ Sound s ∧ ExtendsLast memcpyAt s.heap := by
  obtain ⟨s₃, s₄, s₅, s, run, hlive, h₄, h₅, hsmall, h⟩ := exists_calls fun _ _ hb => hb
  have ⟨hsound, _, hext⟩ := steps_sound memcpyAt_writesInside (by decide) (by decide) (by decide) (by decide) run
  exact ⟨s₃, s₄, s₅, s, hlive, h₄, h₅, hsmall, h, hsound, hext⟩

end Example

end RoverOS.Kheap
