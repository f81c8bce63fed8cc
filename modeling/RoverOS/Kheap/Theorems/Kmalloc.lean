import RoverOS.Kheap.Theorems.Chain

-- `kmallocInt` without alignment: a block is split, or a chunk is appended.

open Bytes (Memory load store load_congr load_store load_store_of_apart)

namespace RoverOS.Kheap

-- The header of a new block, before its magic and its redzone are written.
structure Fields (m : Memory) (b : Block) (p n : Nat) : Prop where
  allocated : allocated m b.addr = b.allocated
  free      : free m b.addr = b.free
  border    : chunkBorder m b.addr = b.border
  prev      : prev m b.addr = p
  next      : next m b.addr = n

variable {h : Kheap} {m : Memory} {owned : List (Nat × Nat)} {bs pre post : List Block}
  {b c : Block} {p n a k v sz : Nat}

theorem Fields.store (h : Fields m b p n) (ha : a + k ≤ b.addr ∨ b.addr + 32 ≤ a) :
    Fields (store m a k v) b p n where
  allocated := (load_store_of_apart (by omega)).trans h.allocated
  free      := (load_store_of_apart (by omega)).trans h.free
  border    := (chunkBorder_store (by omega)).trans h.border
  prev      := (load_store_of_apart (by omega)).trans h.prev
  next      := (load_store_of_apart (by omega)).trans h.next

-- The end of `kmallocInt`.
def finish (m : Memory) (nblock : Nat) : Memory :=
  setMagic (setRedzone m nblock) nblock kheapMagic

-- The end of `kmallocInt` changes the magic and what is behind the header.
theorem load_finish {nblock : Nat} (h₁ : a + k ≤ nblock ∨ nblock + 2 ≤ a)
    (h₂ : a + k ≤ nblock + 32) : load (finish m nblock) a k = load m a k := by
  have hr : nblock + 32 ≤ redzoneOffset m nblock := by
    rw [redzoneOffset, kheapBlockDataSz]
    omega
  rw [finish, setMagic, load_store_of_apart (by omega), setRedzone, load_store_of_apart (by omega)]

theorem Fields.finish (h : Fields m b p n) : Header (finish m b.addr) b p n := by
  have hr : redzoneOffset m b.addr = b.addr + 32 + b.allocated := by
    rw [redzoneOffset, h.allocated, kheapBlockDataSz, Nat.add_assoc]
  rw [Kheap.finish, setRedzone, hr, setMagic]
  refine ⟨load_store (by decide), ?_, ?_, ?_, ?_, ?_, ?_⟩
  · exact (load_store_of_apart (by omega)).trans <| (load_store_of_apart (by omega)).trans h.allocated
  · exact (load_store_of_apart (by omega)).trans <| (load_store_of_apart (by omega)).trans h.free
  · exact (chunkBorder_store (by omega)).trans <| (chunkBorder_store (by omega)).trans h.border
  · exact (load_store_of_apart (by omega)).trans <| (load_store_of_apart (by omega)).trans h.prev
  · exact (load_store_of_apart (by omega)).trans <| (load_store_of_apart (by omega)).trans h.next
  · exact (load_store_of_apart (by omega)).trans <| load_store (by decide)

theorem Seg.finish {q : Nat} (h : Seg m a bs q) (hb : Fields m b p n) (ha : ∀ c ∈ bs, Clear b c) :
    Seg (finish m b.addr) a bs q := by
  have hr : redzoneOffset m b.addr = b.addr + 32 + b.allocated := by
    rw [redzoneOffset, hb.allocated, kheapBlockDataSz, Nat.add_assoc]
  have hu : b.addr + 40 + b.allocated = b.used := rfl
  rw [Kheap.finish, setRedzone, hr]
  refine (h.store_apart fun c hc => ?_).store_header ha (by omega) (by omega)
  exact (ha c hc).imp (by omega) (by omega)

-- A new block takes its place in the chain.
theorem Fields.place (hb : Fields m b (lastAddr p pre) (firstAddr post n))
    (hl : Seg m p pre b.addr) (hr : Seg m b.addr post n) (hpre : ∀ c ∈ pre, Clear b c)
    (hpost : ∀ c ∈ post, Clear b c) : Seg (Kheap.finish m b.addr) p (pre ++ b :: post) n :=
  seg_append.mpr ⟨hl.finish hb hpre, hb.finish, hr.finish hb hpost⟩

section Relink

-- The block that was behind `b` in the chain learns who is before it now.
def relink (m : Memory) (n p : Nat) : Memory :=
  if n ≠ 0 then setPrev m n p else m

variable {p' : Nat}

theorem Seg.relink (h : Seg m p bs 0) (hp : ∀ c ∈ bs, 0 < c.addr) (ha : bs.Pairwise Clear)
    (hp' : p' < 2 ^ 64) : Seg (relink m (firstAddr bs 0) p') p' bs 0 := by
  cases bs
  case nil => trivial
  case cons c bs =>
    have hn : firstAddr (c :: bs) 0 ≠ 0 := Nat.ne_of_gt (hp c (.head _))
    rw [Kheap.relink, if_pos hn]
    exact h.setPrev (List.pairwise_cons.mp ha).left hp'

theorem Seg.relink_other {q : Nat} (h : Seg m p bs q) (ha : ∀ b ∈ bs, ∀ c ∈ post, Clear c b) :
    Seg (Kheap.relink m (firstAddr post 0) p') p bs q := by
  rw [Kheap.relink]
  split
  case isFalse => exact h
  case isTrue hn =>
    cases post
    case nil       => exact absurd rfl hn
    case cons c _  =>
      rw [firstAddr]
      exact h.store_header (fun b hb => ha b hb c (.head _)) (Nat.le_add_right ..) (by omega)

theorem Fields.relink_other (h : Fields m b p n) (ha : ∀ c ∈ post, Clear c b) :
    Fields (Kheap.relink m (firstAddr post 0) p') b p n := by
  rw [Kheap.relink]
  split
  case isFalse => exact h
  case isTrue hn =>
    cases post
    case nil      => exact absurd rfl hn
    case cons c _ =>
      have ha := ha c (.head _)
      have hb := b.addr_lt_used
      have hc := c.addr_lt_used
      rw [Clear] at ha
      simp only [firstAddr]
      exact h.store (by omega)

end Relink

section Write

-- The header of a new block is written.
def writeFields (m : Memory) (b : Block) (p n : Nat) : Memory :=
  let m := setAllocated m b.addr b.allocated
  let m := setFree m b.addr b.free
  let m := setChunkBorder m b.addr b.border
  let m := setPrev m b.addr p
  setNext m b.addr n

theorem chunkBorder_setChunkBorder {v : Bool} : chunkBorder (setChunkBorder m a v) a = v := by
  rw [chunkBorder, setChunkBorder, load_store (by cases v <;> decide)]
  cases v <;> rfl

theorem writeFields_fields (hs : 40 + b.allocated + b.free < 2 ^ 32) (hp : p < 2 ^ 64)
    (hn : n < 2 ^ 64) : Fields (writeFields m b p n) b p n where
  allocated := by
    simp (disch := omega) only [writeFields, allocated, setAllocated, setFree, setChunkBorder,
      setPrev, setNext, load_store_of_apart, load_store]
  free      := by
    simp (disch := omega) only [writeFields, free, setAllocated, setFree, setChunkBorder,
      setPrev, setNext, load_store_of_apart, load_store]
  border    := by
    rw [writeFields, setNext, setPrev, chunkBorder_store (by omega), chunkBorder_store (by omega),
      chunkBorder_setChunkBorder]
  prev      := by
    simp (disch := omega) only [writeFields, prev, setPrev, setNext, load_store_of_apart, load_store]
  next      := load_store hn

-- The other blocks are as before.
theorem Seg.writeFields {q : Nat} (h : Seg m a bs q) (ha : ∀ c ∈ bs, Clear b c) :
    Seg (writeFields m b p n) a bs q := by
  rw [Kheap.writeFields]
  refine ((((h.store_header ha ?_ ?_).store_header ha ?_ ?_).store_header ha ?_ ?_).store_header
    ha ?_ ?_).store_header ha ?_ ?_ <;> omega

end Write

section Split

-- The end of `b` as a block of its own.
def Block.rest (b : Block) (sz : Nat) : Block := ⟨b.used, sz, b.free - (sz + 40), false, b.chunk⟩

theorem Block.rest_fin (hf : sz + 40 ≤ b.free) : (b.rest sz).fin = b.fin := by
  simp only [rest, fin, used]
  omega

theorem freeData_eq {basePtr maxPtr : Nat} (h : basePtr + (40 + sz) ≤ maxPtr)
    (hd : maxPtr - basePtr < 2 ^ 64) : freeData basePtr maxPtr sz = maxPtr - basePtr - (40 + sz) := by
  have hu : u64 (kheapBlockDataSz + 8 + sz) = 40 + sz := u64_of_lt (by rw [kheapBlockDataSz]; omega)
  rw [freeData, sub64_eq (by omega) hd, hu, sub64_eq (by omega) (by omega)]

theorem split_eq (hh : Header m b p n) (hf : sz + 40 ≤ b.free)
    (hs : 40 + b.allocated + b.free < 2 ^ 32) (hn : n < 2 ^ 64) :
    split m b.addr sz = (b.used, relink (setFree (setNext (writeFields m (b.rest sz) b.addr n)
      b.addr b.used) b.addr 0) n b.used) := by
  have hu : b.addr + 40 + b.allocated = b.used := rfl
  have hfu : b.used + b.free = b.fin := rfl
  have hnb : newUnalignedBlock m b.addr = b.used := by
    rw [newUnalignedBlock, maxAllocPtr, hh.allocated, ← hu, kheapBlockDataSz]
    omega
  have h₁ : Header (setAllocated m b.used sz) b p n := hh.store_apart (.inr (by omega))
  have hmax : maxTotalPtr (setAllocated m b.used sz) b.addr = b.fin := by
    rw [maxTotalPtr, h₁.free, h₁.allocated, ← hfu, ← hu, kheapBlockDataSz]
    omega
  have hfree : freeData b.used b.fin sz = b.free - (sz + 40) := by
    rw [freeData_eq (by omega) (by omega)]
    omega
  have hnext {f : Nat} : next (setPrev (setChunkBorder (setFree (setAllocated m b.used sz) b.used f)
      b.used false) b.used b.addr) b.addr = n := by
    rw [← hh.next]
    simp (disch := omega) only [next, setAllocated, setFree, setChunkBorder, setPrev,
      load_store_of_apart]
  have hnext' : next (setFree (setNext (writeFields m (b.rest sz) b.addr n) b.addr b.used) b.addr 0)
      b.used = n := by
    simp (disch := omega) only [next, setFree, setNext, writeFields, Block.rest, load_store_of_apart,
      load_store]
  simp only [writeFields, Block.rest] at hnext' ⊢
  simp only [split, relink, hnb, hmax, hfree, hnext, hnext']

theorem Block.rest_clear (hf : sz + 40 ≤ b.free) (ha : b.extent.Apart c.extent) :
    Clear (b.rest sz) c := by
  have hc := c.used_le_fin
  have hb := b.addr_lt_used
  have hfu : b.used + b.free = b.fin := rfl
  have hru : (b.rest sz).used = b.used + 40 + sz := rfl
  have hra : (b.rest sz).addr = b.used := rfl
  simp only [Extent.Apart, Block.extent] at ha
  rw [Clear]
  omega

theorem split_spec (hc : Chain h owned (pre ++ b :: post)) (hf : sz + 40 ≤ b.free) :
    ∃ m', split h.mem b.addr sz = (b.used, m') ∧
      Seg (finish m' b.used) 0 (pre ++ { b with free := 0 } :: b.rest sz :: post) 0 := by
  have hs := hc.size_lt (b := b) (by simp)
  have hb := hc.fin_le (b := b) (by simp)
  have hfu : b.used + b.free = b.fin := rfl
  have hbu := b.addr_lt_used
  have happ : pre ++ b :: post = (pre ++ [b]) ++ post := by simp
  have hn : firstAddr post 0 < 2 ^ 64 := by
    rw [happ] at hc
    exact hc.firstAddr_lt
  have hpos : ∀ c ∈ post, 0 < c.addr := fun c hm => hc.addr_pos (by simp [hm])
  have ⟨h₁, h₂⟩ := seg_append.mp (happ ▸ hc.seg)
  have ⟨hpre, hpost, hpp⟩ := List.pairwise_append.mp (happ ▸ hc.clear)
  have ⟨_, _, hpb⟩ := List.pairwise_append.mp hpre
  have hpb : ∀ c ∈ pre, Clear b c := fun c hm => (hpb c hm b (.head _)).symm
  have hpp : ∀ x ∈ pre ++ [b], ∀ c ∈ post, Clear c x := fun x hx c hm => (hpp x hx c hm).symm
  have hbp : ∀ c ∈ post, Clear b c := fun c hm => (hpp b (by simp) c hm).symm
  have hrpre : ∀ x ∈ pre ++ [b], Clear (b.rest sz) x :=
    List.forall_mem_append.mpr ⟨fun c hm => b.rest_clear hf (hc.apart_before hm).symm,
      List.forall_mem_singleton.mpr (.inr le_rfl)⟩
  have hrpost : ∀ c ∈ post, Clear (b.rest sz) c := fun c hm => b.rest_clear hf (hc.apart_behind hm)
  refine ⟨_, split_eq hc.seg.at hf hs hn, ?_⟩
  rw [lastAddr_concat] at h₂
  let m₁ := writeFields h.mem (b.rest sz) b.addr (firstAddr post 0)
  let m₂ := setFree (setNext m₁ b.addr b.used) b.addr 0
  let m₃ := relink m₂ (firstAddr post 0) b.used
  have hrs : 40 + (b.rest sz).allocated + (b.rest sz).free < 2 ^ 32 := by
    simp only [Block.rest]
    omega
  have hf₁ : Fields m₁ (b.rest sz) b.addr (firstAddr post 0) :=
    writeFields_fields hrs (by omega) hn
  have hf₂ : Fields m₂ (b.rest sz) b.addr (firstAddr post 0) :=
    (hf₁.store (.inl (by simp only [Block.rest]; omega))).store
      (.inl (by simp only [Block.rest]; omega))
  have hf₃ : Fields m₃ (b.rest sz) (lastAddr 0 (pre ++ [{ b with free := 0 }])) (firstAddr post 0) := by
    rw [lastAddr_concat]
    exact hf₂.relink_other fun c hm => (hrpost c hm).symm
  have hl : Seg m₂ 0 (pre ++ [{ b with free := 0 }]) b.used :=
    ((h₁.writeFields hrpre).setNext hpb (by omega)).setFree hpb (by decide)
  have hr : Seg m₂ b.addr post 0 :=
    ((h₂.writeFields hrpost).store_header hbp (by omega) (by omega)).store_header hbp (by omega)
      (by omega)
  have hl₃ : Seg m₃ 0 (pre ++ [{ b with free := 0 }]) b.used :=
    hl.relink_other <| List.forall_mem_append.mpr
      ⟨fun x hx => hpp x (by simp [hx]), List.forall_mem_singleton.mpr (hpp b (by simp))⟩
  have hr₃ : Seg m₃ b.used post 0 := hr.relink hpos hpost (by omega)
  have hrpre' : ∀ x ∈ pre ++ [{ b with free := 0 }], Clear (b.rest sz) x :=
    List.forall_mem_append.mpr ⟨fun x hx => hrpre x (by simp [hx]),
      List.forall_mem_singleton.mpr (hrpre b (by simp))⟩
  have happ' : pre ++ { b with free := 0 } :: b.rest sz :: post =
      (pre ++ [{ b with free := 0 }]) ++ b.rest sz :: post := by simp
  rw [happ']
  exact hf₃.place hl₃ hr₃ hrpre' hrpost

end Split

section Append

theorem extendSize_eq {min : Nat} (h : min < 2 ^ 31 + 0x1000) :
    extendSize min = (min / 0x1000 + 5) * 0x1000 := by
  rw [extendSize, u32_of_lt (by omega : min / 0x1000 < 2 ^ 32), u32_of_lt (by omega)]

theorem extendSize_lt {min : Nat} : extendSize min < 2 ^ 32 :=
  u32_lt _

theorem le_extendSize (h : sz < 2 ^ 31) : sz + 40 ≤ extendSize (sz + 40) := by
  rw [extendSize_eq (by omega)]
  omega

-- A chunk as the block that begins it.
def Block.ofChunk (chunk sz : Nat) : Block :=
  ⟨chunk, sz, extendSize (sz + 40) - 40 - sz, true, (chunk, chunk + extendSize (sz + 40))⟩

theorem Block.ofChunk_fin (h : sz + 40 ≤ extendSize (sz + 40)) {chunk : Nat} :
    (ofChunk chunk sz).fin = chunk + extendSize (sz + 40) := by
  simp only [ofChunk, fin, used]
  omega

variable {vmalloc : Nat → Nat} {chunk : Nat} (hv : vmalloc (extendSize (sz + 40)) = chunk)
  (hc : Chain h owned (pre ++ [b])) (hfit : sz + 40 ≤ extendSize (sz + 40))
  (hf : Fresh owned chunk (extendSize (sz + 40)))

include hf hfit

theorem Chain.chunk_clear (hc : Chain h owned bs) (hm : c ∈ bs) : Clear (.ofChunk chunk sz) c := by
  have hi := hc.inside hm
  have ha := hf.apart _ hi.owned
  have hl : c.chunk.fst ≤ c.addr := hi.lo
  have hh : c.fin ≤ c.chunk.snd := hi.hi
  have hx := (Block.ofChunk chunk sz).used_le_fin
  have hu := c.used_le_fin
  rw [Block.ofChunk_fin hfit] at hx
  have he : (Block.ofChunk chunk sz).addr = chunk := rfl
  simp only [Block.extent] at ha
  rw [Clear]
  omega

-- The chunk as `extendHeap` leaves it.
def Block.blank (chunk sz : Nat) : Block :=
  { ofChunk chunk sz with allocated := 0, free := extendSize (sz + 40) - 40 }

omit hfit hf in
theorem Block.blank_clear (h : Clear (.ofChunk chunk sz) c) : Clear (.blank chunk sz) c := by
  have hb : (blank chunk sz).used = chunk + 40 := rfl
  have ho : (ofChunk chunk sz).used = chunk + 40 + sz := rfl
  exact h.imp (le_trans (by omega)) id

-- The links and sizes of the chunk when its first block is carved out.
def append (m : Memory) (block chunk sz : Nat) : Memory :=
  let m := setFree (setAllocated m chunk sz) chunk (extendSize (sz + 40) - 40 - sz)
  setChunkBorder (setPrev (setNext m block chunk) chunk block) chunk true

theorem extend_eq (hv : vmalloc (extendSize (sz + 40)) = chunk) :
    (extendHeap vmalloc (sz + 40) m >>= fun x => appendChunk x.snd b.addr x.fst sz) =
      .ok (chunk, append (writeFields m (.blank chunk sz) 0 0) b.addr chunk sz) := by
  have hlt : extendSize (sz + 40) < 2 ^ 32 := extendSize_lt
  have hn : chunk ≠ 0 := Nat.ne_of_gt hf.pos
  have h40 : sub64 (extendSize (sz + 40)) (kheapBlockDataSz + 8) = extendSize (sz + 40) - 40 :=
    sub64_eq (by rw [kheapBlockDataSz]; omega) (by omega)
  have hx : extendHeap vmalloc (sz + 40) m = .ok (chunk, writeFields m (.blank chunk sz) 0 0) := by
    simp only [extendHeap, hv, if_neg hn, h40, writeFields, Block.blank, Block.ofChunk]
  have hb : Fields (writeFields m (.blank chunk sz) 0 0) (.blank chunk sz) 0 0 :=
    writeFields_fields (by simp only [Block.blank]; omega) (by decide) (by decide)
  have hfree : free (writeFields m (.blank chunk sz) 0 0) chunk = extendSize (sz + 40) - 40 := hb.free
  have hfree' : free (setAllocated (writeFields m (.blank chunk sz) 0 0) chunk sz) chunk =
      extendSize (sz + 40) - 40 := (load_store_of_apart (by omega)).trans hfree
  have hsub : sub64 (extendSize (sz + 40) - 40) sz = extendSize (sz + 40) - 40 - sz :=
    sub64_eq (by omega) (by omega)
  rw [hx]
  simp only [bind, Except.bind, appendChunk, hfree, hfree', hsub, append]
  exact if_pos (by omega)

theorem append_fields (hc : Clear (.ofChunk chunk sz) b) (hb : b.addr < 2 ^ 64) :
    Fields (append (writeFields m (.blank chunk sz) 0 0) b.addr chunk sz) (.ofChunk chunk sz)
      b.addr 0 := by
  have hlt : extendSize (sz + 40) < 2 ^ 32 := extendSize_lt
  have hu := b.addr_lt_used
  have hx := (Block.ofChunk chunk sz).addr_lt_used
  have hle := hf.le
  have hca : (Block.ofChunk chunk sz).addr = chunk := rfl
  rw [Clear] at hc
  constructor
  case allocated =>
    simp (disch := omega) only [append, allocated, setAllocated, setFree, setChunkBorder, setPrev,
      setNext, load_store_of_apart, load_store, Block.ofChunk]
  case free =>
    simp (disch := omega) only [append, free, setFree, setChunkBorder, setPrev, setNext,
      load_store_of_apart, load_store, Block.ofChunk]
  case border => exact chunkBorder_setChunkBorder
  case prev =>
    simp (disch := omega) only [append, prev, setChunkBorder, setPrev, load_store_of_apart, load_store,
      Block.ofChunk]
  case next =>
    simp (disch := omega) only [append, next, setAllocated, setFree, setChunkBorder, setPrev,
      setNext, writeFields, Block.blank, load_store_of_apart, load_store, Block.ofChunk]

theorem append_spec (hc : Chain h owned (pre ++ [b])) :
    Seg (finish (append (writeFields h.mem (.blank chunk sz) 0 0) b.addr chunk sz) chunk) 0
      (pre ++ [b] ++ [.ofChunk chunk sz]) 0 := by
  have hx : ∀ c ∈ pre ++ [b], Clear (.ofChunk chunk sz) c := fun c hm => hc.chunk_clear hfit hf hm
  have hxb : ∀ c ∈ pre ++ [b], Clear (.blank chunk sz) c := fun c hm => Block.blank_clear (hx c hm)
  have hb : b.addr < 2 ^ 64 := hc.addr_lt (by simp)
  have hpb : ∀ c ∈ pre, Clear b c := fun c hm => (hc.apart_before hm).clear.symm
  have hfld : Fields (append (writeFields h.mem (.blank chunk sz) 0 0) b.addr chunk sz)
      (.ofChunk chunk sz) (lastAddr 0 (pre ++ [b])) 0 := by
    rw [lastAddr_concat]
    exact append_fields hfit hf (hx b (by simp)) hb
  have hchunk : chunk < 2 ^ 64 := by
    have := hf.le
    have hlt : extendSize (sz + 40) < 2 ^ 32 := extendSize_lt
    omega
  have hca : (Block.ofChunk chunk sz).addr = chunk := rfl
  have hseg : Seg (append (writeFields h.mem (.blank chunk sz) 0 0) b.addr chunk sz) 0 (pre ++ [b])
      chunk := by
    have h₁ := (hc.seg.writeFields (p := 0) (n := 0) hxb)
    have h₂ := (h₁.store_header (a := chunk + 4) (k := 4) (v := sz) hx
      (by omega) (by omega)).store_header (a := chunk + 8) (k := 4)
      (v := extendSize (sz + 40) - 40 - sz) hx (by omega) (by omega)
    have h₃ := h₂.setNext hpb hchunk
    exact (h₃.store_header hx (by omega) (by omega)).store_header hx (by omega) (by omega)
  have hp : Seg (finish (append (writeFields h.mem (.blank chunk sz) 0 0) b.addr chunk sz)
      (Block.ofChunk chunk sz).addr) 0 (pre ++ [b] ++ [.ofChunk chunk sz]) 0 :=
    hfld.place hseg trivial hx nofun
  exact hp

end Append

section Kmalloc

variable {vmalloc : Nat → Nat} {chunk fuel : Nat}

-- What `kmallocInt` does to the blocks and the chunks, and where the data of the new block is.
inductive Placed (sz chunk : Nat) (owned : List (Nat × Nat)) (bs : List Block) :
    List (Nat × Nat) → List Block → Nat → Prop
  | split {pre post : List Block} {b : Block} : bs = pre ++ b :: post →
    (∀ c ∈ pre, c.free < sz + 40) → sz + 40 ≤ b.free →
    Placed sz chunk owned bs owned (pre ++ { b with free := 0 } :: b.rest sz :: post) (b.used + 32)
  | extend : (∀ c ∈ bs, c.free < sz + 40) →
    Placed sz chunk owned bs ((chunk, chunk + extendSize (sz + 40)) :: owned)
      (bs ++ [.ofChunk chunk sz]) (chunk + 32)

theorem Chain.split (hc : Chain h owned (pre ++ b :: post)) (hf : sz + 40 ≤ b.free) {m : Memory}
    (hs : Seg m 0 (pre ++ { b with free := 0 } :: b.rest sz :: post) 0) :
    Chain { h with mem := m } owned (pre ++ { b with free := 0 } :: b.rest sz :: post) where
  seg    := hs
  layout := by
    have hl := hc.layout
    have hb : (b.rest sz).extent = ⟨b.used, b.fin, false, b.chunk⟩ :=
      congrArg (fun x => (⟨b.used, x, false, b.chunk⟩ : Extent)) (b.rest_fin hf)
    have hb' : Block.extent { b with free := 0 } = { b.extent with hi := b.used } := rfl
    have hlo : b.addr + 40 ≤ b.used := Nat.le_add_right ..
    have hhi : b.used + 40 ≤ b.fin := Nat.add_le_add_left (by omega) _
    rw [List.map_append, List.map_cons] at hl ⊢
    rw [List.map_cons, hb, hb']
    exact hl.split hlo hhi
  start  := by
    rw [← hc.start]
    cases pre <;> rfl
  ne     := by simp
  border := by
    have hb := hc.border
    cases pre <;> simpa using hb

theorem Chain.extend (hc : Chain h owned bs) (hfit : sz + 40 ≤ extendSize (sz + 40))
    (hf : Fresh owned chunk (extendSize (sz + 40))) {m : Memory}
    (hs : Seg m 0 (bs ++ [.ofChunk chunk sz]) 0) :
    Chain { h with mem := m } ((chunk, chunk + extendSize (sz + 40)) :: owned)
      (bs ++ [.ofChunk chunk sz]) where
  seg    := hs
  layout := by
    have hlt : extendSize (sz + 40) < 2 ^ 32 := extendSize_lt
    have he : (Block.ofChunk chunk sz).extent = ⟨chunk, chunk + extendSize (sz + 40), true,
        (chunk, chunk + extendSize (sz + 40))⟩ :=
      congrArg (fun x => (⟨chunk, x, true, (chunk, chunk + extendSize (sz + 40))⟩ : Extent))
        (Block.ofChunk_fin hfit)
    rw [List.map_append, List.map_singleton, he]
    exact hc.layout.extend hf.pos (by omega) (by omega) hf.le hf.apart
  start  := by
    rw [← hc.start]
    have ⟨_, _, h⟩ := List.exists_cons_of_ne_nil hc.ne
    rw [h]
    rfl
  ne     := by simp
  border := by
    have ⟨_, _, h⟩ := List.exists_cons_of_ne_nil hc.ne
    have hb := hc.border
    rw [h] at hb ⊢
    exact hb

theorem Header.redzone_eq (hh : Header m b p n) : Kheap.redzone m b.addr = kheapRedzoneMagic := by
  rw [Kheap.redzone, redzoneOffset, hh.allocated, kheapBlockDataSz, ← Nat.add_assoc]
  exact hh.redzone

theorem Header.checks (hh : Header m b p n) :
    checkMagic m b.addr = .ok () ∧ checkRedzone m b.addr = .ok () :=
  ⟨if_pos hh.magic, if_pos hh.redzone_eq⟩

theorem csz_eq (h : sz + 40 < 2 ^ 64) : u64 (sz + 8 + kheapBlockDataSz) = sz + 40 :=
  u64_of_lt h

theorem Chain.kmallocInt_split (hc : Chain h owned (pre ++ b :: post)) (hpos : 0 < sz)
    (hf : sz + 40 ≤ b.free) (hs : search h.mem (sz + 40) false fuel h.startBlock = .ok (b.addr, true)) :
    kmallocInt vmalloc fuel sz false h =
      .ok (b.used + 32, { h with mem := finish (Kheap.split h.mem b.addr sz).snd b.used }) := by
  have hl := hc.size_lt (b := b) (by simp)
  obtain ⟨m', hm, _⟩ := split_spec hc hf
  rw [kmallocInt, if_neg (Nat.ne_of_gt hpos), newBlock, csz_eq (by omega), hs]
  simp only [bind, Except.bind, hc.seg.at.checks.right, hm]
  rfl

theorem Chain.kmallocInt_extend {align : Bool} (hc : Chain h owned (pre ++ b :: post)) (hpos : 0 < sz)
    (hfit : sz + 40 ≤ extendSize (sz + 40)) (hf : Fresh owned chunk (extendSize (sz + 40)))
    (hv : vmalloc (extendSize (sz + 40)) = chunk)
    (hs : search h.mem (sz + 40) align fuel h.startBlock = .ok (b.addr, false)) :
    kmallocInt vmalloc fuel sz align h = .ok (chunk + 32, { h with
      mem := finish (append (writeFields h.mem (.blank chunk sz) 0 0) b.addr chunk sz) chunk }) := by
  have hlt : extendSize (sz + 40) < 2 ^ 32 := extendSize_lt
  have hx := extend_eq (m := h.mem) (b := b) hfit hf hv
  rw [kmallocInt, if_neg (Nat.ne_of_gt hpos), newBlock, csz_eq (by omega), hs]
  simp only [bind, Except.bind] at hx
  simp only [bind, Except.bind, hc.seg.at.checks.right, Bool.false_eq_true, and_false, if_false, hx]
  rfl

theorem Chain.kmallocInt_of_search {blk : Nat} {found : Bool} (hc : Chain h owned bs) (hpos : 0 < sz)
    (hfit : found = false → sz + 40 ≤ extendSize (sz + 40))
    (hf : Fresh owned chunk (extendSize (sz + 40))) (hv : vmalloc (extendSize (sz + 40)) = chunk)
    (hs : search h.mem (sz + 40) false fuel h.startBlock = .ok (blk, found)) :
    ∃ ptr h' owned' bs', kmallocInt vmalloc fuel sz false h = .ok (ptr, h') ∧
      Placed sz chunk owned bs owned' bs' ptr ∧ Chain h' owned' bs' := by
  have hsrch : Searched (sz + 40) bs blk found :=
    search_searched hc.seg (fun b hb => hc.addr_pos hb) hc.ne (hc.start ▸ hs)
  cases hsrch
  case found pre post b he hp hb =>
    subst he
    obtain ⟨m', hm, hseg⟩ := split_spec hc hb
    have hch := hc.split hb hseg
    exact ⟨_, _, _, _, hc.kmallocInt_split hpos hb hs, .split rfl hp hb, hm ▸ hch⟩
  case last pre b he hp =>
    subst he
    have hfit := hfit rfl
    have hch := hc.extend hfit hf (append_spec hfit hf hc)
    exact ⟨_, _, _, _, hc.kmallocInt_extend hpos hfit hf hv hs, .extend hp, hch⟩

variable (hc : Chain h owned bs) (hpos : 0 < sz) (hsz : sz < 2 ^ 31)
include hc hpos hsz

theorem Chain.kmallocInt_ok (hf : Fresh owned chunk (extendSize (sz + 40)))
    (hv : vmalloc (extendSize (sz + 40)) = chunk) :
    ∃ r, kmallocInt vmalloc bs.length sz false h = .ok r := by
  have ⟨⟨blk, found⟩, hs⟩ : ∃ r, search h.mem (sz + 40) false bs.length (firstAddr bs 0) = .ok r :=
    search_ok hc.seg (fun b hb => hc.addr_pos hb) hc.ne
  rw [hc.start] at hs
  have ⟨_, _, _, _, hk, _⟩ := hc.kmallocInt_of_search hpos (fun _ => le_extendSize hsz) hf hv hs
  exact ⟨_, hk⟩

theorem Chain.kmallocInt_spec {ptr : Nat} {h' : Kheap}
    (hf : Fresh owned chunk (extendSize (sz + 40))) (hv : vmalloc (extendSize (sz + 40)) = chunk)
    (hk : kmallocInt vmalloc fuel sz false h = .ok (ptr, h')) :
    ∃ owned' bs', Placed sz chunk owned bs owned' bs' ptr ∧ Chain h' owned' bs' := by
  have hk' := hk
  rw [kmallocInt, if_neg (Nat.ne_of_gt hpos), newBlock, csz_eq (by omega)] at hk'
  have ⟨_, hn, _⟩ := Except.bind_ok_iff.mp hk'
  have ⟨⟨blk, found⟩, hs, _⟩ := Except.bind_ok_iff.mp hn
  have ⟨ptr', h'', owned', bs', hk'', hp, hc'⟩ := hc.kmallocInt_of_search hpos (fun _ => le_extendSize hsz) hf hv hs
  rw [hk] at hk''
  cases hk''
  exact ⟨owned', bs', hp, hc'⟩

end Kmalloc

section Pointer

variable {vmalloc : Nat → Nat} {align : Bool} {csz fuel ptr chunk nblock : Nat} {h' : Kheap} {m' : Memory}

theorem extendHeap_fst (he : extendHeap vmalloc csz m = .ok (chunk, m')) :
    chunk = vmalloc (extendSize csz) := by
  unfold extendHeap at he
  dsimp only at he
  split at he
  case isTrue  => cases he
  case isFalse => exact (congrArg Prod.fst (Except.ok.inj he)).symm

theorem appendChunk_fst {block : Nat} (hn : appendChunk m block chunk sz = .ok (nblock, m')) :
    nblock = chunk := by
  unfold appendChunk at hn
  split at hn
  case isTrue  => exact (congrArg Prod.fst (Except.ok.inj hn)).symm
  case isFalse => cases hn

theorem newBlock_fst (hn : newBlock vmalloc fuel sz align h = .ok (nblock, m)) :
    ∃ x found, search h.mem (u64 (sz + 8 + kheapBlockDataSz)) align fuel h.startBlock = .ok (x, found) ∧
      nblock = if found then if align then (splitAligned h.mem x sz).fst else newUnalignedBlock h.mem x
        else vmalloc (extendSize (u64 (sz + 8 + kheapBlockDataSz))) := by
  obtain ⟨⟨x, found⟩, hs, hn⟩ := Except.bind_ok_iff.mp hn
  obtain ⟨_, _, hn⟩ := Except.bind_ok_iff.mp hn
  refine ⟨x, found, hs, ?_⟩
  cases found
  case false =>
    rw [if_neg (by simp), if_neg Bool.false_ne_true] at hn
    obtain ⟨⟨chunk, m₁⟩, he, hn⟩ := Except.bind_ok_iff.mp hn
    exact (appendChunk_fst hn).trans (extendHeap_fst he)
  case true => cases align <;> exact (congrArg Prod.fst (Except.ok.inj hn)).symm

-- Where the data of the new block begins.
theorem kmallocInt_ptr (hpos : 1 ≤ sz) (hk : kmallocInt vmalloc fuel sz align h = .ok (ptr, h')) :
    ∃ x found, search h.mem (u64 (sz + 8 + kheapBlockDataSz)) align fuel h.startBlock = .ok (x, found) ∧
      ptr = blockDataPtr (if found then
          if align then (splitAligned h.mem x sz).fst else newUnalignedBlock h.mem x
        else vmalloc (extendSize (u64 (sz + 8 + kheapBlockDataSz)))) := by
  rw [kmallocInt, if_neg (Nat.ne_of_gt hpos)] at hk
  obtain ⟨⟨nblock, m⟩, hn, hk⟩ := Except.bind_ok_iff.mp hk
  obtain ⟨x, found, hs, hnb⟩ := newBlock_fst hn
  have hptr : ptr = blockDataPtr nblock := (congrArg Prod.fst (Except.ok.inj hk)).symm
  exact ⟨x, found, hs, hnb ▸ hptr⟩

end Pointer

end RoverOS.Kheap
