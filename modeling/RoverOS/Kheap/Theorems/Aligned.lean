import RoverOS.Kheap.Theorems.Sound

-- The aligned path of `kmallocInt` splits a block, but leaves the new block out of the chain.

open Bytes (Memory load store load_store load_store_of_apart)

namespace RoverOS.Kheap

variable {memcpy : Memory → Nat → Nat → Nat → Memory} {h : Kheap} {m : Memory} {s : State}
  {owned : List (Nat × Nat)} {bs pre post : List Block} {b c : Block} {p n sz csz fuel blk : Nat}

section Search

-- What is missing to the page boundary behind the block's redzone.
def Block.offset (b : Block) : Nat := 0x1000 - b.used % 0x1000

theorem alignmentOffset_eq (hh : Header m b p n) : alignmentOffset m b.addr = b.offset := by
  have hu : b.addr + b.allocated + 32 + 8 = b.used := by
    rw [Block.used]
    omega
  rw [alignmentOffset, maxAllocPtr, hh.allocated, kheapBlockDataSz, hu]
  rfl

theorem search_aligned_cons (hh : Header m b p n) :
    search m csz true (fuel + 1) b.addr =
      if b.offset < 32 then search m csz true fuel b.addr
      else if u64 (csz + b.offset) ≤ b.free then .ok (b.addr, true)
      else if n = 0 then .ok (b.addr, false) else search m csz true fuel n := by
  simp [search, checkMagic, hh.magic, hh.free, hh.next, alignmentOffset_eq hh, kheapBlockDataSz, bind,
    Except.bind, pure, Except.pure]

theorem search_aligned (hs : Seg m p bs 0) (hp : ∀ b ∈ bs, 0 < b.addr) (hne : bs ≠ [])
    (h : search m csz true fuel (firstAddr bs 0) = .ok (blk, true)) :
    ∃ pre b post, bs = pre ++ b :: post ∧ blk = b.addr ∧ 32 ≤ b.offset ∧
      u64 (csz + b.offset) ≤ b.free := by
  induction fuel generalizing bs p
  case zero => cases h
  case succ fuel hi =>
    obtain ⟨b, post, hb⟩ := List.exists_cons_of_ne_nil hne
    subst hb
    rw [firstAddr, search_aligned_cons hs.left] at h
    split at h
    case isTrue => exact hi hs hp hne h
    case isFalse hoff =>
      split at h
      case isTrue hf =>
        cases h
        exact ⟨[], b, post, rfl, rfl, Nat.le_of_not_lt hoff, hf⟩
      case isFalse =>
        cases post
        case nil => cases h
        case cons c post =>
          have hn : firstAddr (c :: post) 0 ≠ 0 := Nat.ne_of_gt (hp c (.tail _ (.head _)))
          rw [if_neg hn] at h
          obtain ⟨pre, x, post', hbs, hx⟩ := hi hs.right (fun x hx => hp x (.tail _ hx)) (List.cons_ne_nil _ _) h
          exact ⟨b :: pre, x, post', by rw [hbs]; rfl, hx⟩

end Search

section Split

-- The header before the next page boundary.
def Block.alignedBlock (b : Block) : Nat := b.used + b.offset - 32

-- The memory with the links of the new block, before its sizes are corrected.
def linkAligned (m : Memory) (b : Block) (free sz n : Nat) : Memory :=
  let m := setAllocated (setFree m b.alignedBlock free) b.alignedBlock sz
  setNext (setPrev m b.alignedBlock b.addr) b.alignedBlock n

theorem splitAligned_eq (hh : Header m b p n) (hoff : 32 ≤ b.offset) (hn : n < 2 ^ 64) :
    ∃ f f', splitAligned m b.addr sz = (b.alignedBlock,
      setFree (relink (linkAligned m b f sz n) n b.alignedBlock) b.addr f') := by
  have hnb : b.used ≤ b.alignedBlock := by
    rw [Block.alignedBlock]
    omega
  have hu := b.addr_lt_used
  have hbase : maxAllocPtr m b.addr + 8 = b.used := by
    rw [maxAllocPtr, hh.allocated, kheapBlockDataSz, Block.used]
    omega
  have hblk : maxAllocPtr m b.addr + 8 + alignmentOffset m b.addr - kheapBlockDataSz =
      b.alignedBlock := by
    rw [hbase, alignmentOffset_eq hh]
    rfl
  have hn₁ {f : Nat} : next (setPrev (setAllocated (setFree m b.alignedBlock f) b.alignedBlock sz)
      b.alignedBlock b.addr) b.addr = n := by
    rw [← hh.next]
    simp (disch := omega) only [next, setAllocated, setFree, setPrev, load_store_of_apart]
  have hn₂ {f : Nat} : next (linkAligned m b f sz n) b.addr = n := by
    rw [← hn₁ (f := f), linkAligned]
    exact load_store_of_apart (by omega)
  have hn₃ {f : Nat} : next (linkAligned m b f sz n) b.alignedBlock = n := load_store hn
  simp only [linkAligned] at hn₂ hn₃ ⊢
  simp only [splitAligned, hblk, hn₁, hn₂, hn₃]
  exact ⟨_, _, rfl⟩

-- The new block knows the one before it, which still has its old successor.
theorem splitAligned_links (hc : Chain h owned (pre ++ b :: post)) (hoff : 32 ≤ b.offset)
    (hf : sz + 40 + b.offset ≤ b.free) :
    ∃ m', splitAligned h.mem b.addr sz = (b.alignedBlock, m') ∧
      prev (finish m' b.alignedBlock) b.alignedBlock = b.addr ∧
      next (finish m' b.alignedBlock) b.addr = firstAddr post 0 := by
  have happ : pre ++ b :: post = (pre ++ [b]) ++ post := by simp
  have hn : firstAddr post 0 < 2 ^ 64 := (happ ▸ hc).firstAddr_lt
  have hba := hc.addr_lt (b := b) (by simp)
  have hfu : b.used + b.free = b.fin := rfl
  have hu := b.addr_lt_used
  have hnb : b.used ≤ b.alignedBlock ∧ b.alignedBlock + 40 ≤ b.fin := by
    rw [Block.alignedBlock]
    omega
  have ⟨f, f', he⟩ := @splitAligned_eq _ _ _ _ sz hc.seg.at hoff hn
  have hx : firstAddr post 0 ≠ 0 → b.fin ≤ firstAddr post 0 ∨ firstAddr post 0 + 32 ≤ b.addr := by
    intro hne
    cases post
    case nil      => exact absurd rfl hne
    case cons c _ =>
      have ha := hc.apart_behind (c := c) (.head _)
      have hc := c.used_le_fin
      have hcu := c.addr_lt_used
      simp only [Extent.Apart, Block.extent] at ha
      simp only [firstAddr]
      omega
  have hh := hc.seg.at.next
  refine ⟨_, he, ?_, ?_⟩
  · rw [prev, load_finish (by omega) (by omega), setFree, load_store_of_apart (by omega), relink]
    split
    case isTrue hne =>
      have hx := hx hne
      simp (disch := omega) only [linkAligned, setPrev, setNext, load_store_of_apart, load_store]
    case isFalse =>
      simp (disch := omega) only [linkAligned, setPrev, setNext, load_store_of_apart, load_store]
  · rw [next, load_finish (by omega) (by omega), setFree, load_store_of_apart (by omega), relink]
    refine Eq.trans ?_ hh
    split
    case isTrue hne =>
      have hx := hx hne
      simp (disch := omega) only [next, linkAligned, setFree, setAllocated, setPrev, setNext,
        load_store_of_apart]
    case isFalse =>
      simp (disch := omega) only [next, linkAligned, setFree, setAllocated, setPrev, setNext,
        load_store_of_apart]

end Split

section Unsound

-- What callers do later with `kmalloc` and `kfree`, sparing the first blocks of chunks.
def Later (s : State) : Op → Prop
  | .kmalloc sz chunk => Allowed NotBorder s (.kmalloc sz chunk)
  | .kfree ptr        => Allowed NotBorder s (.kfree ptr)
  | _                 => False

-- The new block has its place in the chain, with `sz` bytes in a chunk of the heap.
structure AlignedSound (memcpy : Memory → Nat → Nat → Nat → Memory) (s : State) (h : Kheap)
    (ptr sz : Nat) : Prop where
  inside  : ∃ c ∈ s.owned, c.fst ≤ blockFromPtr ptr ∧ ptr + sz + 8 ≤ c.snd
  reaches : Reaches h (blockFromPtr ptr)
  linked  : next h.mem (prev h.mem (blockFromPtr ptr)) = blockFromPtr ptr
  border  : chunkBorder h.mem (blockFromPtr ptr) = false
  apart   : ∀ s', Run.Steps (Step memcpy) Later ⟨h, (ptr, sz) :: s.live, s.owned⟩ s' →
    s'.live.Pairwise fun x y => x.fst + x.snd ≤ y.fst ∨ y.fst + y.snd ≤ x.fst

variable {vmalloc : Nat → Nat}

theorem Chain.kmallocInt_aligned (hc : Chain h owned (pre ++ b :: post)) (hpos : 0 < sz)
    (hoff : 32 ≤ b.offset)
    (hs : search h.mem (u64 (sz + 8 + kheapBlockDataSz)) true fuel h.startBlock = .ok (b.addr, true)) :
    kmallocInt vmalloc fuel sz true h = .ok (b.alignedBlock + 32, { h with
      mem := finish (splitAligned h.mem b.addr sz).snd b.alignedBlock }) := by
  have happ : pre ++ b :: post = (pre ++ [b]) ++ post := by simp
  have hn : firstAddr post 0 < 2 ^ 64 := (happ ▸ hc).firstAddr_lt
  have ⟨f, f', he⟩ := @splitAligned_eq _ _ _ _ sz hc.seg.at hoff hn
  rw [kmallocInt, if_neg (Nat.ne_of_gt hpos), newBlock, hs]
  simp only [bind, Except.bind, hc.seg.at.checks.right, and_self, if_true, he, pure, Except.pure]
  rfl

-- The block before the new one has another block behind it.
theorem Chain.not_linked (hc : Chain h owned (pre ++ b :: post)) (hoff : 32 ≤ b.offset)
    (hf : sz + 40 + b.offset ≤ b.free) {m' : Memory}
    (hm : m' = finish (splitAligned h.mem b.addr sz).snd b.alignedBlock) :
    next m' (prev m' b.alignedBlock) ≠ b.alignedBlock := by
  have ⟨m₁, hm₁, hprev, hnext⟩ := splitAligned_links hc hoff hf
  have hb : b.used ≤ b.alignedBlock ∧ b.alignedBlock < b.fin := by
    have hfu : b.used + b.free = b.fin := rfl
    rw [Block.alignedBlock]
    omega
  have hu := b.addr_lt_used
  rw [hm, hm₁, hprev, hnext]
  cases post
  case nil =>
    rw [firstAddr]
    omega
  case cons c post =>
    have hac := hc.apart_behind (c := c) (.head _)
    have hcf := c.used_le_fin
    have hcu := c.addr_lt_used
    simp only [Extent.Apart, Block.extent] at hac
    rw [firstAddr]
    omega

-- Whenever the aligned path is taken, the new block is not in the chain.
theorem kmallocAligned_unsound (hc : Chain s.heap s.owned bs) (hpos : 0 < sz)
    (hs : search s.heap.mem (u64 (sz + 8 + kheapBlockDataSz)) true fuel s.heap.startBlock =
      .ok (blk, true)) :
    ∃ ptr h', kmallocInt vmalloc fuel sz true s.heap = .ok (ptr, h') ∧
      ¬AlignedSound memcpy s h' ptr sz := by
  have ⟨pre, b, post, hbs, hblk, hoff, hf⟩ := search_aligned hc.seg (fun b hb => hc.addr_pos hb) hc.ne
    (hc.start ▸ hs)
  subst hbs hblk
  refine ⟨_, _, hc.kmallocInt_aligned hpos hoff hs, fun ha => ?_⟩
  have hba := hc.addr_pos (b := b) (by simp)
  have hu : b.addr + 40 + b.allocated = b.used := rfl
  by_cases hw : sz + 40 + b.offset < 2 ^ 64
  case neg =>
    -- sizes that wrap around do not fit into any chunk
    have ⟨c, hm, _, hh⟩ := ha.inside
    have hle := (hc.layout.chunks c hm).right.right
    rw [Block.alignedBlock] at hh
    omega
  case pos =>
    have hcsz : u64 (sz + 8 + 32) = sz + 40 := u64_of_lt (by omega)
    rw [kheapBlockDataSz, hcsz, u64_of_lt (by omega)] at hf
    have hl := ha.linked
    rw [blockFromPtr_data] at hl
    exact hc.not_linked hoff hf rfl hl

section Example

theorem search_first : search (initKmalloc 0x10000 0x4000 fun _ => 0).mem
    (u64 (0x100 + 8 + kheapBlockDataSz)) true 1 0x10000 = .ok (0x10000, true) := by
  have hh : Header (initKmalloc 0x10000 0x4000 fun _ => 0).mem (firstBlock 0x10000 0x4000) 0 0 :=
    initKmalloc_header (by decide) (by decide)
  exact (search_aligned_cons hh).trans (by decide)

theorem kmallocAligned_unsound_first : ∃ ptr h',
    kmallocInt (fun _ => 0) 1 0x100 true (initKmalloc 0x10000 0x4000 fun _ => 0) = .ok (ptr, h') ∧
      ¬AlignedSound memcpyAt (initial 0x10000 0x4000 fun _ => 0) h' ptr 0x100 := by
  have hs : Holds (initial 0x10000 0x4000 fun _ => 0) [firstBlock 0x10000 0x4000] :=
    holds_initial (by decide) (by decide) (by decide) (by decide)
  exact kmallocAligned_unsound hs.chain (by decide) search_first

-- The new block at 0x10fe0 is not the next one of the first block.
theorem kmallocAligned_not_linked : ∃ h',
    kmallocInt (fun _ => 0) 1 0x100 true (initKmalloc 0x10000 0x4000 fun _ => 0) =
      .ok (0x11000, h') ∧ next h'.mem (prev h'.mem 0x10fe0) ≠ 0x10fe0 ∧
      ¬AlignedSound memcpyAt (initial 0x10000 0x4000 fun _ => 0) h' 0x11000 0x100 := by
  have hs : Holds (initial 0x10000 0x4000 fun _ => 0) ([] ++ [firstBlock 0x10000 0x4000]) :=
    holds_initial (by decide) (by decide) (by decide) (by decide)
  have hn := @Chain.not_linked _ _ _ _ _ 0x100 hs.chain (by decide) (by decide) _ rfl
  refine ⟨_, hs.chain.kmallocInt_aligned (by decide) (by decide) search_first, hn, fun ha => ?_⟩
  exact hn ha.linked

end Example

end Unsound

end RoverOS.Kheap
