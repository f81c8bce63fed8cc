import RoverOS.Kheap.Theorems.Sound

-- Freeing the first block of a chunk gives the chunk back, and is safe only when nothing else is
-- left in it.

open Bytes (Memory load store)

namespace RoverOS.Kheap

-- What is live is in memory that the heap owns, and the blocks tile their chunks.
structure Intact (s : State) : Prop where
  inside : ∀ x ∈ s.live, ∃ c ∈ s.owned, c.fst ≤ x.fst ∧ x.fst + x.snd ≤ c.snd
  tiles  : ∀ b, Reaches s.heap b → b ≠ s.heap.startBlock → chunkBorder s.heap.mem b = false →
    b = maxTotalPtr s.heap.mem (prev s.heap.mem b)

variable {memcpy : Memory → Nat → Nat → Nat → Memory} {s s' : State} {bs pre post : List Block}
  {a b c : Block}

theorem Holds.intact (hs : Holds s bs) : Intact s where
  inside x hx := by
    have ⟨b, hb, hd⟩ := List.mem_map.mp (hs.live.subset hx)
    have hi := hs.chain.inside (List.mem_of_mem_tail hb)
    have hl : b.chunk.fst ≤ b.addr := hi.lo
    have hh : b.fin ≤ b.chunk.snd := hi.hi
    have hu : b.addr + 40 + b.allocated = b.used := rfl
    have hf := b.used_le_fin
    subst hd
    refine ⟨_, hi.owned, ?_⟩
    simp only [Block.data, Block.extent]
    omega
  tiles := hs.sound.tiles

-- The block behind is left without its chunk.
theorem Holds.not_intact (hs : Holds s (pre ++ a :: b :: post))
    (ha : ¬AloneInChunk s.heap.mem b.addr) {h' : Kheap} {live owned : List (Nat × Nat)}
    (hk : kfreeInt (b.addr + 32) s.heap = .ok h') : ¬Intact ⟨h', live, owned⟩ := by
  intro hi
  have happ : pre ++ a :: b :: post = (pre ++ [a]) ++ b :: post := by simp
  have hc := happ ▸ hs.chain
  rw [hc.aloneInChunk_iff] at ha
  have ⟨hb, c, hcm, hcb⟩ : b.border = true ∧ ∃ c ∈ post.head?, c.border = false := by
    simpa using ha
  cases post
  case nil => cases hcm
  case cons d post =>
    cases hcm
    have hcd : pre ++ a :: b :: c :: post = (pre ++ [a]) ++ b :: c :: post := by simp
    have ⟨m', hk', hseg⟩ := hs.chain.kfreeInt_seg
    have hfreed : a.freed b = a := if_pos hb
    rw [hk] at hk'
    cases hk'
    rw [hfreed] at hseg
    have hseg' : Seg m' 0 ((pre ++ [a]) ++ c :: post) 0 := by simpa using hseg
    have hmem {x : Block} (hx : x ∈ (pre ++ [a]) ++ c :: post) : x ∈ pre ++ a :: b :: c :: post := by
      simp only [List.mem_append, List.mem_cons, List.not_mem_nil, or_false] at hx ⊢
      grind
    -- the block behind is reached, and is not where its predecessor ends
    have hst : firstAddr ((pre ++ [a]) ++ c :: post) 0 = s.heap.startBlock := by
      rw [← hs.chain.start]
      cases pre <;> rfl
    have hreach : Reaches { s.heap with mem := m' } c.addr :=
      hseg'.reaches hst fun x hx => hs.chain.addr_pos (hmem hx)
    have hne : c.addr ≠ s.heap.startBlock := by
      rw [← hst]
      have hac : ∀ x ∈ pre ++ [a], c.addr ≠ x.addr := fun x hx =>
        ((List.pairwise_append.mp hc.apart).right.right x hx c (by simp)).addr_ne.symm
      cases pre
      case nil       => exact hac a (by simp)
      case cons x _  => exact hac x (by simp)
    have hcb' : chunkBorder m' c.addr = false := hseg'.at.border.trans hcb
    have ht := hi.tiles c.addr hreach hne hcb'
    have hprev : prev m' c.addr = a.addr := hseg'.at.prev.trans lastAddr_concat
    have hfin : c.addr = b.fin := (hc.follows hcb).left
    rw [hprev, hseg.at.maxTotalPtr, hfin] at ht
    have hab := (hc.apart_before (a := a) (by simp))
    have ha' := a.used_le_fin
    have hb' := b.used_le_fin
    have hau := a.addr_lt_used
    have hbu := b.addr_lt_used
    simp only [Extent.Apart, Block.extent] at hab
    omega

section Runs

variable {heapStart size : Nat} {m : Memory} {x : Nat × Nat}

end Runs

section Example

-- A heap of one page, extended by seven pages; the second block is carved out of the new chunk.
def extendedBlocks : List Block :=
  [firstBlock 0x100000 0x1000, { Block.ofChunk 0x200000 0x2000 with free := 0 },
    (Block.ofChunk 0x200000 0x2000).rest 0x1000]

theorem Placed.extended {sz chunk ptr : Nat} {owned owned' : List (Nat × Nat)} {bs' : List Block}
    (hp : Placed sz chunk owned bs owned' bs' ptr) (hb : ∀ c ∈ bs, c.free < sz + 40) :
    owned' = (chunk, chunk + extendSize (sz + 40)) :: owned ∧ bs' = bs ++ [.ofChunk chunk sz] ∧
      ptr = chunk + 32 := by
  cases hp
  case split pre post b hbs _ hf =>
    have hlt := hb b (by simp [hbs])
    omega
  case extend => exact ⟨rfl, rfl, rfl⟩

theorem exists_extended (P : Memory → Nat → Prop) : ∃ s, Holds s extendedBlocks ∧
    (0x200020, 0x2000) ∈ s.live ∧
    Run.Steps (Step memcpyAt) (Allowed P) (initial 0x100000 0x1000 fun _ => 0) s := by
  have hs₀ : Holds (initial 0x100000 0x1000 fun _ => 0) [firstBlock 0x100000 0x1000] :=
    holds_initial (by decide) (by decide) (by decide) (by decide)
  have hf₁ : Fresh [(0x100000, 0x101000)] 0x200000 (extendSize (0x2000 + 40)) :=
    ⟨by decide, by decide, by decide⟩
  have ⟨f₁, s₁, hr₁⟩ : ∃ fuel s', (Op.kmalloc 0x2000 0x200000).run memcpyAt fuel
      (initial 0x100000 0x1000 fun _ => 0) = .ok s' := hs₀.kmalloc_ok (by decide) hf₁
  have ⟨bs₁, p₁, hp₁, hl₁, hs₁⟩ := hs₀.kmalloc (by decide) hf₁ (by decide) hr₁
  have ⟨ho₁, hb₁, hptr₁⟩ := hp₁.extended (List.forall_mem_singleton.mpr (by decide))
  subst hb₁ hptr₁
  have hf₂ : Fresh s₁.owned 0x300000 (extendSize (0x1000 + 40)) := by
    rw [ho₁]
    exact ⟨by decide, by decide, by decide⟩
  have ⟨f₂, s₂, hr₂⟩ : ∃ fuel s', (Op.kmalloc 0x1000 0x300000).run memcpyAt fuel s₁ = .ok s' :=
    hs₁.kmalloc_ok (by decide) hf₂
  have ⟨bs₂, p₂, hp₂, hl₂, hs₂⟩ := hs₁.kmalloc (by decide) hf₂ (by decide) hr₂
  have hp₂ : Placed _ _ _ ([_] ++ [_]) _ bs₂ p₂ := hp₂
  have ⟨_, hb₂, _⟩ := hp₂.splits_last (by decide) (by decide)
  subst hb₂
  have hsteps₁ : Run.Steps (Step memcpyAt) (Allowed P) (initial 0x100000 0x1000 fun _ => 0) s₁ :=
    .step (.refl _) (l := Op.kmalloc 0x2000 0x200000) ⟨by decide, hf₁⟩ ⟨f₁, hr₁⟩
  refine ⟨s₂, hs₂, ?_, hsteps₁.step (l := Op.kmalloc 0x1000 0x300000) ⟨by decide, hf₂⟩ ⟨f₂, hr₂⟩⟩
  rw [hl₂, hl₁]
  exact .tail _ (.head _)

theorem extended_not_alone (hs : Holds s extendedBlocks) : ¬AloneInChunk s.heap.mem 0x200000 := by
  have hc : Chain s.heap s.owned ([firstBlock 0x100000 0x1000] ++
      { Block.ofChunk 0x200000 0x2000 with free := 0 } ::
        [(Block.ofChunk 0x200000 0x2000).rest 0x1000]) := hs.chain
  intro ha
  have hb := hc.aloneInChunk_iff.mp ha rfl _ rfl
  cases hb

end Example

end RoverOS.Kheap
