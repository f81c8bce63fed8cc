import RoverOS.Kheap.Theorems.Kmalloc

-- `kfreeInt` gives a block's memory to the one before it, or the whole chunk back.

open Bytes (Memory load store)

namespace RoverOS.Kheap

variable {h : Kheap} {m : Memory} {owned : List (Nat × Nat)} {bs pre post : List Block}
  {a b c : Block} {p q n : Nat}

-- The block before `b` when `b` is freed.
def Block.freed (a b : Block) : Block :=
  if b.border then a else { a with free := a.free + (32 + b.allocated + b.free + 8) }

-- The size of the block before `b` is written, unless `b` is a border.
def writeFreed (m : Memory) (a b : Block) : Memory :=
  if b.border then m else setFree m a.addr (a.freed b).free

theorem kfreeInt_eq (ha : Header h.mem a p b.addr) (hb : Header h.mem b a.addr n)
    (hab : Clear a b) : kfreeInt (b.addr + 32) h = .ok { h with
      mem := setMagic (relink (setNext (writeFreed h.mem a b) a.addr n) n a.addr) b.addr 0 } := by
  have hp : blockFromPtr (b.addr + 32) = b.addr := Nat.add_sub_cancel ..
  have hfree : (if b.border = true then h.mem else setFree h.mem a.addr
      (a.free + (kheapBlockDataSz + b.allocated + b.free + 8))) = writeFreed h.mem a b := by
    rw [writeFreed, Block.freed]
    cases b.border <;> rfl
  have hb₁ : Header (writeFreed h.mem a b) b a.addr n := by
    rw [writeFreed]
    split
    case isTrue  => exact hb
    case isFalse => exact hb.store_header hab (Nat.le_add_right ..) (by omega)
  have hb₂ : Header (setNext (writeFreed h.mem a b) a.addr n) b a.addr n :=
    hb₁.store_header hab (Nat.le_add_right ..) (by omega)
  have ⟨hm, hr⟩ := hb.checks
  simp only [kfreeInt, hp, hm, hr, bind, Except.bind, hb.border, hb.prev, hb.allocated, hb.free,
    ha.free, hfree, hb₁.next, hb₂.next, hb₂.prev, relink]
  rfl

theorem Block.freed_addr : (a.freed b).addr = a.addr := by
  rw [freed]
  split <;> rfl

theorem Block.freed_allocated : (a.freed b).allocated = a.allocated := by
  rw [freed]
  split <;> rfl

theorem Block.freed_clear (h : Clear a c) : Clear (a.freed b) c := by
  rw [freed]
  split <;> exact h

theorem Seg.writeFreed (h : Seg m p (pre ++ [a]) q) (ha : ∀ c ∈ pre, Clear a c)
    (hf : (a.freed b).free < 2 ^ 32) : Seg (writeFreed m a b) p (pre ++ [a.freed b]) q := by
  rw [Block.freed] at hf ⊢
  rw [Kheap.writeFreed, Block.freed]
  cases hb : b.border
  case true  => exact h
  case false =>
    rw [hb] at hf
    exact h.setFree ha hf

theorem Seg.writeFreed_other (h : Seg m p bs q) (ha : ∀ c ∈ bs, Clear a c) :
    Seg (Kheap.writeFreed m a b) p bs q := by
  rw [Kheap.writeFreed]
  split
  case isTrue  => exact h
  case isFalse => exact h.store_header ha (Nat.le_add_right ..) (by omega)

section Freed

variable (hc : Chain h owned (pre ++ a :: b :: post))
include hc

-- A block that is not a border begins where the one before it ends.
theorem Chain.follows (hb : b.border = false) : b.addr = a.fin ∧ b.chunk = a.chunk := by
  have hf := hc.layout.follows
  rw [List.map_append] at hf
  have ⟨_, hab, _⟩ := List.isChain_append.mp hf
  exact (List.isChain_cons_cons.mp hab).left hb

theorem Chain.freed_free_lt : (a.freed b).free < 2 ^ 32 := by
  have ha := hc.size_lt (b := a) (by simp)
  rw [Block.freed]
  split
  case isTrue => omega
  case isFalse hb =>
    have ⟨haddr, hch⟩ := hc.follows (by simpa using hb)
    have hia := hc.inside (b := a) (by simp)
    have hib := hc.inside (b := b) (by simp)
    have hlo : a.chunk.fst ≤ a.addr := hia.lo
    have hhi : b.fin ≤ a.chunk.snd := hch ▸ hib.hi
    have hlen := (hc.layout.chunks _ hia.owned).right.left
    have hfa : a.addr + 40 + a.allocated + a.free = a.fin := rfl
    have hfb : b.addr + 40 + b.allocated + b.free = b.fin := rfl
    simp only [Block.extent] at hlen
    dsimp only
    omega

theorem Chain.kfreeInt_seg : ∃ m', kfreeInt (b.addr + 32) h = .ok { h with mem := m' } ∧
    Seg m' 0 (pre ++ a.freed b :: post) 0 := by
  have happ : pre ++ a :: b :: post = (pre ++ [a]) ++ b :: post := by simp
  have happ' : pre ++ a.freed b :: post = (pre ++ [a.freed b]) ++ post := by simp
  have ha := hc.seg.at
  have hf := hc.freed_free_lt
  have hpos : ∀ c ∈ post, 0 < c.addr := fun c hm => hc.addr_pos (by simp [hm])
  have haddr : a.addr < 2 ^ 64 := hc.addr_lt (by simp)
  rw [happ] at hc
  have hn : firstAddr post 0 < 2 ^ 64 := by
    rw [List.append_cons] at hc
    exact hc.firstAddr_lt
  have ⟨h₁, hbs⟩ := seg_append.mp hc.seg
  have ⟨hb, h₂⟩ := hbs
  have ⟨hp₁, hp₂, hpp⟩ := List.pairwise_append.mp hc.clear
  have ⟨hbpost, hpost⟩ := List.pairwise_cons.mp hp₂
  have ⟨_, _, hpa⟩ := List.pairwise_append.mp hp₁
  have hpa : ∀ c ∈ pre, Clear a c := fun c hm => (hpa c hm a (.head _)).symm
  have hab : Clear a b := hpp a (by simp) b (.head _)
  have hapost : ∀ c ∈ post, Clear a c := fun c hm => hpp a (by simp) c (.tail _ hm)
  have freed_pre {c : Block} (hac : Clear c a) (hpc : ∀ x ∈ pre, Clear c x) :
      ∀ x ∈ pre ++ [a.freed b], Clear c x :=
    List.forall_mem_append.mpr ⟨hpc, List.forall_mem_singleton.mpr (Block.freed_clear hac.symm).symm⟩
  have hbpre : ∀ x ∈ pre ++ [a.freed b], Clear b x :=
    freed_pre hab.symm fun x hx => (hpp x (by simp [hx]) b (.head _)).symm
  have hpostpre : ∀ x ∈ pre ++ [a.freed b], ∀ c ∈ post, Clear c x := fun x hx c hm =>
    freed_pre (hapost c hm).symm (fun y hy => (hpp y (by simp [hy]) c (.tail _ hm)).symm) x hx
  rw [lastAddr_concat] at hb
  refine ⟨_, kfreeInt_eq ha hb hab, ?_⟩
  have hl : Seg (setNext (writeFreed h.mem a b) a.addr (firstAddr post 0)) 0 (pre ++ [a.freed b])
      (firstAddr post 0) := by
    have hs := (h₁.writeFreed hpa hf).setNext (fun c hm => Block.freed_clear (hpa c hm)) hn
    rwa [Block.freed_addr] at hs
  have hr : Seg (setNext (writeFreed h.mem a b) a.addr (firstAddr post 0)) b.addr post 0 :=
    (h₂.writeFreed_other hapost).store_header hapost (Nat.le_add_right ..) (by omega)
  rw [happ']
  refine seg_append.mpr ⟨?_, ?_⟩
  · exact (hl.relink_other hpostpre).store_header hbpre le_rfl (by omega)
  · rw [lastAddr_concat, Block.freed_addr]
    exact (hr.relink hpos hpost haddr).store_header hbpost le_rfl (by omega)

-- The chunks that are left when `b` is freed.
def Block.leaves (b : Block) (owned : List (Nat × Nat)) : List (Nat × Nat) :=
  if b.border then owned.filter (·.fst ≠ b.addr) else owned

theorem Chain.freed_layout (hb : b.border = true → ∀ c ∈ post.head?, c.border = true) :
    Layout (b.leaves owned) ((pre ++ a.freed b :: post).map Block.extent) := by
  have hl := hc.layout
  rw [Block.leaves, Block.freed]
  rw [List.map_append, List.map_cons, List.map_cons] at hl
  rw [List.map_append, List.map_cons]
  cases hbb : b.border
  case true =>
    have hp : ∀ c ∈ (post.map Block.extent).head?, c.border = true := by
      intro c hm
      rw [List.head?_map] at hm
      have ⟨x, hx, hc⟩ := Option.map_eq_some_iff.mp hm
      exact hc ▸ hb hbb x hx
    exact hl.drop hbb hp
  case false =>
    have haddr := (hc.follows hbb).left
    have hfin : Block.fin { a with free := a.free + (32 + b.allocated + b.free + 8) } = b.fin := by
      simp only [Block.fin, Block.used] at haddr ⊢
      omega
    have he : Block.extent { a with free := a.free + (32 + b.allocated + b.free + 8) } =
        { a.extent with hi := b.extent.hi } :=
      congrArg (fun x => (⟨a.addr, x, a.border, a.chunk⟩ : Extent)) hfin
    simp only [Bool.false_eq_true, if_false, he]
    exact hl.merge hbb

theorem Chain.kfreeInt_spec (hb : b.border = true → ∀ c ∈ post.head?, c.border = true) :
    ∃ h', kfreeInt (b.addr + 32) h = .ok h' ∧
      Chain h' (b.leaves owned) (pre ++ a.freed b :: post) := by
  have ⟨m', hk, hs⟩ := hc.kfreeInt_seg
  refine ⟨_, hk, hs, hc.freed_layout hb, ?_, by simp, ?_⟩
  · rw [← hc.start]
    cases pre
    case nil  => exact Block.freed_addr
    case cons => rfl
  · have hbd := hc.border
    cases pre
    case nil =>
      have ha : a.border = false := hbd a rfl
      intro c hm
      cases hm
      rw [Block.freed]
      split <;> exact ha
    case cons => exact hbd

end Freed

end RoverOS.Kheap
