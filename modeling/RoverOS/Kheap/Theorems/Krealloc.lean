import RoverOS.Kheap.Theorems.Kfree

-- `krealloc` moves the border between a block's data and its free bytes, or moves the block. Callers
-- write to their data.

open Bytes (Memory load store load_store load_store_of_apart)

namespace RoverOS.Kheap

variable {h : Kheap} {m m' : Memory} {owned : List (Nat × Nat)} {bs pre post : List Block}
  {a b c : Block} {p q n sz : Nat}

section Resize

def Block.resized (b : Block) (sz : Nat) : Block :=
  { b with allocated := sz, free := b.allocated + b.free - sz }

theorem resize_eq (hh : Header m b p n) (hs : 40 + b.allocated + b.free < 2 ^ 32)
    (hsz : sz ≤ b.allocated + b.free) : resize m b.addr sz =
      store (setAllocated (setFree m b.addr (b.resized sz).free) b.addr sz) (b.addr + 32 + sz) 8
        kheapRedzoneMagic := by
  have ha {v : Nat} : allocated (setFree m b.addr v) b.addr = b.allocated :=
    (load_store_of_apart (by omega)).trans hh.allocated
  have hr {v : Nat} : redzoneOffset (setAllocated (setFree m b.addr v) b.addr sz) b.addr =
      b.addr + 32 + sz := by
    rw [redzoneOffset, allocated, setAllocated, load_store (by omega), kheapBlockDataSz, Nat.add_assoc]
  rw [resize, hh.allocated, hh.free]
  split
  case isTrue hlt =>
    have hd : u32 (sz - b.allocated) = sz - b.allocated := u32_of_lt (by omega)
    have hfree : u32 (b.free + 2 ^ 32 - u32 (sz - b.allocated)) = (b.resized sz).free := by
      rw [hd, u32]
      simp only [Block.resized]
      omega
    have hall : b.allocated + (sz - b.allocated) = sz := by omega
    simp only [hfree, ha, hall, setRedzone, hr]
  case isFalse hge =>
    have hd : u32 (b.allocated - sz) = b.allocated - sz := u32_of_lt (by omega)
    have hfree : b.free + (b.allocated - sz) = (b.resized sz).free := by
      simp only [Block.resized]
      omega
    have hall : u32 (b.allocated + 2 ^ 32 - u32 (b.allocated - sz)) = sz := by
      rw [hd, u32]
      omega
    simp only [hfree, ha, hall, setRedzone, hr]

theorem resize_header (hh : Header m b p n) (hs : 40 + b.allocated + b.free < 2 ^ 32)
    (hsz : sz ≤ b.allocated + b.free) : Header (resize m b.addr sz) (b.resized sz) p n := by
  have hba : (b.resized sz).addr = b.addr := rfl
  have hall : (b.resized sz).allocated = sz := rfl
  have hf : (b.resized sz).free < 2 ^ 32 := by
    simp only [Block.resized]
    omega
  rw [resize_eq hh hs hsz]
  constructor
  case magic =>
    rw [← hh.magic]
    simp (disch := omega) only [hba, magic, setAllocated, setFree, load_store_of_apart]
  case allocated =>
    simp (disch := omega) only [hba, hall, allocated, setAllocated, setFree, load_store_of_apart, load_store]
  case free =>
    simp (disch := omega) only [hba, free, setAllocated, setFree, load_store_of_apart, load_store]
  case border =>
    rw [chunkBorder_store (by omega), setAllocated, chunkBorder_store (by omega), setFree,
      chunkBorder_store (by omega)]
    exact hh.border
  case prev =>
    rw [← hh.prev]
    simp (disch := omega) only [hba, prev, setAllocated, setFree, load_store_of_apart]
  case next =>
    rw [← hh.next]
    simp (disch := omega) only [hba, next, setAllocated, setFree, load_store_of_apart]
  case redzone => exact load_store (by decide)

theorem Seg.resize (hs : Seg m p bs q) (ha : ∀ c ∈ bs, Clear b c)
    (ha' : ∀ c ∈ bs, Clear (b.resized sz) c) {pb nb : Nat} (hh : Header m b pb nb)
    (hl : 40 + b.allocated + b.free < 2 ^ 32) (hsz : sz ≤ b.allocated + b.free) :
    Seg (resize m b.addr sz) p bs q := by
  have hu : (b.resized sz).used = b.addr + 40 + sz := rfl
  have hba : (b.resized sz).addr = b.addr := rfl
  rw [resize_eq hh hl hsz]
  refine ((hs.store_header ha ?_ ?_).store_header ha ?_ ?_).store_apart fun c hc => ?_
  iterate 4 omega
  exact (ha' c hc).imp (by omega) (by omega)

theorem Block.resized_fin (hsz : sz ≤ b.allocated + b.free) : (b.resized sz).fin = b.fin := by
  simp only [resized, fin, used]
  omega

theorem Block.resized_extent (hsz : sz ≤ b.allocated + b.free) :
    (b.resized sz).extent = b.extent :=
  congrArg (fun x => (⟨b.addr, x, b.border, b.chunk⟩ : Extent)) (resized_fin hsz)

theorem Chain.resize (hc : Chain h owned (pre ++ b :: post)) (hsz : sz ≤ b.allocated + b.free) :
    Chain { h with mem := resize h.mem b.addr sz } owned (pre ++ b.resized sz :: post) := by
  have hl := hc.size_lt (b := b) (by simp)
  have he := Block.resized_extent hsz
  have ⟨h₁, hbs⟩ := seg_append.mp hc.seg
  have ⟨hb, h₂⟩ := hbs
  have clear {c : Block} (ha : b.extent.Apart c.extent) : Clear b c ∧ Clear (b.resized sz) c :=
    ⟨ha.clear, Extent.Apart.clear (he ▸ ha)⟩
  have hpre := fun c hm => clear (hc.apart_before (a := c) hm).symm
  have hpost := fun c hm => clear (hc.apart_behind (c := c) hm)
  refine ⟨seg_append.mpr ⟨?_, ?_, ?_⟩, ?_, ?_, by simp, ?_⟩
  · exact h₁.resize (fun c hm => (hpre c hm).left) (fun c hm => (hpre c hm).right) hb hl hsz
  · exact resize_header hb hl hsz
  · exact h₂.resize (fun c hm => (hpost c hm).left) (fun c hm => (hpost c hm).right) hb hl hsz
  · have hlay := hc.layout
    rw [List.map_append, List.map_cons] at hlay ⊢
    exact he ▸ hlay
  · rw [← hc.start]
    cases pre <;> rfl
  · have hbd := hc.border
    cases pre
    case nil =>
      intro x hx
      cases hx
      exact hbd b rfl
    case cons => exact hbd

end Resize

section Write

-- Memory that is a block's data, or not the heap's at all.
def Writable (owned : List (Nat × Nat)) (bs : List Block) (i : Nat) : Prop :=
  (∃ b ∈ bs, b.addr + 32 ≤ i ∧ i < b.addr + 32 + b.allocated) ∨ ∀ c ∈ owned, i < c.fst ∨ c.snd ≤ i

theorem Chain.write (hc : Chain h owned bs) (hw : ∀ i, m' i ≠ h.mem i → Writable owned bs i) :
    Chain { h with mem := m' } owned bs := by
  have keep {b : Block} (hb : b ∈ bs) {i : Nat} (hi : b.addr ≤ i) (hu : i < b.used)
      (hd : i < b.addr + 32 ∨ b.addr + 32 + b.allocated ≤ i) : m' i = h.mem i := by
    by_contra hne
    cases hw i hne
    case inl hw =>
      have ⟨c, hm, hl, hr⟩ := hw
      have hcu : c.addr + 40 + c.allocated = c.used := rfl
      by_cases he : b = c
      case pos =>
        subst he
        omega
      case neg =>
        have ha := hc.clear.forall hb hm he
        rw [Clear] at ha
        omega
    case inr hw =>
      have hin := hc.inside hb
      have hl : b.chunk.fst ≤ b.addr := hin.lo
      have hh : b.fin ≤ b.chunk.snd := hin.hi
      have hf := b.used_le_fin
      have := hw b.chunk hin.owned
      omega
  refine ⟨hc.seg.imp fun b hb _ _ hh => ?_, hc.layout, hc.start, hc.ne, hc.border⟩
  have hu : b.addr + 40 + b.allocated = b.used := rfl
  exact hh.congr (fun i hl hr => keep hb hl (by omega) (.inl hr))
    fun i hl hr => keep hb (by omega) hr (.inr hl)

end Write

end RoverOS.Kheap
