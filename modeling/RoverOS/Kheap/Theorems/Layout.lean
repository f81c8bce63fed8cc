import RoverOS.Library.Splice

-- How the blocks of the chain lie in memory, apart from what the memory says.

namespace RoverOS.Kheap

-- The bytes from `lo` to `hi`, in a chunk that the heap owns. The first block of a further chunk is
-- its border.
structure Extent where
  lo     : Nat
  hi     : Nat
  border : Bool
  chunk  : Nat × Nat

namespace Extent

def Apart (a b : Extent) : Prop :=
  a.hi ≤ b.lo ∨ b.hi ≤ a.lo

-- `b` is behind `a` in the chain.
def Follows (a b : Extent) : Prop :=
  b.border = false → b.lo = a.hi ∧ b.chunk = a.chunk

def Begins (a b : Extent) : Prop :=
  b.border = true → a.chunk.fst ≠ b.chunk.fst

structure Inside (owned : List (Nat × Nat)) (e : Extent) : Prop where
  owned : e.chunk ∈ owned
  lo    : e.chunk.fst ≤ e.lo
  hi    : e.hi ≤ e.chunk.snd
  size  : e.lo + 40 ≤ e.hi
  first : e.border = true → e.lo = e.chunk.fst

end Extent

open Extent (Apart Follows Begins Inside)

structure Layout (owned : List (Nat × Nat)) (es : List Extent) : Prop where
  chunks  : ∀ c ∈ owned, 0 < c.fst ∧ c.snd < c.fst + 2 ^ 32 ∧ c.snd ≤ 2 ^ 64
  inside  : ∀ e ∈ es, Inside owned e
  apart   : es.Pairwise Apart
  follows : es.IsChain Follows
  begins  : es.Pairwise Begins

variable {owned : List (Nat × Nat)} {pre post es : List Extent} {a b e : Extent} {mid : Nat}

theorem Extent.Apart.symm (h : Apart a b) : Apart b a :=
  Or.symm h

theorem mem_splice {new : List Extent} {x : Extent} :
    x ∈ pre ++ (new ++ post) ↔ x ∈ pre ∨ x ∈ new ∨ x ∈ post := by
  rw [List.mem_append, List.mem_append]

theorem Layout.inside_splice (old new : List Extent) (h : Layout owned (pre ++ (old ++ post)))
    (hn : ∀ e ∈ new, Inside owned e) : ∀ e ∈ pre ++ (new ++ post), Inside owned e := by
  intro e he
  cases mem_splice.mp he
  case inl he => exact h.inside e (mem_splice.mpr (.inl he))
  case inr he =>
    cases he
    case inl he => exact hn e he
    case inr he => exact h.inside e (mem_splice.mpr (.inr (.inr he)))

-- The end of a block becomes a block of its own.
theorem Layout.split (h : Layout owned (pre ++ e :: post)) (hl : e.lo + 40 ≤ mid)
    (hh : mid + 40 ≤ e.hi) :
    Layout owned (pre ++ { e with hi := mid } :: ⟨mid, e.hi, false, e.chunk⟩ :: post) where
  chunks  := h.chunks
  inside  := by
    have he := h.inside e (by simp)
    have := he.lo
    have := he.hi
    refine h.inside_splice [e] [_, _] (List.forall_mem_cons.mpr ⟨?_, ?_⟩)
    · exact ⟨he.owned, he.lo, by dsimp only; omega, hl, he.first⟩
    · intro x hx
      rw [List.mem_singleton.mp hx]
      exact ⟨he.owned, by dsimp only; omega, he.hi, hh, fun h => nomatch h⟩
  apart   := by
    refine Splice.pairwise [e] [_, _] h.apart ?_ ?_ ?_ <;>
      simp only [List.mem_cons, List.not_mem_nil, or_false, forall_eq_or_imp, forall_eq,
        List.pairwise_pair, Extent.Apart] <;> omega
  follows := by
    refine Splice.isChain [e] [_, _] h.follows ?_ (by simp) (by simp) ?_ ?_ <;>
      simp [Extent.Follows]
  begins  := by
    refine Splice.pairwise [e] [_, _] h.begins ?_ ?_ ?_ <;>
      simp [Extent.Begins]

-- A block that is not a border is merged into the one before it.
theorem Layout.merge (h : Layout owned (pre ++ a :: b :: post)) (hb : b.border = false) :
    Layout owned (pre ++ { a with hi := b.hi } :: post) := by
  have ha := h.inside a (by simp)
  have hb' := h.inside b (by simp)
  have ⟨_, hab, _⟩ := List.isChain_append.mp h.follows
  have ⟨hlo, hch⟩ := (List.isChain_cons_cons.mp hab).left hb
  have := ha.size
  have := hb'.size
  refine ⟨h.chunks, ?_, ?_, ?_, ?_⟩
  · refine h.inside_splice [a, b] [_] fun x hx => ?_
    rw [List.mem_singleton.mp hx]
    exact ⟨ha.owned, ha.lo, hch ▸ hb'.hi, by dsimp only; omega, ha.first⟩
  · have merge {x} (hx : Inside owned x) (h₁ : Apart a x) (h₂ : Apart b x) :
        Apart { a with hi := b.hi } x := by
      have := hx.size
      simp only [Extent.Apart] at h₁ h₂ ⊢
      omega
    refine Splice.pairwise [a, b] [_] h.apart (List.pairwise_singleton _ _) ?_ ?_ <;>
      simp only [List.mem_cons, List.not_mem_nil, or_false, forall_eq_or_imp, forall_eq, and_imp]
    · exact fun x hx h₁ h₂ => (merge (h.inside x (by simp [hx])) h₁.symm h₂.symm).symm
    · exact fun x hx h₁ h₂ => merge (h.inside x (by simp [hx])) h₁ h₂
  · refine Splice.isChain [a, b] [_] h.follows ?_ (by simp) (by simp) ?_ ?_ <;>
      simp [Extent.Follows, hch]
  · refine Splice.pairwise [a, b] [_] h.begins (List.pairwise_singleton _ _) ?_ ?_ <;>
      simp only [List.mem_cons, List.not_mem_nil, or_false, forall_eq_or_imp, forall_eq, and_imp]
    · exact fun x _ h₁ _ => h₁
    · exact fun x _ h₁ _ => h₁

-- Behind a border of another chunk, the chunk does not come again.
theorem ne_chunk_of_border {n : Nat} (hf : (e :: es).IsChain Follows) (he : e.chunk.fst ≠ n)
    (hb : ∀ x ∈ es, x.border = true → x.chunk.fst ≠ n) : ∀ x ∈ e :: es, x.chunk.fst ≠ n := by
  induction es generalizing e
  case nil =>
    intro x hx
    exact List.mem_singleton.mp hx ▸ he
  case cons y es hi =>
    have ⟨hy, hf⟩ := List.isChain_cons_cons.mp hf
    have hey : y.chunk.fst ≠ n := by
      cases hyb : y.border
      case true  => exact hb y (.head _) hyb
      case false => exact (hy hyb).right ▸ he
    exact List.forall_mem_cons.mpr ⟨he, hi hf hey fun x hx => hb x (.tail _ hx)⟩

theorem Layout.ne_chunk (h : Layout owned (pre ++ b :: post)) (hb : b.border = true)
    (hp : ∀ c ∈ post.head?, c.border = true) : ∀ x ∈ pre ++ post, x.chunk.fst ≠ b.lo := by
  have ⟨_, hbp, hpb⟩ := List.pairwise_append.mp h.begins
  have ⟨hbp, _⟩ := List.pairwise_cons.mp hbp
  have ⟨_, hf, _⟩ := List.isChain_append.mp h.follows
  rw [(h.inside b (by simp)).first hb]
  refine List.forall_mem_append.mpr ⟨fun x hx => hpb x hx b (.head _) hb, ?_⟩
  cases post
  case nil  => exact fun x hx => nomatch hx
  case cons =>
    have hp := hp _ rfl
    have hbp := fun x hx hb => (hbp x hx hb).symm
    exact ne_chunk_of_border hf.tail (hbp _ (.head _) hp) fun x hx => hbp x (.tail _ hx)

-- A chunk that is left to its border is given back.
theorem Layout.drop (h : Layout owned (pre ++ a :: b :: post)) (hb : b.border = true)
    (hp : ∀ c ∈ post.head?, c.border = true) :
    Layout (owned.filter (·.fst ≠ b.lo)) (pre ++ a :: post) := by
  have sub : List.Sublist (pre ++ a :: post) (pre ++ a :: b :: post) :=
    ((List.sublist_cons_self b post).cons_cons a).append_left pre
  have ne : ∀ x ∈ pre ++ a :: post, x.chunk.fst ≠ b.lo := by
    have h' : Layout owned ((pre ++ [a]) ++ b :: post) := by simpa using h
    simpa using h'.ne_chunk hb hp
  have ⟨hf₁, hf₂, hf₃⟩ := List.isChain_append.mp h.follows
  refine ⟨fun c hc => h.chunks c (List.mem_of_mem_filter hc), fun x hx => ?_, h.apart.sublist sub, ?_,
    h.begins.sublist sub⟩
  · have hi := h.inside x (sub.subset hx)
    exact ⟨List.mem_filter.mpr ⟨hi.owned, by simpa using ne x hx⟩, hi.lo, hi.hi, hi.size, hi.first⟩
  · refine List.isChain_append.mpr ⟨hf₁, List.isChain_cons.mpr ⟨fun c hc hcb => ?_, hf₂.tail.tail⟩, hf₃⟩
    rw [hp c hc] at hcb
    cases hcb

theorem Layout.extend (h : Layout owned es) {lo hi : Nat} (hlo : 0 < lo) (hs : lo + 40 ≤ hi)
    (hc : hi < lo + 2 ^ 32) (hh : hi ≤ 2 ^ 64)
    (hd : ∀ c ∈ owned, c.snd ≤ lo ∨ hi ≤ c.fst) :
    Layout ((lo, hi) :: owned) (es ++ [⟨lo, hi, true, (lo, hi)⟩]) := by
  have apart : ∀ x ∈ es, x.hi ≤ lo ∨ hi ≤ x.lo := by
    intro x hx
    have hx := h.inside x hx
    have := hx.lo
    have := hx.hi
    have := hd _ hx.owned
    omega
  refine ⟨List.forall_mem_cons.mpr ⟨⟨hlo, hc, hh⟩, h.chunks⟩, ?_, ?_, ?_, ?_⟩
  · refine List.forall_mem_append.mpr ⟨fun x hx => ?_, fun x hx => ?_⟩
    · have hx := h.inside x hx
      exact ⟨.tail _ hx.owned, hx.lo, hx.hi, hx.size, hx.first⟩
    · rw [List.mem_singleton.mp hx]
      exact ⟨.head _, le_rfl, le_rfl, hs, fun _ => rfl⟩
  · refine List.pairwise_append.mpr ⟨h.apart, List.pairwise_singleton .., fun x hx y hy => ?_⟩
    exact List.mem_singleton.mp hy ▸ apart x hx
  · refine h.follows.append (.singleton _) fun x _ y hy hyb => ?_
    cases hy
    cases hyb
  · refine List.pairwise_append.mpr ⟨h.begins, List.pairwise_singleton .., fun x hx y hy _ => ?_⟩
    have hx := h.inside x hx
    have := hx.lo
    have := hx.hi
    have := hx.size
    have := hd _ hx.owned
    rw [List.mem_singleton.mp hy]
    dsimp only
    omega

end RoverOS.Kheap
