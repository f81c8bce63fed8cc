import RoverOS.Kheap.Theorems.Header

-- The heap's chain of blocks, what it says about the memory, and the search through it.

open Bytes (Memory load)

namespace RoverOS.Kheap

-- The blocks, from the first one on, are what the memory says, and tile the chunks.
structure Chain (h : Kheap) (owned : List (Nat × Nat)) (bs : List Block) : Prop where
  seg    : Seg h.mem 0 bs 0
  layout : Layout owned (bs.map Block.extent)
  start  : firstAddr bs 0 = h.startBlock
  ne     : bs ≠ []
  border : ∀ b ∈ bs.head?, b.border = false

-- The blocks that the heap gets to along `next`.
inductive Reaches (h : Kheap) : Nat → Prop
  | start : Reaches h h.startBlock
  | next {a : Nat} : Reaches h a → next h.mem a ≠ 0 → Reaches h (next h.mem a)

variable {h : Kheap} {m : Memory} {owned : List (Nat × Nat)} {bs pre post : List Block}
  {a b c : Block} {p q n : Nat}

theorem lastAddr_concat : lastAddr p (pre ++ [b]) = b.addr := by
  rw [lastAddr_append]
  rfl

theorem Seg.at (hs : Seg m p (pre ++ b :: post) q) :
    Header m b (lastAddr p pre) (firstAddr post q) :=
  (seg_append.mp hs).right.left

section Chain

variable (hc : Chain h owned bs)
include hc

theorem Chain.inside (hb : b ∈ bs) : Extent.Inside owned b.extent :=
  hc.layout.inside _ (List.mem_map_of_mem hb)

theorem Chain.addr_pos (hb : b ∈ bs) : 0 < b.addr := by
  have hi := hc.inside hb
  exact lt_of_lt_of_le (hc.layout.chunks _ hi.owned).left hi.lo

theorem Chain.fin_le (hb : b ∈ bs) : b.fin ≤ 2 ^ 64 := by
  have hi := hc.inside hb
  exact le_trans hi.hi (hc.layout.chunks _ hi.owned).right.right

theorem Chain.addr_lt (hb : b ∈ bs) : b.addr < 2 ^ 64 :=
  lt_of_lt_of_le (lt_of_le_of_lt (Nat.le_add_right ..) b.addr_lt_used)
    (le_trans b.used_le_fin (hc.fin_le hb))

-- The sizes of a block add up to less than 4 GiB.
theorem Chain.size_lt (hb : b ∈ bs) : 40 + b.allocated + b.free < 2 ^ 32 := by
  have hi := hc.inside hb
  have hs := (hc.layout.chunks _ hi.owned).right.left
  have hl : b.chunk.fst ≤ b.addr := hi.lo
  have hh : b.addr + 40 + b.allocated + b.free ≤ b.chunk.snd := hi.hi
  have hs : b.chunk.snd < b.chunk.fst + 2 ^ 32 := hs
  omega

theorem Chain.apart : bs.Pairwise fun b c => b.extent.Apart c.extent :=
  List.pairwise_map.mp hc.layout.apart

theorem Chain.apart_of_ne (hb : b ∈ bs) (hm : c ∈ bs) (hne : b ≠ c) : b.extent.Apart c.extent := by
  have hs : Std.Symm fun b c : Block => b.extent.Apart c.extent := ⟨fun _ _ => Or.symm⟩
  exact hc.apart.forall hb hm hne

theorem Chain.clear : bs.Pairwise Clear :=
  hc.apart.imp Extent.Apart.clear

end Chain

theorem Chain.apart_before (hc : Chain h owned (pre ++ b :: post)) (ha : a ∈ pre) :
    a.extent.Apart b.extent :=
  (List.pairwise_append.mp hc.apart).right.right a ha b (.head _)

theorem Chain.apart_behind (hc : Chain h owned (pre ++ b :: post)) (hm : c ∈ post) :
    b.extent.Apart c.extent :=
  (List.pairwise_cons.mp (List.pairwise_append.mp hc.apart).right.left).left c hm

theorem Extent.Apart.addr_ne (ha : b.extent.Apart c.extent) : b.addr ≠ c.addr := by
  have hb : b.addr + 40 + b.allocated + b.free = b.fin := rfl
  have hc : c.addr + 40 + c.allocated + c.free = c.fin := rfl
  simp only [Extent.Apart, Block.extent] at ha
  omega

theorem Chain.firstAddr_lt (hc : Chain h owned (pre ++ post)) : firstAddr post 0 < 2 ^ 64 := by
  cases post
  case nil      => exact Nat.two_pow_pos 64
  case cons b _ => exact hc.addr_lt (b := b) (by simp)

theorem Chain.firstAddr_ne (hc : Chain h owned (pre ++ post)) (hp : post ≠ []) :
    firstAddr post 0 ≠ 0 := by
  cases post
  case nil       => exact absurd rfl hp
  case cons b _  => exact Nat.ne_of_gt (hc.addr_pos (b := b) (by simp))

section Reach

theorem Seg.reaches (hs : Seg h.mem 0 (pre ++ b :: post) 0)
    (hst : firstAddr (pre ++ b :: post) 0 = h.startBlock)
    (hpos : ∀ c ∈ pre ++ b :: post, 0 < c.addr) : Reaches h b.addr := by
  induction pre using List.reverseRecOn generalizing b post
  case nil =>
    have hst : b.addr = h.startBlock := hst
    exact hst ▸ .start
  case append_singleton pre a hi =>
    have happ : pre ++ [a] ++ b :: post = pre ++ a :: b :: post := by simp
    rw [happ] at hs hst hpos
    have hn : next h.mem a.addr = b.addr := hs.at.next
    have hr := (hi hs hst hpos).next
    rw [hn] at hr
    exact hr (Nat.ne_of_gt (hpos b (by simp)))

-- The chain is what the heap gets to.
theorem Chain.reaches_append (hc : Chain h owned (pre ++ b :: post)) : Reaches h b.addr :=
  hc.seg.reaches hc.start fun _ hb => hc.addr_pos hb

theorem Chain.exists_of_reaches (hc : Chain h owned bs) {x : Nat} (hr : Reaches h x) :
    ∃ pre b post, bs = pre ++ b :: post ∧ b.addr = x := by
  induction hr
  case start =>
    have ⟨b, post, hb⟩ := List.exists_cons_of_ne_nil hc.ne
    exact ⟨[], b, post, hb, by rw [← hc.start, hb]; rfl⟩
  case next hn hi =>
    have ⟨pre, b, post, hb, hx⟩ := hi
    subst hb hx
    rw [hc.seg.at.next] at hn ⊢
    cases post
    case nil         => exact absurd rfl hn
    case cons c post => exact ⟨pre ++ [b], c, post, by simp, rfl⟩

theorem Chain.reaches_iff (hc : Chain h owned bs) {x : Nat} :
    Reaches h x ↔ ∃ b ∈ bs, b.addr = x where
  mp hr := by
    have ⟨pre, b, post, hb, hx⟩ := hc.exists_of_reaches hr
    exact ⟨b, by simp [hb], hx⟩
  mpr hb := by
    have ⟨b, hb, hx⟩ := hb
    have ⟨pre, post, hp⟩ := List.append_of_mem hb
    subst hp
    exact hx ▸ hc.reaches_append

end Reach

section Search

variable {csz fuel blk : Nat} {found : Bool}

theorem search_cons (hh : Header m b p n) :
    search m csz false (fuel + 1) b.addr =
      if csz ≤ b.free then .ok (b.addr, true)
      else if n = 0 then .ok (b.addr, false) else search m csz false fuel n := by
  simp [search, checkMagic, hh.magic, hh.free, hh.next, bind, Except.bind, pure, Except.pure]

-- The search returns, with the first block that is large enough or else the last one.
inductive Searched (csz : Nat) (bs : List Block) : Nat → Bool → Prop
  | found {pre post : List Block} {b : Block} : bs = pre ++ b :: post →
    (∀ c ∈ pre, c.free < csz) → csz ≤ b.free → Searched csz bs b.addr true
  | last {pre : List Block} {b : Block} : bs = pre ++ [b] →
    (∀ c ∈ bs, c.free < csz) → Searched csz bs b.addr false

theorem Searched.cons (hs : Searched csz bs blk found) (hb : b.free < csz) :
    Searched csz (b :: bs) blk found := by
  cases hs
  case found pre post c he hp hc =>
    exact .found (by rw [he]; rfl) (List.forall_mem_cons.mpr ⟨hb, hp⟩) hc
  case last pre c he hp =>
    exact @Searched.last _ _ (b :: pre) c (by rw [he]; rfl) (List.forall_mem_cons.mpr ⟨hb, hp⟩)

theorem search_ok (hs : Seg m p bs 0) (hp : ∀ b ∈ bs, 0 < b.addr) (hne : bs ≠ []) :
    ∃ r, search m csz false bs.length (firstAddr bs 0) = .ok r := by
  induction bs generalizing p
  case nil => exact absurd rfl hne
  case cons b bs hi =>
    rw [List.length_cons, firstAddr, search_cons hs.left]
    split
    case isTrue => exact ⟨_, rfl⟩
    case isFalse =>
      cases bs
      case nil => exact ⟨_, rfl⟩
      case cons c bs =>
        have hn : firstAddr (c :: bs) 0 ≠ 0 := Nat.ne_of_gt (hp c (.tail _ (.head _)))
        rw [if_neg hn]
        exact hi hs.right (fun x hx => hp x (.tail _ hx)) nofun

theorem search_searched (hs : Seg m p bs 0) (hp : ∀ b ∈ bs, 0 < b.addr) (hne : bs ≠ [])
    (h : search m csz false fuel (firstAddr bs 0) = .ok (blk, found)) :
    Searched csz bs blk found := by
  induction bs generalizing p fuel
  case nil => exact absurd rfl hne
  case cons b bs hi =>
    cases fuel
    case zero => cases h
    case succ fuel =>
      rw [firstAddr, search_cons hs.left] at h
      split at h
      case isTrue hb =>
        cases h
        exact @Searched.found _ _ [] bs b rfl nofun hb
      case isFalse hb =>
        have hb := Nat.lt_of_not_le hb
        cases bs
        case nil =>
          cases h
          exact @Searched.last _ _ [] b rfl (List.forall_mem_singleton.mpr hb)
        case cons c bs =>
          have hn : firstAddr (c :: bs) 0 ≠ 0 := Nat.ne_of_gt (hp c (.tail _ (.head _)))
          rw [if_neg hn] at h
          exact (hi hs.right (fun x hx => hp x (.tail _ hx)) nofun h).cons hb

end Search

end RoverOS.Kheap
