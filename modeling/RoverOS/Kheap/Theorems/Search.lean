import RoverOS.Kheap.Theorems.Aligned
import RoverOS.Kheap.Theorems.Border

-- The search of `kmallocInt`: which blocks it visits, and when it ends.

open Bytes (Memory)

namespace RoverOS.Kheap

variable {h : Kheap} {m : Memory} {owned : List (Nat × Nat)} {bs pre post : List Block} {b c : Block}
  {align : Bool} {p n sz csz fuel start : Nat}

-- `search`, which also writes down the blocks that it looks at.
def searchVisits (m : Memory) (csz : Nat) (align : Bool) : Nat → Nat →
    Except Exit ((Nat × Bool) × List Nat)
  | 0,        _     => .error .halt
  | fuel + 1, block => do
    checkMagic m block
    if align ∧ alignmentOffset m block < kheapBlockDataSz then
      let (r, visits) ← searchVisits m csz align fuel block
      return (r, block :: visits)
    else if align ∧ u64 (csz + alignmentOffset m block) ≤ free m block then
      return ((block, true), [block])
    else if csz ≤ free m block ∧ ¬align then
      return ((block, true), [block])
    else if next m block = 0 then
      return ((block, false), [block])
    else
      let (r, visits) ← searchVisits m csz align fuel (next m block)
      return (r, block :: visits)

-- A finite chain of blocks, whatever their sizes are.
structure Linked (m : Memory) (start : Nat) (bs : List Block) : Prop where
  seg   : Seg m 0 bs 0
  pos   : ∀ b ∈ bs, 0 < b.addr
  nodup : (bs.map Block.addr).Nodup
  start : firstAddr bs 0 = start
  ne    : bs ≠ []

-- The header of an aligned block does not fit before the page boundary behind the block.
def Tight (align : Bool) (b : Block) : Prop :=
  align = true ∧ b.offset < kheapBlockDataSz

-- The block is large enough.
def Suits (csz : Nat) (align : Bool) (b : Block) : Prop :=
  align = true ∧ kheapBlockDataSz ≤ b.offset ∧ u64 (csz + b.offset) ≤ b.free ∨
    align = false ∧ csz ≤ b.free

-- The search ends at a block that is large enough, or at the last one, and has visited the blocks up to
-- this one, each of them once.
def SearchEnds (m : Memory) (start csz : Nat) (align : Bool) (bs : List Block) : Prop :=
  ∃ fuel pre b post found, bs = pre ++ b :: post ∧
    searchVisits m csz align fuel start = .ok ((b.addr, found), (pre ++ [b]).map Block.addr) ∧
    ((pre ++ [b]).map Block.addr).Nodup ∧
    (found = true → Suits csz align b) ∧ (found = false → post = [])

-- Every block whose end is too close to a page boundary has one before it that is large enough.
def Passable (csz : Nat) (align : Bool) (bs : List Block) : Prop :=
  ∀ pre b post, bs = pre ++ b :: post → Tight align b → ∃ c ∈ pre, Suits csz align c

theorem Chain.linked (hc : Chain h owned bs) : Linked h.mem h.startBlock bs where
  seg       := hc.seg
  pos _ hb  := hc.addr_pos hb
  nodup     := hc.addr_nodup
  start     := hc.start
  ne        := hc.ne

section Steps

-- Without the visits it is the search of `kmallocInt`.
theorem searchVisits_search (block : Nat) :
    (searchVisits m csz align fuel block).map Prod.fst = search m csz align fuel block := by
  induction fuel generalizing block
  case zero => rfl
  case succ fuel hi =>
    rw [searchVisits, search]
    rcases checkMagic m block with e | u
    · rfl
    · simp only [bind, Except.bind]
      split_ifs
      · rw [← hi block]
        cases searchVisits m csz align fuel block <;> rfl
      · rfl
      · rfl
      · rfl
      · rw [← hi (next m block)]
        cases searchVisits m csz align fuel (next m block) <;> rfl

instance : Decidable (Tight align b) := inferInstanceAs (Decidable (_ ∧ _))

instance : Decidable (Suits csz align b) := inferInstanceAs (Decidable (_ ∨ _))

theorem searchVisits_cons (hh : Header m b p n) : searchVisits m csz align (fuel + 1) b.addr =
    if Tight align b then
      (searchVisits m csz align fuel b.addr).map fun r => (r.1, b.addr :: r.2)
    else if Suits csz align b then .ok ((b.addr, true), [b.addr])
    else if n = 0 then .ok ((b.addr, false), [b.addr])
    else (searchVisits m csz align fuel n).map fun r => (r.1, b.addr :: r.2) := by
  have hmap (x : Except Exit ((Nat × Bool) × List Nat)) :
      (x >>= fun r => (.ok (r.1, b.addr :: r.2) : Except Exit ((Nat × Bool) × List Nat))) =
        x.map fun r => (r.1, b.addr :: r.2) := by
    cases x <;> rfl
  rw [searchVisits, checkMagic, hh.magic, hh.free, hh.next, alignmentOffset_eq hh, if_pos rfl]
  cases align
  case false => simp [Tight, Suits, ← hmap, bind, Except.bind, pure, Except.pure]
  case true =>
    by_cases ht : b.offset < kheapBlockDataSz
    · simp [Tight, ht, ← hmap, bind, Except.bind, pure, Except.pure]
    · simp [Tight, Suits, ht, Nat.le_of_not_lt ht, ← hmap, bind, Except.bind, pure, Except.pure]

-- A tight block is visited again and again.
theorem searchVisits_tight (hh : Header m b p n) (ht : Tight align b) (r : (Nat × Bool) × List Nat) :
    searchVisits m csz align fuel b.addr ≠ .ok r := by
  induction fuel generalizing r
  case zero => simp [searchVisits]
  case succ fuel hi =>
    intro h
    rw [searchVisits_cons hh, if_pos ht] at h
    obtain ⟨r', h, _⟩ := Except.exists_ok_of_map h
    exact hi r' h

end Steps

section Ends

theorem firstAddr_ne {x : Block} {xs : List Block} (hp : ∀ b ∈ x :: xs, 0 < b.addr) :
    firstAddr (x :: xs) 0 ≠ 0 :=
  Nat.ne_of_gt (hp x List.mem_cons_self)

-- The search does not end when it comes to a tight block.
theorem Seg.not_ends (hs : Seg m p (pre ++ b :: post) 0) (hp : ∀ c ∈ pre ++ b :: post, 0 < c.addr)
    (ht : Tight align b) (hn : ∀ c ∈ pre, ¬Suits csz align c) (r : (Nat × Bool) × List Nat) :
    searchVisits m csz align fuel (firstAddr (pre ++ b :: post) 0) ≠ .ok r := by
  induction pre generalizing p fuel r
  case nil => exact searchVisits_tight hs.left ht r
  case cons c pre hi =>
    have hc : ¬Suits csz align c := hn c List.mem_cons_self
    have hne : firstAddr (pre ++ b :: post) 0 ≠ 0 := by
      cases pre
      case nil      => exact firstAddr_ne fun x hx => hp x (.tail _ hx)
      case cons y _ => exact firstAddr_ne fun x hx => hp x (.tail _ hx)
    intro h
    cases fuel
    case zero => cases h
    case succ fuel =>
      rw [List.cons_append, firstAddr, searchVisits_cons hs.left, if_neg hc, List.append_eq,
        if_neg hne] at h
      split_ifs at h with hct
      · obtain ⟨r', h, _⟩ := Except.exists_ok_of_map h
        exact searchVisits_tight hs.left hct r' h
      · obtain ⟨r', h, _⟩ := Except.exists_ok_of_map h
        exact hi hs.right (fun x hx => hp x (.tail _ hx)) (fun x hx => hn x (.tail _ hx)) r' h

theorem Passable.tail (hq : Passable csz align (b :: bs)) (hb : ¬Suits csz align b) :
    Passable csz align bs := by
  intro pre c post hbs ht
  obtain ⟨x, hx, hs⟩ := hq (b :: pre) c post (congrArg (b :: ·) hbs) ht
  rcases List.mem_cons.mp hx with rfl | hx
  · exact absurd hs hb
  · exact ⟨x, hx, hs⟩

theorem Passable.not_tight (hq : Passable csz align (b :: bs)) : ¬Tight align b := by
  intro ht
  obtain ⟨c, hc, _⟩ := hq [] b bs rfl ht
  cases hc

-- One turn for each block that is visited.
theorem Seg.ends (hs : Seg m p bs 0) (hp : ∀ c ∈ bs, 0 < c.addr) (hne : bs ≠ [])
    (hq : Passable csz align bs) : ∃ pre b post found, bs = pre ++ b :: post ∧
      searchVisits m csz align bs.length (firstAddr bs 0) =
        .ok ((b.addr, found), (pre ++ [b]).map Block.addr) ∧
      (found = true → Suits csz align b) ∧ (found = false → post = []) := by
  induction bs generalizing p
  case nil => exact absurd rfl hne
  case cons b bs hi =>
    rw [List.length_cons, firstAddr, searchVisits_cons hs.left, if_neg hq.not_tight]
    by_cases hb : Suits csz align b
    case pos =>
      rw [if_pos hb]
      exact ⟨[], b, bs, true, rfl, rfl, fun _ => hb, fun h => absurd h.symm Bool.false_ne_true⟩
    case neg =>
      rw [if_neg hb]
      cases bs
      case nil =>
        rw [firstAddr, if_pos rfl]
        exact ⟨[], b, [], false, rfl, rfl, fun h => absurd h Bool.false_ne_true, fun _ => rfl⟩
      case cons c bs =>
        have hp' : ∀ x ∈ c :: bs, 0 < x.addr := fun x hx => hp x (.tail _ hx)
        obtain ⟨pre, d, post, found, hbs, h, hf, hl⟩ := hi hs.right hp' (List.cons_ne_nil c bs) (hq.tail hb)
        rw [if_neg (firstAddr_ne hp'), h]
        exact ⟨b :: pre, d, post, found, congrArg (b :: ·) hbs, rfl, hf, hl⟩

end Ends

-- The search of `kmallocInt` for `sz` bytes ends exactly in these chains.
theorem search_ends_iff (hl : Linked m start bs) :
    SearchEnds m start (u64 (sz + 8 + kheapBlockDataSz)) align bs ↔
      Passable (u64 (sz + 8 + kheapBlockDataSz)) align bs := by
  constructor
  case mp =>
    rintro ⟨fuel, _, _, _, _, _, h, _⟩ pre b post hbs ht
    by_contra hn
    rw [← hl.start] at h
    subst hbs
    exact hl.seg.not_ends hl.pos ht (fun c hc hs => hn ⟨c, hc, hs⟩) _ h
  case mpr =>
    intro hq
    obtain ⟨pre, b, post, found, hbs, h, hf, hlast⟩ := hl.seg.ends hl.pos hl.ne hq
    rw [hl.start] at h
    refine ⟨bs.length, pre, b, post, found, hbs, h, ?_, hf, hlast⟩
    have happ : bs.map Block.addr = (pre ++ [b]).map Block.addr ++ post.map Block.addr := by
      rw [hbs, ← List.map_append]
      simp
    exact (List.nodup_append.mp (happ ▸ hl.nodup)).1

section Example

-- A heap of two pages, after 0xfa0 bytes have been allocated: the new block ends 16 bytes before a page.
def tightBlocks : List Block :=
  [{ firstBlock 0x100000 0x2000 with free := 0 }, (firstBlock 0x100000 0x2000).rest 0xfa0]

theorem exists_tight : ∃ s, Holds s tightBlocks ∧
    Run.Steps (Step memcpyAt) (Allowed NotBorder) (initial 0x100000 0x2000 fun _ => 0) s := by
  have hs₀ : Holds (initial 0x100000 0x2000 fun _ => 0) [firstBlock 0x100000 0x2000] :=
    holds_initial (by decide) (by decide) (by decide) (by decide)
  have hf : Fresh [(0x100000, 0x102000)] 0x200000 (extendSize (0xfa0 + 40)) :=
    ⟨by decide, by decide, by decide⟩
  have hrun : ∃ fuel s', (Op.kmalloc 0xfa0 0x200000).run memcpyAt fuel
      (initial 0x100000 0x2000 fun _ => 0) = .ok s' := hs₀.kmalloc_ok (by decide) hf
  obtain ⟨fuel, s, hr⟩ := hrun
  obtain ⟨bs, ptr, hp, _, hs⟩ := hs₀.kmalloc (by decide) hf (by decide) hr
  have hp : Placed _ _ _ ([] ++ [_]) _ bs ptr := hp
  have hbs : bs = tightBlocks := (hp.splits_last (by decide) (by decide)).right.left
  exact ⟨s, hbs ▸ hs, .step (.refl _) (l := .kmalloc 0xfa0 0x200000) ⟨by decide, hf⟩ ⟨fuel, hr⟩⟩

theorem tight_not_passable : ¬Passable (u64 (0x100 + 8 + kheapBlockDataSz)) true tightBlocks := by
  intro hq
  obtain ⟨c, hc, hs⟩ := hq [{ firstBlock 0x100000 0x2000 with free := 0 }]
    ((firstBlock 0x100000 0x2000).rest 0xfa0) [] rfl (by decide)
  cases List.mem_singleton.mp hc
  exact absurd hs (by decide)

theorem search_ends_iff_tight : ∃ s, Holds s tightBlocks ∧
    (SearchEnds s.heap.mem s.heap.startBlock (u64 (0x100 + 8 + kheapBlockDataSz)) true tightBlocks ↔
      Passable (u64 (0x100 + 8 + kheapBlockDataSz)) true tightBlocks) := by
  obtain ⟨s, hs, _⟩ := exists_tight
  exact ⟨s, hs, search_ends_iff hs.chain.linked⟩

-- An aligned request then finds no room in the first block, and never gets past the second one.
theorem search_never_ends : ¬∀ (m : Memory) (start sz : Nat) (align : Bool) (bs : List Block),
    Linked m start bs → 1 ≤ sz →
    SearchEnds m start (u64 (sz + 8 + kheapBlockDataSz)) align bs := by
  intro hall
  obtain ⟨s, hs, _⟩ := exists_tight
  obtain ⟨fuel, _, _, _, _, _, h, _⟩ := hall _ _ 0x100 true _ hs.chain.linked (by decide)
  apply tight_not_passable
  intro pre b post hbs ht
  by_contra hn
  have hseg := hs.chain.seg
  have hpos : ∀ c ∈ tightBlocks, 0 < c.addr := fun c hc => hs.chain.addr_pos hc
  rw [← hs.chain.start] at h
  rw [hbs] at hseg hpos h
  exact hseg.not_ends hpos ht (fun c hc hc' => hn ⟨c, hc, hc'⟩) _ h

end Example

end RoverOS.Kheap
