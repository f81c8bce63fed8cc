import RoverOS.Bootloader.Mem

-- The bump allocator of page tables: `pgAlloc` gives a cleared frame that it has not given before.

namespace RoverOS.Bootloader

open Paging

-- What is assumed of `allocPool`: its blocks are not `NULL`, lie apart, and are below `2 ^ 52`.
structure Fresh (blocks : List Block) : Prop where
  nonnull : ∀ b ∈ blocks, b.ptr ≠ 0#64
  below   : ∀ b ∈ blocks, b.ptr.toNat + b.size ≤ 2 ^ 52
  apart   : blocks.Pairwise fun b c =>
    b.ptr.toNat + b.size ≤ c.ptr.toNat ∨ c.ptr.toNat + c.size ≤ b.ptr.toNat

-- What `allocPool` gives to `pgAlloc`: the blocks in use, and the chunks to come.
def supply (s : Boot) : List Block :=
  s.pool.map (fun ptr => { ptr, size := bumpChunk + 0x1000, use := .tables }) ++ s.blocks

def Block.Holds (b : Block) (t : Nat) : Prop :=
  b.ptr.toNat ≤ t ∧ t + 0x1000 ≤ b.ptr.toNat + b.size

-- A page of a block that is not one of those that `pgAlloc` has left.
def Issued (s : Boot) (t : Nat) : Prop :=
  (∃ b ∈ s.blocks, b.Holds t) ∧
    (t < s.bumpBase.toNat + s.bumpPtr.toNat ∨ s.bumpBase.toNat + s.bumpSize.toNat ≤ t)

structure Bump (s : Boot) : Prop where
  base  : s.bumpBase.toNat % 0x1000 = 0
  ptr   : s.bumpPtr.toNat % 0x1000 = 0
  size  : s.bumpSize.toNat % 0x1000 = 0
  le    : s.bumpPtr.toNat ≤ s.bumpSize.toNat
  block : s.bumpPtr ≠ s.bumpSize → ∃ b ∈ s.blocks, b.ptr.toNat < s.bumpBase.toNat ∧
    s.bumpBase.toNat + s.bumpSize.toNat ≤ b.ptr.toNat + b.size

-- A frame of which `pgAlloc` has made a table.
structure NewFrame (s : Boot) (f : Word) : Prop where
  nonzero : f ≠ 0#64
  base    : tableBase f = f
  aligned : f.toNat % 0x1000 = 0
  below   : f.toNat + 0x1000 ≤ 2 ^ 52
  unused  : ¬Issued s f.toNat

variable {clearMem : ClearMem} {s s' : Boot} {a f ptr : Word} {sz t : Nat} {use : BlockUse}
variable {bs bs' : List Block}

section Align

theorem kalign_eq : kalign a = (a >>> 12) <<< 12 := by
  have hm : ∀ i < 64, pageAlign.getLsbD i = decide (12 ≤ i) := by decide
  apply BitVec.eq_of_getLsbD_eq
  intro i hi
  rw [kalign, BitVec.getLsbD_and, hm i hi, BitVec.getLsbD_shiftLeft, BitVec.getLsbD_ushiftRight]
  by_cases h : 12 ≤ i
  case pos => simp [h, hi]
  case neg => simp [h, (by omega : i < 12)]

theorem kalign_toNat : (kalign a).toNat = a.toNat / 0x1000 * 0x1000 := by
  have h := a.isLt
  rw [kalign_eq, BitVec.toNat_shiftLeft, BitVec.toNat_ushiftRight, Nat.shiftRight_eq_div_pow,
    Nat.shiftLeft_eq]
  exact Nat.mod_eq_of_lt (by omega)

theorem kalign_mod : (kalign a).toNat % 0x1000 = 0 := by
  rw [kalign_toNat]
  exact Nat.mul_mod_left _ _

theorem kalign_le : (kalign a).toNat ≤ a.toNat := by
  rw [kalign_toNat]
  exact Nat.div_mul_le_self _ _

theorem tableBase_kalign (h : a.toNat < 2 ^ 52) : tableBase (kalign a) = kalign a :=
  tableBase_of_aligned (isUnaligned_eq_zero_iff.mpr kalign_mod) (lt_of_le_of_lt kalign_le h)

end Align

theorem Fresh.sublist (hf : Fresh bs') (h : bs.Sublist bs') : Fresh bs where
  nonnull b hb := hf.nonnull b (h.mem hb)
  below b hb   := hf.below b (h.mem hb)
  apart        := hf.apart.sublist h

theorem Fresh.perm (hf : Fresh bs') (h : bs.Perm bs') : Fresh bs where
  nonnull b hb := hf.nonnull b (h.mem_iff.mp hb)
  below b hb   := hf.below b (h.mem_iff.mp hb)
  apart        := (h.pairwise_iff fun h => h.symm).mpr hf.apart

theorem Fresh.blocks (hf : Fresh (supply s)) : Fresh s.blocks :=
  hf.sublist (List.sublist_append_right _ _)

theorem allocPool_cons {pool : List Word} (hp : s.pool = a :: pool) (ha : a ≠ 0#64) :
    allocPool sz use s = (a, { s with pool, blocks := { ptr := a, size := sz, use } :: s.blocks }) := by
  simp only [allocPool, hp, if_neg ha]

theorem allocTable_ok (h : allocTable sz use s = .ok (ptr, s')) :
    ∃ pool, s.pool = ptr :: pool ∧
      s' = { s with pool, blocks := { ptr, size := sz, use } :: s.blocks } := by
  cases hp : s.pool
  case nil => simp [allocTable, allocPool, hp] at h
  case cons p pool =>
    by_cases hz : p = 0#64
    case pos => simp [allocTable, allocPool, hp, hz] at h
    case neg =>
      simp only [allocTable, allocPool, hp, hz, if_false] at h
      cases h
      exact ⟨pool, rfl, rfl⟩

-- The chunk that the pool has just given.
def newBump (s : Boot) (ptr : Word) (pool : List Word) : Boot := { s with
  pool
  blocks   := { ptr, size := bumpChunk + 0x1000, use := .tables } :: s.blocks
  bumpBase := kalign ptr + pageSz
  bumpSize := BitVec.ofNat 64 bumpChunk
  bumpPtr  := 0 }

theorem newBump_ne (s : Boot) (ptr : Word) (pool : List Word) :
    (newBump s ptr pool).bumpPtr ≠ (newBump s ptr pool).bumpSize := by
  change (0#64) ≠ BitVec.ofNat 64 bumpChunk
  decide

@[simp]
theorem newBump_tables (s : Boot) (ptr : Word) (pool : List Word) : (newBump s ptr pool).tables = s.tables := by
  dsimp only [newBump]

@[simp]
theorem newBump_pml (s : Boot) (ptr : Word) (pool : List Word) : (newBump s ptr pool).pml = s.pml := by
  dsimp only [newBump]

-- What is left of the current chunk, or a new one.
theorem growBump_ok (h : growBump s = .ok s') :
    s.bumpPtr ≠ s.bumpSize ∧ s' = s ∨ ∃ ptr pool, s.pool = ptr :: pool ∧ s' = newBump s ptr pool := by
  unfold growBump at h
  split at h
  case isFalse hne =>
    cases h
    exact .inl ⟨hne, rfl⟩
  case isTrue he =>
    have ⟨⟨base, s₁⟩, ha, h⟩ := Except.bind_ok_iff.mp h
    have ⟨pool, hp, h₁⟩ := allocTable_ok ha
    cases h₁
    cases h
    exact .inr ⟨base, pool, hp, rfl⟩

theorem growBump_new {pool : List Word} (he : s.bumpPtr = s.bumpSize) (hpool : s.pool = ptr :: pool)
    (hz : ptr ≠ 0#64) : growBump s = .ok (newBump s ptr pool) := by
  rw [growBump, if_pos he]
  simp only [allocTable, allocPool_cons hpool hz, if_neg hz]
  rfl

theorem pgAlloc_of_growBump (h : growBump s = .ok s') : pgAlloc clearMem s = .ok (s'.bumpBase + s'.bumpPtr, { s' with
    tables  := clearMem (s'.bumpBase + s'.bumpPtr) 0x1000 s'.tables
    bumpPtr := s'.bumpPtr + 0x1000 }) := by
  rw [pgAlloc, h]
  rfl

-- `pgAlloc` clears the frame that it gives.
theorem pgAlloc_tables (ha : pgAlloc clearMem s = .ok (f, s')) : s'.tables = clearMem f 0x1000 s.tables := by
  obtain ⟨s₁, hs, h⟩ := Except.bind_ok_iff.mp ha
  cases h
  have hsame : s₁.tables = s.tables := by
    rcases growBump_ok hs with ⟨-, rfl⟩ | ⟨ptr, pool, -, rfl⟩
    case inl => rfl
    case inr => exact newBump_tables s ptr pool
  exact congrArg (clearMem (s₁.bumpBase + s₁.bumpPtr) 0x1000) hsame

theorem pgAlloc_pml (ha : pgAlloc clearMem s = .ok (f, s')) : s'.pml = s.pml := by
  obtain ⟨s₁, hs, h⟩ := Except.bind_ok_iff.mp ha
  cases h
  change s₁.pml = s.pml
  rcases growBump_ok hs with ⟨-, rfl⟩ | ⟨ptr, pool, -, rfl⟩
  case inl => rfl
  case inr => exact newBump_pml s ptr pool

theorem pgAlloc_blocks (h : pgAlloc clearMem s = .ok (f, s')) : s.blocks <:+ s'.blocks := by
  obtain ⟨s₁, hs, h⟩ := Except.bind_ok_iff.mp h
  cases h
  rcases growBump_ok hs with ⟨-, rfl⟩ | ⟨ptr, pool, -, rfl⟩
  case inl => exact List.suffix_rfl
  case inr => exact List.suffix_cons _ _

-- A chunk that is taken was to come.
theorem pgAlloc_supply (h : pgAlloc clearMem s = .ok (f, s')) : (supply s').Perm (supply s) := by
  have ⟨s₁, hs, h⟩ := Except.bind_ok_iff.mp h
  cases h
  rcases growBump_ok hs with ⟨_, rfl⟩ | ⟨ptr, pool, hp, rfl⟩
  case inl => exact .refl _
  case inr =>
    simp only [supply, hp, List.map_cons, List.cons_append]
    exact List.perm_middle

-- A page of one block is outside of another.
theorem outside_of_apart {p n q k : Nat} (h : p + n ≤ q ∨ q + k ≤ p) (hl : q ≤ t)
    (hu : t + 0x1000 ≤ q + k) : t + 0x1000 ≤ p ∨ p + n ≤ t := by
  omega

-- A new chunk has room for its tables behind the first page boundary.
theorem newChunk (h : ptr.toNat + (bumpChunk + 0x1000) ≤ 2 ^ 64) :
    ptr.toNat < (kalign ptr + pageSz).toNat ∧ (kalign ptr + pageSz).toNat % 0x1000 = 0 ∧
      (kalign ptr + pageSz).toNat + bumpChunk ≤ ptr.toNat + (bumpChunk + 0x1000) := by
  have hle := kalign_le (a := ptr)
  have hmod := kalign_mod (a := ptr)
  have hpage : pageSz.toNat = 0x1000 := rfl
  have hchunk : 0 < bumpChunk := by decide
  have hlt : ptr.toNat < (kalign ptr).toNat + 0x1000 := by
    rw [kalign_toNat]
    omega
  rw [BitVec.toNat_add, hpage, Nat.mod_eq_of_lt (by omega)]
  omega

-- What is left of a chunk is whole tables.
theorem bump_room (hp : s.bumpPtr.toNat % 0x1000 = 0) (hsize : s.bumpSize.toNat % 0x1000 = 0)
    (hle : s.bumpPtr.toNat ≤ s.bumpSize.toNat) (hs : s.bumpPtr ≠ s.bumpSize) :
    s.bumpPtr.toNat + 0x1000 ≤ s.bumpSize.toNat ∧ (s.bumpPtr + 0x1000).toNat = s.bumpPtr.toNat + 0x1000 := by
  have hlt := s.bumpSize.isLt
  have hne : s.bumpPtr.toNat ≠ s.bumpSize.toNat := fun h => hs (BitVec.eq_of_toNat_eq h)
  have hroom : s.bumpPtr.toNat + 0x1000 ≤ s.bumpSize.toNat := by omega
  refine ⟨hroom, ?_⟩
  rw [BitVec.toNat_add]
  exact Nat.mod_eq_of_lt (by simp; omega)

theorem Bump.frame (hb : Bump s) (hs : s.bumpPtr ≠ s.bumpSize) (hf : Fresh s.blocks) :
    (∃ b ∈ s.blocks, b.Holds (s.bumpBase + s.bumpPtr).toNat) ∧
      (s.bumpBase + s.bumpPtr).toNat = s.bumpBase.toNat + s.bumpPtr.toNat ∧
      (s.bumpPtr + 0x1000).toNat = s.bumpPtr.toNat + 0x1000 ∧
      s.bumpPtr.toNat + 0x1000 ≤ s.bumpSize.toNat ∧ 0 < s.bumpBase.toNat ∧
      s.bumpBase.toNat + s.bumpSize.toNat ≤ 2 ^ 52 := by
  have ⟨b, hm, hlt, hle⟩ := hb.block hs
  have hbelow := hf.below b hm
  obtain ⟨hroom, hnext⟩ := bump_room hb.ptr hb.size hb.le hs
  have hsum : (s.bumpBase + s.bumpPtr).toNat = s.bumpBase.toNat + s.bumpPtr.toNat := by
    rw [BitVec.toNat_add]
    exact Nat.mod_eq_of_lt (by omega)
  refine ⟨⟨b, hm, ?_, ?_⟩, hsum, hnext, hroom, by omega, by omega⟩ <;> omega

-- What `pgAlloc` does to the chunk it takes the frame from.
theorem Bump.take (hb : Bump s) (hs : s.bumpPtr ≠ s.bumpSize) (hf : Fresh s.blocks) {m : Tables} :
    let s' := { s with tables := m, bumpPtr := s.bumpPtr + 0x1000 }
    let f := s.bumpBase + s.bumpPtr
    Bump s' ∧ NewFrame s f ∧ Issued s' f.toNat ∧ ∀ t, Issued s t → Issued s' t := by
  have ⟨hold, hsum, hnext, hroom, hpos, hbelow⟩ := hb.frame hs hf
  have hbase := hb.base
  have hptr := hb.ptr
  have hal : (s.bumpBase + s.bumpPtr).toNat % 0x1000 = 0 := by omega
  dsimp only
  refine ⟨⟨hbase, ?_, hb.size, ?_, ?_⟩, ⟨?_, ?_, hal, ?_, ?_⟩, ⟨hold, .inl ?_⟩, ?_⟩
  · change (s.bumpPtr + 0x1000).toNat % 0x1000 = 0
    omega
  · change (s.bumpPtr + 0x1000).toNat ≤ s.bumpSize.toNat
    omega
  · exact fun _ => hb.block hs
  · intro hz
    have hz := congrArg BitVec.toNat hz
    rw [hsum] at hz
    simp at hz
    omega
  · exact tableBase_of_aligned (isUnaligned_eq_zero_iff.mpr hal) (by omega)
  · omega
  · rintro ⟨_, h⟩
    omega
  · change _ < s.bumpBase.toNat + (s.bumpPtr + 0x1000).toNat
    omega
  · rintro t ⟨hh, h⟩
    refine ⟨hh, ?_⟩
    change t < s.bumpBase.toNat + (s.bumpPtr + 0x1000).toNat ∨ _
    exact h.imp (by omega) id

theorem newBump_bump {pool : List Word} (h : ptr.toNat + (bumpChunk + 0x1000) ≤ 2 ^ 64) :
    Bump (newBump s ptr pool) := by
  obtain ⟨hlt, hmod, hfit⟩ := newChunk h
  have hsize : (newBump s ptr pool).bumpSize.toNat = bumpChunk := rfl
  exact {
    base  := hmod
    ptr   := show (0#64).toNat % 0x1000 = 0 from rfl
    size  := hsize ▸ rfl
    le    := Nat.zero_le _
    block := fun _ => ⟨_, List.mem_cons_self .., hlt, hfit⟩
  }

-- The pages of the other blocks are not in the new one.
theorem Issued.newBump {pool : List Word} (hf : Fresh (newBump s ptr pool).blocks) (h : Issued s t) :
    Issued (newBump s ptr pool) t := by
  have hbelow : ptr.toNat + (bumpChunk + 0x1000) ≤ 2 ^ 52 := hf.below _ (List.mem_cons_self ..)
  obtain ⟨hlt, -, hfit⟩ := @newChunk ptr (by omega)
  obtain ⟨⟨b, hm, hh⟩, -⟩ := h
  have hout : t + 0x1000 ≤ ptr.toNat ∨ ptr.toNat + (bumpChunk + 0x1000) ≤ t :=
    outside_of_apart ((List.pairwise_cons.mp hf.apart).left b hm) hh.left hh.right
  refine ⟨⟨b, List.mem_cons_of_mem _ hm, hh⟩, ?_⟩
  change t < (kalign ptr + pageSz).toNat + 0 ∨ (kalign ptr + pageSz).toNat + bumpChunk ≤ t
  omega

structure PgAlloc (clearMem : ClearMem) (s : Boot) (f : Word) (s' : Boot) : Prop where
  bump   : Bump s'
  frame  : NewFrame s f
  issued : Issued s' f.toNat
  keeps  : ∀ t, Issued s t → Issued s' t
  tables : s'.tables = clearMem f 0x1000 s.tables
  pml    : s'.pml = s.pml
  blocks : s.blocks <:+ s'.blocks

theorem Bump.pgAlloc (hb : Bump s) (h : pgAlloc clearMem s = .ok (f, s')) (hf : Fresh s'.blocks) :
    PgAlloc clearMem s f s' := by
  have htables := pgAlloc_tables h
  have hpml := pgAlloc_pml h
  have hblocks := pgAlloc_blocks h
  have ⟨s₁, hs, h⟩ := Except.bind_ok_iff.mp h
  cases h
  rcases growBump_ok hs with ⟨hne, rfl⟩ | ⟨ptr, pool, _, rfl⟩
  case inl =>
    have ⟨hb', hn, hi, hk⟩ := hb.take hne hf (m := clearMem (s₁.bumpBase + s₁.bumpPtr) 0x1000 s₁.tables)
    exact ⟨hb', hn, hi, hk, htables, hpml, hblocks⟩
  case inr =>
    have hbelow : ptr.toNat + (bumpChunk + 0x1000) ≤ 2 ^ 52 := hf.below _ (List.mem_cons_self ..)
    let s₁ := newBump s ptr pool
    have hb₁ : Bump s₁ := newBump_bump (by omega)
    have ⟨hb', hn, hi, hk⟩ :=
      hb₁.take (newBump_ne s ptr pool) hf (m := clearMem (s₁.bumpBase + s₁.bumpPtr) 0x1000 s₁.tables)
    refine ⟨hb', ⟨hn.nonzero, hn.base, hn.aligned, hn.below, ?_⟩, hi, fun t ht => hk t (ht.newBump hf), htables,
      hpml, hblocks⟩
    exact fun h => hn.unused (h.newBump hf)

end RoverOS.Bootloader
