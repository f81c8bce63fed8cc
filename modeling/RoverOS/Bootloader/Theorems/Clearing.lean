import RoverOS.Bootloader.Theorems.Tracked
import RoverOS.Library.Run

-- The bytes that `allocMem` and `pgAlloc` clear, and the blocks of the pool that they are in.

open Run (Steps)

namespace RoverOS.Bootloader

open Paging

variable {clearMem : ClearMem} {s s' s₁ start : Boot} {r : Request} {p f bptr ptr virt : Word} {b : Block}
  {bs : List Block} {sz type n x : Nat} {align : Bool} {tables : Tables}

-- The `n` bytes at `ptr` are in the block.
def Within (ptr : Word) (n : Nat) (b : Block) : Prop :=
  ∀ x, ptr.toNat ≤ x → x < ptr.toNat + n → b.Has x

-- The chunk that the tables are cut from is the last one that the pool has given.
def chunk (s : Boot) : Option Block :=
  s.blocks.find? fun b => b.use = .tables

-- The block that a request gets.
def Request.block (r : Request) (bptr : Word) : Block where
  ptr  := bptr
  size := r.size
  use  := if r.temp then .temp else .recorded

-- The requests that clear memory, and what the loader does in between.
inductive Call
  | alloc (r : Request)
  | page
  | store (tables : Tables)
  | free (ptr : Word)

namespace Call

def Step (clearMem : ClearMem) (s : Boot) (c : Call) (s' : Boot) : Prop :=
  match c with
  | .alloc r      => ∃ p, r.alloc clearMem s = .ok (p, s')
  | .page         => ∃ f, pgAlloc clearMem s = .ok (f, s')
  | .store tables => s' = { s with tables }
  | .free ptr     => s' = freePool ptr s

end Call

-- A block of the pool lies in memory.
def InMemory (s : Boot) (c : Call) : Prop :=
  match c with
  | .alloc r   => ∀ ptr, Answers s ptr → ptr.toNat + r.size ≤ 2 ^ 64
  | .page      => ∀ ptr, Answers s ptr → ptr.toNat + (bumpChunk + 0x1000) ≤ 2 ^ 64
  | .store _   => True
  | .free _    => True

theorem find?_erase {q : Block → Bool} (hb : ¬q b = true) : (bs.erase b).find? q = bs.find? q := by
  induction bs
  case nil => rfl
  case cons c bs hi =>
    rw [List.erase_cons]
    split
    case isTrue h =>
      obtain rfl : c = b := by simpa using h
      exact (List.find?_cons_of_neg hb).symm
    case isFalse =>
      by_cases hc : q c = true
      case pos => rw [List.find?_cons_of_pos hc, List.find?_cons_of_pos hc]
      case neg => rw [List.find?_cons_of_neg hc, List.find?_cons_of_neg hc, hi]

theorem growAllocMap_frame (h : growAllocMap s = .ok s') : s'.tables = s.tables ∧ s'.bumpBase = s.bumpBase ∧
    s'.bumpPtr = s.bumpPtr ∧ s'.bumpSize = s.bumpSize ∧ chunk s' = chunk s := by
  obtain ⟨⟨ptr, s₁⟩, h₁, h⟩ := Except.bind_ok_iff.mp h
  obtain ⟨pool, _, rfl⟩ := allocTable_ok h₁
  cases h
  refine ⟨rfl, rfl, rfl, rfl, ?_⟩
  exact (find?_erase (by simp)).trans (List.find?_cons_of_neg (by simp))

theorem recordAlloc_frame (h : recordAlloc bptr ptr sz virt type align s = .ok s') : s'.tables = s.tables ∧
    s'.bumpBase = s.bumpBase ∧ s'.bumpPtr = s.bumpPtr ∧ s'.bumpSize = s.bumpSize ∧ chunk s' = chunk s := by
  by_cases hm : s.mapPtr + 1 = s.mapMax
  case pos =>
    obtain ⟨htables, hbase, hptr, hsize, hchunk⟩ := growAllocMap_frame ((if_pos hm).symm.trans h)
    exact ⟨htables, hbase, hptr, hsize, hchunk⟩
  case neg =>
    cases (if_neg hm).symm.trans h
    exact ⟨rfl, rfl, rfl, rfl, rfl⟩

-- What `allocMem` takes from the pool and clears.
def Request.take (clearMem : ClearMem) (r : Request) (s : Boot) : Except Exit ((Word × Word × Nat) × Boot) :=
  allocBlock clearMem Boot.clearAllocMap r.sz.toNat r.temp r.align r.clear s

theorem Request.allocBlock_frame (h : r.take clearMem s = .ok ((bptr, ptr, n), s')) :
    (Answers s bptr ∧ ptr = r.ptr bptr ∧ n = r.size ∧
      s'.tables = if r.clear then clearMem (r.ptr bptr) r.size s.tables else s.tables) ∧
    s'.bumpBase = s.bumpBase ∧ s'.bumpPtr = s.bumpPtr ∧ s'.bumpSize = s.bumpSize ∧ chunk s' = chunk s ∧
      r.block bptr ∈ s'.blocks := by
  obtain ⟨pool, hpool, hn, rfl, rfl, rfl⟩ := allocBlock_ok h
  have ha : Answers s bptr := ⟨by rw [hpool]; rfl, hn⟩
  have hchunk : (r.block bptr :: s.blocks).find? (fun b => b.use = .tables) = chunk s := by
    refine List.find?_cons_of_neg ?_
    rw [Request.block]
    cases r.temp
    case true  => simp
    case false => simp
  cases r.clear
  case true  => exact ⟨⟨ha, rfl, rfl, rfl⟩, rfl, rfl, rfl, hchunk, List.mem_cons_self ..⟩
  case false => exact ⟨⟨ha, rfl, rfl, rfl⟩, rfl, rfl, rfl, hchunk, List.mem_cons_self ..⟩

-- `allocMem` clears the block's size from the pointer on that the caller gets.
theorem Request.alloc_ok (h : r.alloc clearMem s = .ok (p, s')) : (∃ bptr, Answers s bptr ∧ p = r.ptr bptr ∧
    s'.tables = if r.clear then clearMem (r.ptr bptr) r.size s.tables else s.tables) ∧
      s'.bumpBase = s.bumpBase ∧ s'.bumpPtr = s.bumpPtr ∧ s'.bumpSize = s.bumpSize ∧ chunk s' = chunk s := by
  obtain ⟨bptr, n, s₁, hb, h⟩ := allocMemWith_ok h
  obtain ⟨⟨ha, rfl, rfl, htables⟩, hbase, hptr, hsize, hchunk, -⟩ := r.allocBlock_frame hb
  cases ht : r.temp
  case true =>
    rw [ht] at h
    cases h
    exact ⟨⟨bptr, ha, rfl, htables⟩, hbase, hptr, hsize, hchunk⟩
  case false =>
    rw [ht] at h
    obtain ⟨htables', hbase', hptr', hsize', hchunk'⟩ := recordAlloc_frame h
    exact ⟨⟨bptr, ha, rfl, htables'.trans htables⟩, hbase'.trans hbase, hptr'.trans hptr, hsize'.trans hsize,
      hchunk'.trans hchunk⟩

-- What a call should clear: no byte outside of the block that the pool has given for it, and all that
-- the caller gets.
def Right (clearMem : ClearMem) (s : Boot) (c : Call) : Prop :=
  match c with
  | .alloc r   => ∀ bptr ptr n s', r.take clearMem s = .ok ((bptr, ptr, n), s') → r.clear = true →
    s'.tables = clearMem ptr n s.tables ∧ r.block bptr ∈ s'.blocks ∧ Within ptr n (r.block bptr) ∧
      ∀ x, ptr.toNat ≤ x → x < ptr.toNat + r.sz.toNat → x < ptr.toNat + n
  | .page      => ∃ f s', pgAlloc clearMem s = .ok (f, s') ∧ ∃ b, chunk s' = some b ∧ Within f 0x1000 b
  | .store _   => True
  | .free _    => True

-- An aligned block is not to be cleared. A new chunk is not asked for in vain.
def Fits (s : Boot) (c : Call) : Prop :=
  match c with
  | .alloc r   => ¬(r.align = true ∧ r.clear = true) ∨ ∀ bptr, ¬Answers s bptr
  | .page      => s.bumpPtr ≠ s.bumpSize ∨ ∃ bptr, Answers s bptr
  | .store _   => True
  | .free _    => True

section Alloc

-- An aligned pointer is behind the start of its block, and so is the end of what is cleared.
theorem not_within_aligned (ha : r.align = true) (hb : bptr.toNat + r.size ≤ 2 ^ 64) :
    ¬(Within (r.ptr bptr) r.size (r.block bptr) ∧
      ∀ x, (r.ptr bptr).toNat ≤ x → x < (r.ptr bptr).toNat + r.sz.toNat → x < (r.ptr bptr).toNat + r.size) := by
  rintro ⟨hw, hr⟩
  have hptr : r.ptr bptr = kalign bptr + pageSz := if_pos ha
  have hsize : r.size = u64 (r.sz.toNat + 0x1000) := if_pos ha
  have hsz := r.sz.isLt
  by_cases hs : r.sz.toNat + 0x1000 < 2 ^ 64
  case neg =>
    -- The size that the pool is asked for has wrapped around.
    have hlt : r.size < r.sz.toNat := by
      rw [hsize, u64]
      omega
    exact absurd (hr _ (Nat.le_add_right _ _) (Nat.add_lt_add_left hlt _)) (Nat.lt_irrefl _)
  case pos =>
    rw [u64_of_lt hs] at hsize
    by_cases hend : bptr.toNat + 0x1000 < 2 ^ 64
    case pos =>
      obtain ⟨hlt, -⟩ := nextPage hend
      rw [← hptr] at hlt
      obtain ⟨-, hu⟩ := hw ((r.ptr bptr).toNat + r.size - 1) (by omega) (by omega)
      change _ < bptr.toNat + r.size at hu
      omega
    case neg =>
      -- The block is the last page.
      have hz : (r.ptr bptr).toNat = 0 := by
        have hpage : pageSz.toNat = 0x1000 := rfl
        rw [hptr, BitVec.toNat_add, hpage, kalign_toNat]
        omega
      obtain ⟨hl, -⟩ := hw 0 (by omega) (by omega)
      change bptr.toNat ≤ 0 at hl
      omega

theorem Request.take_returns (h : Answers s bptr) : ∃ ptr n s', r.take clearMem s = .ok ((bptr, ptr, n), s') := by
  obtain ⟨pool, hpool⟩ : ∃ pool, s.pool = bptr :: pool := List.head?_eq_some_iff.mp h.left
  obtain ⟨ptr, n, s', ht, -⟩ := allocBlock_returns hpool h.right
  exact ⟨ptr, n, s', ht⟩

theorem right_alloc_iff (hm : InMemory s (.alloc r)) : Right clearMem s (.alloc r) ↔ Fits s (.alloc r) := by
  constructor
  case mp =>
    intro h
    by_cases hac : r.align = true ∧ r.clear = true
    case neg => exact .inl hac
    case pos =>
      refine .inr fun bptr ha => ?_
      obtain ⟨ptr, n, s', ht⟩ := r.take_returns ha
      obtain ⟨-, -, hw, hr⟩ := h bptr ptr n s' ht hac.right
      obtain ⟨⟨-, rfl, rfl, -⟩, -⟩ := r.allocBlock_frame ht
      exact not_within_aligned hac.left (hm bptr ha) ⟨hw, hr⟩
  case mpr =>
    intro h bptr ptr n s' ht hc
    obtain ⟨⟨ha, rfl, rfl, htables⟩, -, -, -, -, hblock⟩ := r.allocBlock_frame ht
    refine ⟨htables.trans (if_pos hc), hblock, ?_⟩
    have hal : ¬r.align = true := fun hal => h.elim (fun hac => hac ⟨hal, hc⟩) fun hn => hn bptr ha
    have hptr : r.ptr bptr = bptr := if_neg hal
    have hsize : r.size = r.sz.toNat := if_neg hal
    rw [hptr]
    refine ⟨fun x hl hu => ⟨hl, hu⟩, fun x _ hu => ?_⟩
    rw [hsize]
    exact hu

end Alloc

section Page

-- The tables are cut from the last chunk, which lies in memory.
structure Chunked (s : Boot) : Prop where
  ptr   : s.bumpPtr.toNat % 0x1000 = 0
  size  : s.bumpSize.toNat % 0x1000 = 0
  le    : s.bumpPtr.toNat ≤ s.bumpSize.toNat
  block : s.bumpPtr ≠ s.bumpSize → ∃ b, chunk s = some b ∧ b.ptr.toNat ≤ s.bumpBase.toNat ∧
    s.bumpBase.toNat + s.bumpSize.toNat ≤ b.ptr.toNat + b.size ∧ b.ptr.toNat + b.size ≤ 2 ^ 64

theorem Chunked.congr (h : Chunked s) (hbase : s'.bumpBase = s.bumpBase) (hptr : s'.bumpPtr = s.bumpPtr)
    (hsize : s'.bumpSize = s.bumpSize) (hchunk : chunk s' = chunk s) : Chunked s' := by
  refine ⟨?_, ?_, ?_, ?_⟩
  case refine_1 => rw [hptr]; exact h.ptr
  case refine_2 => rw [hsize]; exact h.size
  case refine_3 => rw [hptr, hsize]; exact h.le
  case refine_4 => rw [hptr, hsize, hbase, hchunk]; exact h.block

theorem chunked_start (h : s.bumpPtr = 0#64) (h' : s.bumpSize = 0#64) : Chunked s := by
  refine ⟨?_, ?_, ?_, fun hne => absurd (h.trans h'.symm) hne⟩
  case refine_1 => rw [h]; rfl
  case refine_2 => rw [h']; rfl
  case refine_3 => rw [h, h']

-- A frame of the chunk is in its block.
theorem Chunked.within (h : Chunked s) (hne : s.bumpPtr ≠ s.bumpSize) :
    ∃ b, chunk s = some b ∧ Within (s.bumpBase + s.bumpPtr) 0x1000 b := by
  obtain ⟨b, hb, hlo, hhi, hmem⟩ := h.block hne
  obtain ⟨hroom, -⟩ := bump_room h.ptr h.size h.le hne
  have hsum : (s.bumpBase + s.bumpPtr).toNat = s.bumpBase.toNat + s.bumpPtr.toNat := by
    rw [BitVec.toNat_add]
    exact Nat.mod_eq_of_lt (by omega)
  refine ⟨b, hb, fun x hl hu => ?_⟩
  rw [hsum] at hl hu
  exact ⟨by omega, by omega⟩

-- The rest of the chunk is left.
theorem Chunked.take (h : Chunked s) (hne : s.bumpPtr ≠ s.bumpSize) :
    Chunked { s with tables, bumpPtr := s.bumpPtr + 0x1000 } := by
  have hp := h.ptr
  obtain ⟨hroom, hnext⟩ := bump_room hp h.size h.le hne
  refine ⟨?_, h.size, ?_, fun _ => h.block hne⟩
  case refine_1 =>
    change (s.bumpPtr + 0x1000).toNat % 0x1000 = 0
    omega
  case refine_2 =>
    change (s.bumpPtr + 0x1000).toNat ≤ s.bumpSize.toNat
    omega

theorem newBump_chunked {pool : List Word} (h : ptr.toNat + (bumpChunk + 0x1000) ≤ 2 ^ 64) :
    Chunked (newBump s ptr pool) := by
  obtain ⟨hlt, -, hfit⟩ := newChunk h
  have hsize : (newBump s ptr pool).bumpSize.toNat = bumpChunk := rfl
  have hptr : (newBump s ptr pool).bumpPtr.toNat = 0 := rfl
  refine ⟨?_, ?_, ?_, fun _ => ⟨_, rfl, Nat.le_of_lt hlt, hfit, h⟩⟩
  case refine_1 => rw [hptr]
  case refine_2 => rw [hsize]; rfl
  case refine_3 => rw [hptr]; exact Nat.zero_le _

theorem growBump_answers (h : growBump s = .ok s₁) (he : s.bumpPtr = s.bumpSize) : ∃ ptr, Answers s ptr := by
  rw [growBump, if_pos he] at h
  obtain ⟨⟨ptr, s₂⟩, ha, -⟩ := Except.bind_ok_iff.mp h
  obtain ⟨pool, hpool, -⟩ := allocTable_ok ha
  refine ⟨ptr, by rw [hpool]; rfl, ?_⟩
  rintro rfl
  simp [allocTable, allocPool, hpool] at ha

theorem growBump_chunked (h : Chunked s) (hm : InMemory s .page) (hf : s.bumpPtr ≠ s.bumpSize ∨ ∃ ptr, Answers s ptr) :
    ∃ s₁, growBump s = .ok s₁ ∧ Chunked s₁ ∧ s₁.bumpPtr ≠ s₁.bumpSize := by
  by_cases he : s.bumpPtr = s.bumpSize
  case neg => exact ⟨s, if_neg he, h, he⟩
  case pos =>
    obtain ⟨ptr, ha⟩ := hf.resolve_left fun hne => hne he
    obtain ⟨pool, hpool⟩ : ∃ pool, s.pool = ptr :: pool := List.head?_eq_some_iff.mp ha.left
    exact ⟨_, growBump_new he hpool ha.right, newBump_chunked (hm ptr ha), newBump_ne s ptr pool⟩

theorem fits_page_of_growBump (h : growBump s = .ok s₁) : s.bumpPtr ≠ s.bumpSize ∨ ∃ ptr, Answers s ptr := by
  by_cases he : s.bumpPtr = s.bumpSize
  case neg => exact .inl he
  case pos => exact .inr (growBump_answers h he)

theorem right_page_iff (h : Chunked s) (hm : InMemory s .page) : Right clearMem s .page ↔ Fits s .page := by
  constructor
  case mp =>
    rintro ⟨f, s', ha, -⟩
    obtain ⟨s₁, hs, -⟩ := Except.bind_ok_iff.mp ha
    exact fits_page_of_growBump hs
  case mpr =>
    intro hf
    obtain ⟨s₁, hs, hc, hne⟩ := growBump_chunked h hm hf
    exact ⟨_, _, pgAlloc_of_growBump hs, hc.within hne⟩

theorem Chunked.page (h : Chunked s) (hm : InMemory s .page) (ha : pgAlloc clearMem s = .ok (f, s')) : Chunked s' := by
  obtain ⟨s₁, hs, -⟩ := Except.bind_ok_iff.mp ha
  obtain ⟨s₂, hs', hc, hne⟩ := growBump_chunked h hm (fits_page_of_growBump hs)
  cases ha.symm.trans (pgAlloc_of_growBump hs')
  exact hc.take hne

end Page

section Runs

theorem chunk_freePool : chunk (freePool ptr s) = chunk s := by
  rw [chunk, freePool, List.find?_filter]
  congr 1
  funext b
  by_cases hb : b.use = .tables
  case pos => simp [hb]
  case neg => simp [hb]

theorem Chunked.step {c : Call} (h : Chunked s) (hm : InMemory s c) (hs : c.Step clearMem s s') : Chunked s' := by
  cases c
  case alloc r =>
    obtain ⟨p, ha⟩ := hs
    obtain ⟨-, hbase, hptr, hsize, hchunk⟩ := Request.alloc_ok ha
    exact h.congr hbase hptr hsize hchunk
  case page =>
    obtain ⟨f, ha⟩ := hs
    exact h.page hm ha
  case store tables =>
    cases hs
    exact h.congr rfl rfl rfl rfl
  case free ptr =>
    cases hs
    exact h.congr rfl rfl rfl chunk_freePool

theorem Chunked.right_iff {c : Call} (h : Chunked s) (hm : InMemory s c) : Right clearMem s c ↔ Fits s c := by
  cases c
  case alloc r      => exact right_alloc_iff hm
  case page         => exact right_page_iff h hm
  case store tables => exact Iff.rfl
  case free ptr     => exact Iff.rfl

-- Whatever the loader has done before, a call clears its own block, unless it asks for an aligned block
-- to be cleared, or for a chunk that the pool does not have.
theorem clearing_right_iff {tables : Tables} {allocMap : Nat → MmapEntry} {pool : List Word} {c : Call}
    (h : Steps (fun s c s' => c.Step clearMem s s') InMemory (.start tables allocMap pool) s) (hm : InMemory s c) :
    Right clearMem s c ↔ Fits s c :=
  (h.invariant (chunked_start rfl rfl) fun hi hm hs => hi.step hm hs).right_iff hm

end Runs

section Example

-- One page, aligned and cleared.
def onePage : Boot := .start (fun _ _ => 0) (fun _ => zeroEntry) [0x100000]

theorem onePage_inMemory : InMemory onePage (.alloc temporaryRequest) := by
  rintro ptr ⟨hp, -⟩
  obtain rfl : 0x100000 = ptr := Option.some.inj hp
  decide

-- The block has two pages, and the two pages behind its first one are cleared.
theorem allocMem_clears_outside : ¬∀ (tables : Tables) (allocMap : Nat → MmapEntry) (pool : List Word) (c : Call),
    InMemory (.start tables allocMap pool) c → Right clearRange (.start tables allocMap pool) c := by
  intro h
  have hr : Right clearRange onePage (.alloc temporaryRequest) := h _ _ _ _ onePage_inMemory
  rcases (right_alloc_iff onePage_inMemory).mp hr with hac | hn
  · exact hac ⟨rfl, rfl⟩
  · exact hn 0x100000 ⟨rfl, by decide⟩

theorem answers_eq {a : Word} (ha : s.pool.head? = some a) (h : Answers s ptr) : ptr = a :=
  Option.some.inj (h.left.symm.trans ha)

-- With a table cut from a chunk, the next one is cleared inside of the chunk, and a block that is not
-- aligned inside of itself.
theorem clearing_right_onePage : ∃ s, Steps (fun s c s' => Call.Step clearRange s c s') InMemory
    (.start (fun _ _ => 0xFFF) (fun _ => zeroEntry) [0x100000, 0x800000]) s ∧ s.bumpPtr = 0x1000 ∧
      Right clearRange s .page ∧ Right clearRange s (.alloc clearedRequest) := by
  obtain ⟨f, s, ha, hptr, hsize, hpool⟩ : ∃ f s, pgAlloc clearRange (.start (fun _ _ => 0xFFF)
        (fun _ => zeroEntry) [0x100000, 0x800000]) = .ok (f, s) ∧ s.bumpPtr = 0x1000 ∧
      s.bumpSize = 0x400000 ∧ s.pool.head? = some 0x800000 := ⟨_, _, rfl, rfl, rfl, rfl⟩
  have run : Steps (fun s c s' => Call.Step clearRange s c s') InMemory
      (.start (fun _ _ => 0xFFF) (fun _ => zeroEntry) [0x100000, 0x800000]) s := by
    refine .step (l := .page) (.refl _) (fun ptr h => ?_) ⟨f, ha⟩
    rw [answers_eq (a := 0x100000) rfl h]
    decide
  have hpage : InMemory s .page := fun ptr h => by rw [answers_eq hpool h]; decide
  have halloc : InMemory s (.alloc clearedRequest) := fun ptr h => by rw [answers_eq hpool h]; decide
  have hne : s.bumpPtr ≠ s.bumpSize := by
    rw [hptr, hsize]
    decide
  refine ⟨s, run, hptr, (clearing_right_iff run hpage).mpr (.inl hne), (clearing_right_iff run halloc).mpr (.inl ?_)⟩
  rintro ⟨hal, -⟩
  cases hal

end Example

end RoverOS.Bootloader
