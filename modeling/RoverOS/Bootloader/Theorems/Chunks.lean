import RoverOS.Bootloader.Theorems.Identity
import RoverOS.Bootloader.Theorems.Clearing

-- The page tables are cut from blocks of their own, so what else is taken from the pool does not
-- change the map they stand for.

open Radix (InUse walk_congr entry_congr)

namespace RoverOS.Bootloader

open Paging

-- The state as `mapPage` sees it.
def Boot.onlyTables (s : Boot) : Boot :=
  { s with blocks := s.blocks.filter (·.use = .tables) }

variable {clearMem : ClearMem} {s s' : Boot} {f tbl ptr phys virt : Word} {n : Index} {write execute : Bool}
  {c : MapCall} {calls : List MapCall} {m : Word → Option MapCall} {bs bs' : List Block} {b : Block} {sz k : Nat}

section OnlyTables

theorem allocTable_onlyTables (h : allocTable sz .tables s = .ok (ptr, s')) :
    allocTable sz .tables s.onlyTables = .ok (ptr, s'.onlyTables) := by
  obtain ⟨pool, hpool, rfl⟩ := allocTable_ok h
  have hz : ptr ≠ 0#64 := by
    rintro rfl
    simp [allocTable, allocPool, hpool] at h
  rw [allocTable, allocPool_cons (s := s.onlyTables) hpool hz]
  exact if_neg hz

theorem growBump_onlyTables (h : growBump s = .ok s') : growBump s.onlyTables = .ok s'.onlyTables := by
  rw [growBump] at h
  split at h
  case isFalse hne =>
    cases h
    exact if_neg hne
  case isTrue he =>
    obtain ⟨⟨base, s₁⟩, ha, h⟩ := Except.bind_ok_iff.mp h
    cases h
    exact (if_pos he).trans (Except.bind_ok_iff.mpr ⟨_, allocTable_onlyTables ha, rfl⟩)

theorem pgAlloc_onlyTables (h : pgAlloc clearMem s = .ok (f, s')) : pgAlloc clearMem s.onlyTables = .ok (f, s'.onlyTables) := by
  obtain ⟨s₁, hs, h⟩ := Except.bind_ok_iff.mp h
  cases h
  exact Except.bind_ok_iff.mpr ⟨_, growBump_onlyTables hs, rfl⟩

theorem linkTable_onlyTables (h : linkTable clearMem tbl n s = .ok s') :
    linkTable clearMem tbl n s.onlyTables = .ok s'.onlyTables := by
  rw [linkTable] at h
  split at h
  case isFalse hb =>
    cases h
    exact if_neg hb
  case isTrue hb =>
    obtain ⟨⟨f, s₁⟩, ha, h⟩ := Except.bind_ok_iff.mp h
    refine (if_pos hb).trans (Except.bind_ok_iff.mpr ⟨_, pgAlloc_onlyTables ha, ?_⟩)
    simp only at h
    split at h
    case isFalse => cases h
    case isTrue hs =>
      cases h
      exact if_pos hs

theorem mapPage_onlyTables (h : mapPage clearMem phys virt write execute s = .ok s') :
    mapPage clearMem phys virt write execute s.onlyTables = .ok s'.onlyTables := by
  obtain ⟨s₁, h₁, h⟩ := Except.bind_ok_iff.mp h
  obtain ⟨s₂, h₂, h⟩ := Except.bind_ok_iff.mp h
  obtain ⟨s₃, h₃, h⟩ := Except.bind_ok_iff.mp h
  cases h
  refine Except.bind_ok_iff.mpr ⟨_, linkTable_onlyTables h₁, ?_⟩
  refine Except.bind_ok_iff.mpr ⟨_, linkTable_onlyTables h₂, ?_⟩
  exact Except.bind_ok_iff.mpr ⟨_, linkTable_onlyTables h₃, rfl⟩

theorem mapCalls_onlyTables (h : mapCalls clearMem calls s = .ok s') :
    mapCalls clearMem calls s.onlyTables = .ok s'.onlyTables := by
  induction calls generalizing s
  case nil =>
    cases h
    rfl
  case cons c calls hi =>
    obtain ⟨s₁, h₁, h⟩ := Except.bind_ok_iff.mp h
    exact Except.bind_ok_iff.mpr ⟨_, mapPage_onlyTables h₁, hi h⟩

end OnlyTables

section Run

theorem mapPage_blocks (h : mapPage clearMem phys virt write execute s = .ok s') : s.blocks.Sublist s'.blocks := by
  obtain ⟨s₁, h₁, h⟩ := Except.bind_ok_iff.mp h
  obtain ⟨s₂, h₂, h⟩ := Except.bind_ok_iff.mp h
  obtain ⟨s₃, h₃, h⟩ := Except.bind_ok_iff.mp h
  cases h
  have hb₃ : s₂.blocks.Sublist s₃.blocks := linkTable_blocks h₃
  exact (linkTable_blocks h₁).trans ((linkTable_blocks h₂).trans hb₃)

theorem mapCalls_blocks (h : mapCalls clearMem calls s = .ok s') : s.blocks.Sublist s'.blocks := by
  induction calls generalizing s
  case nil =>
    cases h
    exact .refl _
  case cons c calls hi =>
    obtain ⟨s₁, h₁, h⟩ := Except.bind_ok_iff.mp h
    exact (mapPage_blocks h₁).trans (hi h)

theorem lastCall_cons (virt : Word) :
    lastCall (c :: calls) virt = (lastCall calls virt).or (if SamePage virt c.virt then some c else none) := by
  rw [lastCall, List.reverse_cons, List.find?_append]
  congr 1
  by_cases h : SamePage virt c.virt
  · rw [if_pos h]
    exact List.find?_cons_of_pos (decide_eq_true h)
  · rw [if_neg h]
    exact List.find?_cons_of_neg (by simpa using h)

-- Only the blocks in the end are asked to lie apart.
theorem Represents.mapCalls_or (hc : Clears clearMem) (r : Represents s m) (h : Bootloader.mapCalls clearMem calls s = .ok s')
    (hf : Fresh s'.blocks) : Represents s' fun v => (lastCall calls v).or (m v) := by
  induction calls generalizing s m
  case nil =>
    cases h
    exact r
  case cons c calls hi =>
    obtain ⟨s₁, h₁, h⟩ := Except.bind_ok_iff.mp h
    have r₁ := r.mapPage hc h₁ (hf.sublist (mapCalls_blocks h))
    refine (hi r₁ h).congr fun v => ?_
    rw [lastCall_cons, Option.or_assoc]
    congr 1
    split <;> rfl

-- The map stays while the frames of its tables do.
theorem Represents.of_tables (r : Represents s m) (ht : ∀ a, InUse child s.tables {s.pml} 3 a → s'.tables a = s.tables a)
    (hpml : s'.pml = s.pml) (hbase : s'.bumpBase = s.bumpBase) (hptr : s'.bumpPtr = s.bumpPtr)
    (hsize : s'.bumpSize = s.bumpSize) (hblocks : s'.blocks = s.blocks) : Represents s' m := by
  have hwalk {p : List Index} (hp : p.length ≤ 3) : Radix.walk child s'.tables s'.pml p = Radix.walk child s.tables s.pml p := by
    rw [hpml]
    exact walk_congr ht (Set.mem_singleton _) hp
  have hentry {q : List Index} {i : Index} (hq : q.length ≤ 3) :
      Radix.entry child s'.tables s'.pml q i = Radix.entry child s.tables s.pml q i := by
    rw [hpml]
    exact entry_congr ht (Set.mem_singleton _) hq
  have b := r.built
  refine ⟨⟨?tree, ?bump, ?frames, ?blank⟩, ?mapped, ?unmapped⟩
  case tree =>
    rw [hpml]
    exact b.tree.congr ht
  case bump =>
    exact {
      base  := hbase ▸ b.bump.base
      ptr   := hptr ▸ b.bump.ptr
      size  := hsize ▸ b.bump.size
      le    := hptr ▸ hsize ▸ b.bump.le
      block := hptr ▸ hsize ▸ hbase ▸ hblocks ▸ b.bump.block
    }
  case frames =>
    rintro a ⟨r', rfl, p, hp, ha⟩
    rw [hwalk hp] at ha
    obtain ⟨hmod, hi⟩ := b.frames a ⟨_, rfl, p, hp, ha⟩
    rw [Issued, hbase, hptr, hsize, hblocks]
    exact ⟨hmod, hi⟩
  case blank =>
    intro q n e hq he
    exact b.blank q n e hq ((hentry hq.le).symm.trans he)
  case mapped =>
    intro virt c hv
    obtain ⟨hu, hl⟩ := r.mapped hv
    constructor
    case upper =>
      intro q n hq
      have hlen : q.length < 3 := by simpa [Nat.lt_succ_iff] using hq.length_le
      rw [hentry hlen.le]
      exact hu q n hq
    case leaf => exact (hentry (by simp)).trans hl
  case unmapped =>
    intro virt hv
    rw [Unmapped, hentry (by simp)]
    exact r.unmapped hv

end Run

section Alloc

-- The blocks that are never given back.
def Block.held (b : Block) : Bool :=
  b.use = .tables ∨ b.use = .recorded

-- `allocMem` clears up to one page behind the block that it gets.
def Block.wide (b : Block) : Block :=
  if b.use = .recorded then { b with size := b.size + 0x1000 } else b

-- The pool leaves a page behind each block of `allocMem`.
def Roomy (s : Boot) : Prop :=
  Fresh ((s.blocks.filter Block.held).map Block.wide)

-- Only the books of `allocMap` have changed.
structure SameTables (s s' : Boot) : Prop where
  tables : s'.tables = s.tables
  pml    : s'.pml = s.pml
  base   : s'.bumpBase = s.bumpBase
  ptr    : s'.bumpPtr = s.bumpPtr
  size   : s'.bumpSize = s.bumpSize
  blocks : ∀ q : Block → Bool, (∀ b : Block, b.use = .allocMap → ¬q b = true) →
    s'.blocks.filter q = s.blocks.filter q

theorem Roomy.of_sublist (h : Roomy s') (hs : (s.blocks.filter Block.held).Sublist (s'.blocks.filter Block.held)) :
    Roomy s :=
  h.sublist (hs.map _)

theorem wide_use : b.wide.use = b.use := by
  rw [Block.wide]
  split <;> rfl

theorem wide_of_tables (h : b.use = .tables) : b.wide = b :=
  if_neg (by simp [h])

theorem Roomy.tables (h : Roomy s) : Fresh s.onlyTables.blocks := by
  have hheld : (s.blocks.filter Block.held).filter (·.use = .tables) = s.onlyTables.blocks := by
    rw [List.filter_filter]
    refine List.filter_congr fun b _ => ?_
    by_cases hb : b.use = .tables <;> simp [hb, Block.held]
  have hmap : ((s.blocks.filter Block.held).map Block.wide).filter (·.use = .tables) = s.onlyTables.blocks := by
    rw [List.filter_map, ← hheld]
    have hcomp : ((fun b : Block => decide (b.use = .tables)) ∘ Block.wide) = fun b => decide (b.use = .tables) := by
      funext b
      simp only [Function.comp_apply, wide_use]
    rw [hcomp]
    refine (List.map_congr_left fun b hb => ?_).trans (List.map_id _)
    exact wide_of_tables (of_decide_eq_true (List.mem_filter.mp hb).right)
  rw [← hmap]
  exact h.sublist List.filter_sublist

theorem filter_erase {q : Block → Bool} (hb : ¬q b = true) : (bs.erase b).filter q = bs.filter q := by
  induction bs
  case nil => rfl
  case cons c bs hi =>
    rw [List.erase_cons]
    split
    case isTrue h =>
      obtain rfl : c = b := by simpa using h
      exact (List.filter_cons_of_neg hb).symm
    case isFalse => rw [List.filter_cons, List.filter_cons, hi]

theorem growAllocMap_sameTables (h : growAllocMap s = .ok s') : SameTables s s' := by
  obtain ⟨⟨ptr, s₁⟩, h₁, h⟩ := Except.bind_ok_iff.mp h
  obtain ⟨pool, _, rfl⟩ := allocTable_ok h₁
  cases h
  refine ⟨rfl, rfl, rfl, rfl, rfl, fun q hq => ?_⟩
  exact (filter_erase (hq _ rfl)).trans (List.filter_cons_of_neg (hq _ rfl))

theorem recordAlloc_sameTables {bptr : Word} {type : Nat} {align : Bool}
    (h : recordAlloc bptr ptr sz virt type align s = .ok s') : SameTables s s' := by
  by_cases hm : s.mapPtr + 1 = s.mapMax
  case pos =>
    have hs := growAllocMap_sameTables ((if_pos hm).symm.trans h)
    exact ⟨hs.tables, hs.pml, hs.base, hs.ptr, hs.size, hs.blocks⟩
  case neg =>
    cases (if_neg hm).symm.trans h
    exact ⟨rfl, rfl, rfl, rfl, rfl, fun _ _ => rfl⟩

-- What `allocMem` does for a section of `sz` bytes.
structure Aligned (clearMem : ClearMem) (s : Boot) (ptr : Word) (sz : Nat) (s' : Boot) (b : Block) : Prop where
  use    : b.use = .recorded
  size   : b.size = sz + 0x1000
  start  : ptr = kalign b.ptr + pageSz
  blocks : s'.blocks.filter Block.held = b :: s.blocks.filter Block.held
  only   : s'.onlyTables.blocks = s.onlyTables.blocks
  tables : s'.tables = clearMem ptr (sz + 0x1000) s.tables
  pml    : s'.pml = s.pml
  base   : s'.bumpBase = s.bumpBase
  bump   : s'.bumpPtr = s.bumpPtr
  limit  : s'.bumpSize = s.bumpSize

theorem allocMem_aligned {type : Nat} (h : allocMem clearMem sz virt type false true true s = .ok (ptr, s'))
    (hsz : sz + 0x1000 < 2 ^ 64) : ∃ b, Aligned clearMem s ptr sz s' b := by
  obtain ⟨bptr, pool, -, -, hptr, h⟩ := allocMem_ok h
  have hs := recordAlloc_sameTables h
  simp only [if_true, u64_of_lt hsz] at hs
  have hheld := hs.blocks Block.held (by simp +contextual [Block.held])
  have honly := hs.blocks (·.use = .tables) (by simp +contextual)
  refine ⟨{ ptr := bptr, size := sz + 0x1000, use := .recorded }, rfl, rfl, hptr, ?_, ?_, hs.tables, hs.pml, hs.base,
    hs.ptr, hs.size⟩
  · exact hheld.trans (List.filter_cons_of_pos rfl)
  · exact honly.trans (List.filter_cons_of_neg (by simp))

theorem Aligned.has (g : Aligned clearMem s ptr sz s' b) (hroom : Roomy s') :
    b.ptr.toNat < ptr.toNat ∧ ptr.toNat + sz ≤ b.ptr.toNat + b.size ∧ b.wide.ptr.toNat + b.wide.size ≤ 2 ^ 52 ∧
      ptr.toNat % 0x1000 = 0 ∧ b.wide.ptr = b.ptr ∧ b.wide.size = b.size + 0x1000 := by
  have hwide : b.wide = { b with size := b.size + 0x1000 } := if_pos g.use
  have hbelow : b.wide.ptr.toNat + b.wide.size ≤ 2 ^ 52 := by
    rw [Roomy, g.blocks, List.map_cons] at hroom
    exact hroom.below _ List.mem_cons_self
  rw [hwide] at hbelow ⊢
  have hsize := g.size
  simp only at hbelow
  obtain ⟨hlt, hle⟩ := @nextPage b.ptr (by omega)
  rw [← g.start] at hlt hle
  have hmod : ptr.toNat % 0x1000 = 0 := by
    have hb := @kalign_toNat b.ptr
    have hpage : pageSz.toNat = 0x1000 := rfl
    rw [g.start, BitVec.toNat_add, hpage, hb]
    omega
  exact ⟨hlt, by omega, hbelow, hmod, rfl, rfl⟩

-- What is cleared or read for the section is apart from the other blocks.
theorem Aligned.apart (g : Aligned clearMem s ptr sz s' b) (hroom : Roomy s') {b' : Block} (hb : b' ∈ s.blocks)
    (hheld : b'.held = true) : ptr.toNat + sz + 0x1000 ≤ b'.ptr.toNat ∨ b'.wide.ptr.toNat + b'.wide.size ≤ ptr.toNat := by
  obtain ⟨hlt, hle, -, -, hptr, hsize⟩ := g.has hroom
  rw [Roomy, g.blocks, List.map_cons] at hroom
  have hmem : b'.wide ∈ (s.blocks.filter Block.held).map Block.wide :=
    List.mem_map.mpr ⟨b', List.mem_filter.mpr ⟨hb, hheld⟩, rfl⟩
  have ha := (List.pairwise_cons.mp hroom.apart).left _ hmem
  have hbptr : b'.wide.ptr = b'.ptr := by
    rw [Block.wide]
    split <;> rfl
  rw [hptr, hsize, ← Nat.add_assoc] at ha
  rw [hbptr] at ha ⊢
  generalize b'.wide.size = n at ha ⊢
  omega

-- The frame of a table is in a block of tables, and nothing is cleared there.
theorem Represents.aligned (hc : Clears clearMem) (r : Represents s.onlyTables m) (g : Aligned clearMem s ptr sz s' b)
    (hroom : Roomy s') : Represents s'.onlyTables m := by
  refine r.of_tables (fun a ha => ?_) g.pml g.base g.bump g.limit g.only
  obtain ⟨-, ⟨b', hb, hlo, hhi⟩, -⟩ := r.built.frames a ha
  obtain ⟨hb, hu⟩ := List.mem_filter.mp hb
  have hu : b'.use = .tables := of_decide_eq_true hu
  have hapart := g.apart hroom hb (by simp [Block.held, hu])
  rw [wide_of_tables hu] at hapart
  change s'.tables a = s.tables a
  rw [g.tables]
  exact hc.other (by omega)

end Alloc
section Initial

variable {s₀ : Boot} {tables : Tables} {allocMap : Nat → MmapEntry} {pool : List Word} {descs : List Descriptor}

theorem initPml_onlyTables (hc : Clears clearMem) (h : initPml clearMem (.start tables allocMap pool) = .ok s₀)
    (hf : Fresh s₀.onlyTables.blocks) : Represents s₀.onlyTables (lastCall []) := by
  obtain ⟨s₁, s₂, pml, rfl, hptr, hsize, hbase, ha⟩ := initPml_ok h
  have hptr' : s₁.onlyTables.bumpPtr = 0#64 := hptr
  exact represents_root hc hptr' hsize hbase (pgAlloc_onlyTables ha) hf

-- `initMem` leaves the map of its calls.
theorem initMem_represents (hc : Clears clearMem) (h : initMem clearMem descs (.start tables allocMap pool) = .ok s)
    (hroom : Roomy s) : Represents s.onlyTables (lastCall (idCalls descs)) := by
  obtain ⟨s₀, h₀, h⟩ := Except.bind_ok_iff.mp h
  rw [idMapMem_eq_mapCalls] at h
  have hroom₀ : Roomy s₀ := hroom.of_sublist ((mapCalls_blocks h).filter _)
  have r₀ := initPml_onlyTables hc h₀ hroom₀.tables
  exact (r₀.mapCalls_or hc (mapCalls_onlyTables h) hroom.tables).congr fun v => Option.or_none.symm

end Initial

end RoverOS.Bootloader
