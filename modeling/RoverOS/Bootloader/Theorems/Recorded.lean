import RoverOS.Bootloader.Handover
import RoverOS.Bootloader.Theorems.Bump

-- What `allocMap` knows of the memory that the kernel goes on using: nothing. The page tables, the
-- array `allocMap` and the array `kmmap` are in blocks of their own, which are not recorded.

open Radix (InUse)

namespace RoverOS.Bootloader

open Paging

def Block.Has (b : Block) (x : Nat) : Prop :=
  b.ptr.toNat ≤ x ∧ x < b.ptr.toNat + b.size

-- An address in one of the ranges that are handed over.
def Recorded (m : MemInfo) (s : Boot) (x : Nat) : Prop :=
  ∃ i < m.aentries, (s.allocMap i).phys ≤ x ∧ x < (s.allocMap i).phys + (s.allocMap i).bytes

-- All that the kernel still uses is recorded.
structure UsedRecorded (m : MemInfo) (s : Boot) : Prop where
  tables   : ∀ t, InUse child s.tables {s.pml} 3 t → ∀ i < 0x1000, Recorded m s (t.toNat + i)
  kmmap    : ∀ i < sizeofMmapEntry * m.entries, Recorded m s (m.ptr.toNat + i)
  allocMap : ∀ i < sizeofMmapEntry * m.aentries, Recorded m s (m.aptr.toNat + i)

-- The blocks behind the entries of `allocMap` and behind the root table.
structure Rows (s : Boot) : Prop where
  count    : s.mapPtr = s.allocEntries
  recorded : ∀ i < s.allocEntries, ∃ b ∈ s.blocks, b.use = .recorded ∧
    (s.allocMap i).phys = b.ptr.toNat ∧ (s.allocMap i).bytes = b.size
  root     : ∃ ptr, { ptr, size := bumpChunk + 0x1000, use := .tables } ∈ s.blocks ∧
    s.pml = kalign ptr + pageSz

-- The array has a block too, and room for another entry.
structure Books (s : Boot) : Prop extends Rows s where
  room  : s.mapPtr < s.mapMax
  array : { ptr := s.allocMapPtr, size := sizeofMmapEntry * s.mapMax, use := .allocMap } ∈ s.blocks

-- What is assumed of the pool: its blocks do not overlap.
structure Apart (blocks : List Block) : Prop where
  below : ∀ b ∈ blocks, b.ptr.toNat + b.size ≤ 2 ^ 64
  apart : blocks.Pairwise fun b c =>
    b.ptr.toNat + b.size ≤ c.ptr.toNat ∨ c.ptr.toNat + c.size ≤ b.ptr.toNat

-- What only makes page tables changes none of this.
structure SameBooks (s s' : Boot) : Prop where
  pml          : s'.pml = s.pml
  allocMap     : ∀ i < s.allocEntries, s'.allocMap i = s.allocMap i
  allocMapPtr  : s'.allocMapPtr = s.allocMapPtr
  mapMax       : s'.mapMax = s.mapMax
  mapPtr       : s'.mapPtr = s.mapPtr
  allocEntries : s'.allocEntries = s.allocEntries
  blocks       : ∀ b ∈ s.blocks, b ∈ s'.blocks

variable {clearMem : ClearMem} {s s' s₁ s₂ s₃ : Boot} {f tbl phys virt ptr : Word} {n : Index}
variable {write execute temp align clear : Bool} {sz type i k : Nat} {m : MemInfo}
variable {before descs : List Descriptor} {desc : Descriptor} {calls : List BootCall}
variable {b : Block} {x : Nat}

namespace SameBooks

theorem refl (s : Boot) : SameBooks s s :=
  ⟨rfl, fun _ _ => rfl, rfl, rfl, rfl, rfl, fun _ h => h⟩

theorem trans (h₁ : SameBooks s₁ s₂) (h₂ : SameBooks s₂ s₃) : SameBooks s₁ s₃ where
  pml          := h₂.pml.trans h₁.pml
  allocMap i hi := (h₂.allocMap i (h₁.allocEntries ▸ hi)).trans (h₁.allocMap i hi)
  allocMapPtr  := h₂.allocMapPtr.trans h₁.allocMapPtr
  mapMax       := h₂.mapMax.trans h₁.mapMax
  mapPtr       := h₂.mapPtr.trans h₁.mapPtr
  allocEntries := h₂.allocEntries.trans h₁.allocEntries
  blocks b hb  := h₂.blocks b (h₁.blocks b hb)

end SameBooks

theorem Books.same (hb : Books s) (h : SameBooks s s') : Books s' where
  count    := by rw [h.mapPtr, h.allocEntries, hb.count]
  room     := by rw [h.mapPtr, h.mapMax]; exact hb.room
  array    := by
    rw [h.allocMapPtr, h.mapMax]
    exact h.blocks _ hb.array
  recorded i hi := by
    rw [h.allocEntries] at hi
    have ⟨b, hm, hu⟩ := hb.recorded i hi
    exact ⟨b, h.blocks b hm, h.allocMap i hi ▸ hu⟩
  root     := by
    have ⟨ptr, hm, hp⟩ := hb.root
    exact ⟨ptr, h.blocks _ hm, h.pml.trans hp⟩

section Tables

theorem pgAlloc_books (h : pgAlloc clearMem s = .ok (f, s')) : SameBooks s s' := by
  have ⟨s₁, hs, h⟩ := Except.bind_ok_iff.mp h
  cases h
  rcases growBump_ok hs with ⟨_, rfl⟩ | ⟨ptr, pool, _, rfl⟩
  case inl => exact ⟨rfl, fun _ _ => rfl, rfl, rfl, rfl, rfl, fun _ h => h⟩
  case inr =>
    unfold newBump
    exact ⟨rfl, fun _ _ => rfl, rfl, rfl, rfl, rfl, fun _ h => List.mem_cons_of_mem _ h⟩

theorem linkTable_books (h : linkTable clearMem tbl n s = .ok s') : SameBooks s s' := by
  unfold linkTable at h
  split at h
  case isFalse =>
    cases h
    exact .refl _
  case isTrue =>
    have ⟨⟨f, s₁⟩, ha, h⟩ := Except.bind_ok_iff.mp h
    simp only at h
    split at h
    case isFalse => cases h
    case isTrue =>
      cases h
      have hs : SameBooks s s₁ := pgAlloc_books ha
      exact ⟨hs.pml, hs.allocMap, hs.allocMapPtr, hs.mapMax, hs.mapPtr, hs.allocEntries, hs.blocks⟩

theorem mapPage_books (h : mapPage clearMem phys virt write execute s = .ok s') :
    SameBooks s s' := by
  have ⟨s₁, h₁, h⟩ := Except.bind_ok_iff.mp h
  have ⟨s₂, h₂, h⟩ := Except.bind_ok_iff.mp h
  have ⟨s₃, h₃, h⟩ := Except.bind_ok_iff.mp h
  cases h
  have hs := (linkTable_books h₁).trans ((linkTable_books h₂).trans (linkTable_books h₃))
  exact ⟨hs.pml, hs.allocMap, hs.allocMapPtr, hs.mapMax, hs.mapPtr, hs.allocEntries, hs.blocks⟩

theorem mapFrom_books (h : mapFrom clearMem phys virt write execute i k s = .ok s') :
    SameBooks s s' := by
  induction k generalizing i s
  case zero =>
    cases h
    exact .refl _
  case succ k hi =>
    have ⟨s₁, h₁, h⟩ := Except.bind_ok_iff.mp h
    exact (mapPage_books h₁).trans (hi h)

theorem mapPages_books (h : mapPages clearMem phys virt k write execute s = .ok s') :
    SameBooks s s' :=
  mapFrom_books h

theorem idMapMem_books (h : idMapMem clearMem before s = .ok s') : SameBooks s s' := by
  fun_induction idMapMem clearMem before s
  case case1 => cases h; exact .refl _
  case case2 => cases h; exact .refl _
  case case3 hi =>
    have ⟨s₁, h₁, h⟩ := Except.bind_ok_iff.mp h
    refine .trans ?_ (hi s₁ h)
    unfold idMapDesc at h₁
    split at h₁
    case isTrue  => cases h₁; exact .refl _
    case isFalse => exact mapPages_books h₁

theorem mapLoaders_books {maps : List MapRequest} (h : mapLoaders clearMem maps s = .ok s') :
    SameBooks s s' := by
  induction maps generalizing s
  case nil =>
    cases h
    exact .refl _
  case cons r maps hi =>
    have ⟨s₁, h₁, h⟩ := Except.bind_ok_iff.mp h
    exact (mapPages_books h₁).trans (hi h)

end Tables

section Blocks

theorem initPml_books (h : initPml clearMem s = .ok s') (hm : s.mapPtr = 0) (he : s.allocEntries = 0)
    (hb : s.bumpPtr = s.bumpSize) : Books s' := by
  have ⟨⟨ptr, s₁⟩, h₁, h⟩ := Except.bind_ok_iff.mp h
  have ⟨pool, _, hs₁⟩ := allocTable_ok h₁
  subst hs₁
  have ⟨⟨pml, s₂⟩, h₂, h⟩ := Except.bind_ok_iff.mp h
  cases h
  have ⟨s₃, h₃, h₂⟩ := Except.bind_ok_iff.mp h₂
  rcases growBump_ok h₃ with ⟨hne, _⟩ | ⟨ptr', pool', _, rfl⟩
  case inl => exact absurd hb hne
  case inr =>
    obtain ⟨hpml, rfl⟩ := Prod.mk.inj (Except.ok.inj h₂)
    exact {
      count    := hm.trans he.symm
      recorded := fun i hi => absurd (he ▸ hi) (Nat.not_lt_zero i)
      room     := hm ▸ (by decide : 0 < 40)
      array    := List.mem_cons_of_mem _ (List.mem_cons_self ..)
      root     := ⟨ptr', List.mem_cons_self .., hpml.symm.trans (BitVec.add_zero _)⟩
    }

theorem Books.freePool (hb : Books s) : Books (freePool ptr s) where
  count    := hb.count
  room     := hb.room
  array    := List.mem_filter.mpr ⟨hb.array, by simp⟩
  recorded i hi := by
    have ⟨b, hm, hu, hr⟩ := hb.recorded i hi
    exact ⟨b, List.mem_filter.mpr ⟨hm, by simp [hu]⟩, hu, hr⟩
  root     := by
    have ⟨ptr, hm, hp⟩ := hb.root
    exact ⟨ptr, List.mem_filter.mpr ⟨hm, by simp⟩, hp⟩

theorem mem_replaced {new old : Block} {bs : List Block} (hb : b ∈ bs) (h : b.use ≠ old.use) :
    b ∈ (new :: bs).erase old :=
  (List.mem_erase_of_ne fun he => h (congrArg Block.use he)).mpr (List.mem_cons_of_mem _ hb)

-- The new array takes the place of the old one.
theorem growAllocMap_books (h : growAllocMap s = .ok s') (hr : Rows s) (hm : s.mapPtr = s.mapMax) :
    Books s' := by
  have ⟨⟨ptr, s₁⟩, h₁, h⟩ := Except.bind_ok_iff.mp h
  have ⟨pool, _, hs₁⟩ := allocTable_ok h₁
  subst hs₁
  cases h
  exact {
    count    := hr.count
    recorded := fun i hi => by
      have ⟨b, hb, hu, he⟩ := hr.recorded i hi
      exact ⟨b, mem_replaced hb (by simp [hu]), hu, he⟩
    root     := by
      have ⟨ptr, hb, hp⟩ := hr.root
      exact ⟨ptr, mem_replaced hb (by simp), hp⟩
    room     := Nat.lt_of_le_of_lt (Nat.le_of_eq hm) (Nat.lt_add_of_pos_right (by decide))
    array    := by
      apply (List.mem_erase_of_ne fun he => ?_).mpr (List.mem_cons_self ..)
      have he : sizeofMmapEntry * (s.mapMax + 20) = _ := congrArg Block.size he
      exact absurd (Nat.eq_of_mul_eq_mul_left (by decide) he) (by omega)
  }

theorem Rows.add (hr : Rows s) {e : MmapEntry} (hb : b ∈ s.blocks) (hu : b.use = .recorded)
    (hp : e.phys = b.ptr.toNat) (hs : e.bytes = b.size) : Rows { s with
      allocMap     := Function.update s.allocMap s.mapPtr e
      allocEntries := s.allocEntries + 1
      mapPtr       := s.mapPtr + 1 } where
  count    := congrArg (· + 1) hr.count
  root     := hr.root
  recorded i hi := by
    dsimp only at hi ⊢
    by_cases he : i = s.mapPtr
    case pos =>
      subst he
      rw [Function.update_self]
      exact ⟨b, hb, hu, hp, hs⟩
    case neg =>
      have hc := hr.count
      rw [Function.update_of_ne he]
      exact hr.recorded i (by omega)

theorem recordAlloc_books {bptr virt : Word}
    (h : recordAlloc bptr ptr sz virt type align s = .ok s') (hb : Books s)
    (hn : { ptr := bptr, size := sz, use := .recorded } ∈ s.blocks) : Books s' := by
  have hr := hb.toRows.add (e := { s.allocMap s.mapPtr with
    bytes := sz
    phys  := bptr.toNat
    type  := type
    virt  := (if virt = 0#64 then ptr else virt).toNat
    magic := MmapEntry.magicNumber
    flags := if align then (s.allocMap s.mapPtr).flags ||| flagAlign
      else (s.allocMap s.mapPtr).flags }) hn rfl rfl rfl
  by_cases hm : s.mapPtr + 1 = s.mapMax
  case pos => exact growAllocMap_books ((if_pos hm).symm.trans h) hr hm
  case neg =>
    have h := (if_neg hm).symm.trans h
    cases h
    exact { hr with
      room  := Nat.lt_of_le_of_ne hb.room hm
      array := hb.array }

variable {clearMap : Word → Nat → Boot → Boot}

-- A block from the pool, what the caller gets of it, and the memory that is cleared from there on.
theorem allocBlock_ok {bptr : Word} {size : Nat}
    (h : allocBlock clearMem clearMap sz temp align clear s = .ok ((bptr, ptr, size), s')) :
    ∃ pool, s.pool = bptr :: pool ∧ bptr ≠ 0#64 ∧ ptr = (if align then kalign bptr + pageSz else bptr) ∧
      size = (if align then u64 (sz + 0x1000) else sz) ∧
      let s₁ := { s with
        pool, blocks := { ptr := bptr, size, use := if temp then .temp else .recorded } :: s.blocks }
      s' = if clear then clearMap ptr size { s₁ with tables := clearMem ptr size s.tables } else s₁ := by
  unfold allocBlock at h
  rcases hp : allocPool (if align then u64 (sz + 0x1000) else sz) (if temp then .temp else .recorded) s
    with ⟨q, s₁⟩
  simp only [hp] at h
  split at h
  case isTrue => cases h
  case isFalse hn =>
    have ht : allocTable (if align then u64 (sz + 0x1000) else sz) (if temp then .temp else .recorded) s =
        .ok (q, s₁) := by
      simp only [allocTable, hp, hn, if_false]
    obtain ⟨pool, hpool, rfl⟩ := allocTable_ok ht
    cases h
    exact ⟨pool, hpool, hn, rfl, rfl, rfl⟩

theorem allocMemWith_ok {virt : Word}
    (h : allocMemWith clearMem clearMap sz virt type temp align clear s = .ok (ptr, s')) :
    ∃ bptr size s₁, allocBlock clearMem clearMap sz temp align clear s = .ok ((bptr, ptr, size), s₁) ∧
      if temp then s' = s₁ else recordAlloc bptr ptr size virt type align s₁ = .ok s' := by
  obtain ⟨⟨⟨bptr, p, size⟩, s₁⟩, hb, h⟩ := Except.bind_ok_iff.mp h
  cases temp
  case true =>
    cases h
    exact ⟨bptr, size, _, hb, rfl⟩
  case false =>
    obtain ⟨s₂, hr, h⟩ := Except.bind_ok_iff.mp h
    cases h
    exact ⟨bptr, size, s₁, hb, hr⟩

-- A block from the pool and, unless it is temporary, an entry for it.
theorem allocMem_ok {virt : Word} (h : allocMem clearMem sz virt type temp align clear s = .ok (ptr, s')) :
    ∃ bptr pool, s.pool = bptr :: pool ∧ bptr ≠ 0#64 ∧ ptr = (if align then kalign bptr + pageSz else bptr) ∧
      let size := if align then u64 (sz + 0x1000) else sz
      let s₁ := { s with
        pool
        tables := if clear then clearMem ptr size s.tables else s.tables
        blocks := { ptr := bptr, size, use := if temp then .temp else .recorded } :: s.blocks }
      if temp then s' = s₁ else recordAlloc bptr ptr size virt type align s₁ = .ok s' := by
  obtain ⟨bptr, size, s₁, hb, h⟩ := allocMemWith_ok h
  obtain ⟨pool, hpool, hn, hptr, rfl, rfl⟩ := allocBlock_ok hb
  refine ⟨bptr, pool, hpool, hn, hptr, ?_⟩
  cases clear
  case true  => exact h
  case false => exact h

-- Taking a block from the pool does not touch what is recorded.
theorem takeBlock_books (tables : Tables) (pool : List Word) (b : Block) :
    SameBooks s { s with pool, tables, blocks := b :: s.blocks } :=
  ⟨rfl, fun _ _ => rfl, rfl, rfl, rfl, rfl, fun _ h => List.mem_cons_of_mem _ h⟩

theorem allocMem_books {virt : Word}
    (h : allocMem clearMem sz virt type temp align clear s = .ok (ptr, s')) (hb : Books s) :
    Books s' := by
  obtain ⟨bptr, pool, _, _, _, h⟩ := allocMem_ok h
  cases temp
  case true  => exact h ▸ hb.same (takeBlock_books _ pool _)
  case false => exact recordAlloc_books h (hb.same (takeBlock_books _ pool _)) (List.mem_cons_self ..)

theorem exec_books {call : BootCall} (h : exec clearMem call s = .ok s') (hb : Books s) : Books s' := by
  cases call
  case allocMem =>
    have ⟨⟨ptr, s₁⟩, h₁, h⟩ := Except.bind_ok_iff.mp h
    cases h
    exact allocMem_books h₁ hb
  case freePool =>
    cases h
    exact hb.freePool
  case mapPage  => exact hb.same (mapPage_books h)
  case mapPages => exact hb.same (mapPages_books h)

theorem execAll_books (h : execAll clearMem calls s = .ok s') (hb : Books s) : Books s' := by
  induction calls generalizing s
  case nil =>
    cases h
    exact hb
  case cons call calls hi =>
    have ⟨s₁, h₁, h⟩ := Except.bind_ok_iff.mp h
    exact hi h (exec_books h₁ hb)

-- What is handed over, and the temporary block that `kmmap` is in.
structure HandedOver (m : MemInfo) (s : Boot) : Prop where
  books    : Books s
  aptr     : m.aptr = s.allocMapPtr
  aentries : m.aentries ≤ s.allocEntries
  kmmap    : ∃ b ∈ s.blocks, b.use = .temp ∧ m.ptr = kalign b.ptr + pageSz

theorem handOver_books {k : Nat} (h : handOver clearMem k desc descs s = .ok (m, s')) (hb : Books s) :
    HandedOver m s' := by
  have ⟨⟨kmmap, s₁⟩, h₁, h⟩ := Except.bind_ok_iff.mp h
  have ⟨s₂, h₂, h⟩ := Except.bind_ok_iff.mp h
  cases h
  obtain ⟨bptr, pool, _, _, hp, hs⟩ := allocMem_ok h₁
  have hl := mapLoaders_books h₂
  exact {
    books    := (allocMem_books h₁ hb).same hl
    aptr     := rfl
    aentries := Nat.mod_le _ _
    kmmap    := by
      subst hs
      exact ⟨_, hl.blocks _ (List.mem_cons_self ..), rfl, hp⟩
  }

theorem boot_books {k : Nat} {tables : Tables} {allocMap : Nat → MmapEntry} {pool : List Word}
    (h : boot clearMem before calls k desc descs (.start tables allocMap pool) = .ok (m, s)) :
    HandedOver m s := by
  have ⟨s₁, h₁, h⟩ := Except.bind_ok_iff.mp h
  have ⟨s₂, h₂, h⟩ := Except.bind_ok_iff.mp h
  have ⟨s₀, h₀, h₁⟩ := Except.bind_ok_iff.mp h₁
  have hb := (initPml_books h₀ rfl rfl rfl).same (idMapMem_books h₁)
  exact handOver_books h (execAll_books h₂ hb)

end Blocks

section Apart

-- Two blocks of the pool that were asked for different things have no address in common.
theorem Apart.not_has {c : Block} (hf : Apart s.blocks) (hb : b ∈ s.blocks) (hc : c ∈ s.blocks)
    (hu : b.use ≠ c.use) (hx : b.Has x) : ¬c.Has x := by
  have hne : b ≠ c := fun h => hu (congrArg Block.use h)
  have : Std.Symm fun b c : Block =>
      b.ptr.toNat + b.size ≤ c.ptr.toNat ∨ c.ptr.toNat + c.size ≤ b.ptr.toNat := ⟨fun _ _ h => h.symm⟩
  have hapart := hf.apart.forall hb hc hne
  rintro ⟨hl, hu⟩
  have ⟨hl', hu'⟩ := hx
  omega

-- Every recorded address is in a block that `allocMem` has recorded.
theorem HandedOver.not_recorded (hm : HandedOver m s) (hf : Apart s.blocks) (hb : b ∈ s.blocks)
    (hu : b.use ≠ .recorded) (hx : b.Has x) : ¬Recorded m s x := by
  rintro ⟨i, hi, hl, hh⟩
  have ⟨c, hc, huc, hp, hs⟩ := hm.books.recorded i (Nat.lt_of_lt_of_le hi hm.aentries)
  rw [hp] at hl hh
  rw [hs] at hh
  exact hf.not_has hb hc (huc ▸ hu) hx ⟨hl, hh⟩

theorem HandedOver.pml_not_recorded (hm : HandedOver m s) (hf : Apart s.blocks) (hi : i < 0x1000) :
    ¬Recorded m s (s.pml.toNat + i) := by
  have ⟨ptr, hb, hp⟩ := hm.books.root
  have ⟨hlt, _, hle⟩ := newChunk (show ptr.toNat + (bumpChunk + 0x1000) ≤ 2 ^ 64 from hf.below _ hb)
  have hc : 0x1000 ≤ bumpChunk := by decide
  apply hm.not_recorded hf hb (by simp)
  rw [hp]
  exact ⟨by dsimp only; omega, by dsimp only; omega⟩

theorem HandedOver.allocMap_not_recorded (hm : HandedOver m s) (hf : Apart s.blocks)
    (hi : i < sizeofMmapEntry * m.aentries) : ¬Recorded m s (m.aptr.toNat + i) := by
  have hle : sizeofMmapEntry * m.aentries ≤ sizeofMmapEntry * s.mapMax := by
    apply Nat.mul_le_mul_left
    have h₁ := hm.aentries
    have h₂ := hm.books.count
    have h₃ := hm.books.room
    omega
  apply hm.not_recorded hf hm.books.array (by simp)
  rw [hm.aptr]
  exact ⟨Nat.le_add_right _ _, by dsimp only; omega⟩

end Apart

section Example

def loaderData : Descriptor where
  type          := .loaderData
  physicalStart := 0x100000
  virtualStart  := 0
  numberOfPages := 1

def keptAndTemporary : List BootCall :=
  [.allocMem 0x2000 0 MmapEntry.typeOther false true false,
    .allocMem 0x100 0 MmapEntry.typeOther true false false,
    .mapPage 0x5000 0x7FFFFF000 true false]

-- A run with one block that is kept and one that is not.
theorem boot_keptAndTemporary : ∃ m s,
    boot clearRange [loaderData] keptAndTemporary 1 loaderData [] (.start (fun _ _ => 0xFFF#64)
        (fun _ => zeroEntry) [0x100000#64, 0x200000#64, 0x700000#64, 0x800000#64, 0x900000#64])
      = .ok (m, s) ∧ m.aentries = 1 ∧ Apart s.blocks := by
  have hrun : ∃ m s, boot clearRange [loaderData] keptAndTemporary 1 loaderData [] (.start
      (fun _ _ => 0xFFF#64) (fun _ => zeroEntry)
      [0x100000#64, 0x200000#64, 0x700000#64, 0x800000#64, 0x900000#64]) = .ok (m, s) ∧
        m.aentries = 1 ∧ s.blocks = [⟨0x900000, 0x1180, .temp⟩, ⟨0x800000, 0x100, .temp⟩,
          ⟨0x700000, 0x3000, .recorded⟩, ⟨0x200000, 0x401000, .tables⟩,
          ⟨0x100000, 0x780, .allocMap⟩] := ⟨_, _, rfl, rfl, rfl⟩
  have ⟨m, s, h, hm, hb⟩ := hrun
  refine ⟨m, s, h, hm, ?_⟩
  rw [hb]
  exact ⟨by decide, by decide⟩

end Example

end RoverOS.Bootloader
