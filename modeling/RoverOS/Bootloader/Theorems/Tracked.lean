import RoverOS.Bootloader.Requests
import RoverOS.Bootloader.Theorems.Recorded

-- Every block that `allocMem` keeps has an entry in `allocMap`, which contains what the caller got, and
-- which stays unless a call clears it.

open Function (update)

namespace RoverOS.Bootloader

open Paging

variable {clearMem : ClearMem} {s s' s₁ : Boot} {r : Request} {rs rs' : List Request} {p bptr ptr virt : Word}
  {granted granted' : List (Request × Word)} {e : MmapEntry} {sz type k : Nat} {align : Bool}

-- The entry of a request that got `p` out of the block at `bptr`.
structure RowOf (e : MmapEntry) (r : Request) (p bptr : Word) : Prop where
  type  : e.type = r.type.toNat
  virt  : e.virt = (if r.virt = 0#64 then p else r.virt).toNat
  phys  : e.phys = bptr.toNat
  bytes : e.bytes = r.size
  ptr   : p = r.ptr bptr

-- The entries are those of the requests that are kept, in their order.
structure Listed (granted : List (Request × Word)) (s : Boot) : Prop extends Books s where
  length : s.allocEntries = (kept granted).length
  rows   : ∀ k r p, (kept granted)[k]? = some (r, p) → ∃ bptr, RowOf (s.allocMap k) r p bptr

theorem growAllocMap_same (h : growAllocMap s = .ok s') :
    s'.allocMap = s.allocMap ∧ s'.allocEntries = s.allocEntries := by
  obtain ⟨⟨ptr, s₁⟩, h₁, h⟩ := Except.bind_ok_iff.mp h
  obtain ⟨pool, _, rfl⟩ := allocTable_ok h₁
  cases h
  exact ⟨rfl, rfl⟩

theorem recordAlloc_ok (h : recordAlloc bptr ptr sz virt type align s = .ok s') :
    s'.allocEntries = s.allocEntries + 1 ∧ ∃ e, s'.allocMap = update s.allocMap s.mapPtr e ∧ e.type = type ∧
      e.virt = (if virt = 0#64 then ptr else virt).toNat ∧ e.phys = bptr.toNat ∧ e.bytes = sz := by
  by_cases hm : s.mapPtr + 1 = s.mapMax
  case pos =>
    obtain ⟨hmap, hentries⟩ := growAllocMap_same ((if_pos hm).symm.trans h)
    exact ⟨hentries, _, hmap, rfl, rfl, rfl, rfl⟩
  case neg =>
    cases (if_neg hm).symm.trans h
    exact ⟨rfl, _, rfl, rfl, rfl, rfl, rfl⟩

section Clear

theorem clearField_eq {lo hi a n v : Nat} (h : ∀ x, lo ≤ x → x < hi → x < a ∨ a + n ≤ x) :
    clearField lo hi a n v = v := by
  refine if_neg fun hlt => ?_
  have hx := h (max lo a) (Nat.le_max_left ..)
  omega

theorem clearEntry_eq {lo hi a : Nat} (h : ∀ x, lo ≤ x → x < hi → x < a ∨ a + sizeofMmapEntry ≤ x) :
    clearEntry lo hi a e = e := by
  have field (d n : Nat) (hd : d + n ≤ sizeofMmapEntry) (v : Nat) : clearField lo hi (a + d) n v = v := by
    refine clearField_eq fun x hl hu => ?_
    have hx := h x hl hu
    omega
  have hmagic := field 0 8 (by decide) e.magic
  rw [Nat.add_zero] at hmagic
  rw [clearEntry, hmagic, field 8 1 (by decide), field 16 8 (by decide), field 24 8 (by decide),
    field 32 8 (by decide), field 40 8 (by decide)]

-- What is cleared outside of the entries leaves them as they are.
theorem clearAllocMap_books (h : ∀ x, ptr.toNat ≤ x → x < ptr.toNat + sz → ∀ i < s.allocEntries,
    x < s.entryAddr i ∨ s.entryAddr i + sizeofMmapEntry ≤ x) : SameBooks s (s.clearAllocMap ptr sz) where
  pml           := rfl
  allocMap i hi := by
    rw [Boot.clearAllocMap]
    dsimp only
    split
    case isTrue  => exact clearEntry_eq fun x hl hu => h x hl hu i hi
    case isFalse => rfl
  allocMapPtr   := rfl
  mapMax        := rfl
  mapPtr        := rfl
  allocEntries  := rfl
  blocks _ hb   := hb

end Clear

-- The block that a request gets, with the entries as they were.
theorem Request.alloc_books (h : r.alloc clearMem s = .ok (p, s')) (hs : r.Spares s) : ∃ bptr s₁, p = r.ptr bptr ∧
    SameBooks s s₁ ∧ { ptr := bptr, size := r.size, use := if r.temp then .temp else .recorded } ∈ s₁.blocks ∧
      if r.temp then s' = s₁ else recordAlloc bptr p r.size r.virt r.type.toNat r.align s₁ = .ok s' := by
  obtain ⟨bptr, size, s₁, hb, h⟩ := allocMemWith_ok h
  obtain ⟨pool, hpool, hn, hptr, rfl, hs₁⟩ := allocBlock_ok hb
  have hbooks := takeBlock_books (s := s) (if r.clear then clearMem p r.size s.tables else s.tables) pool
    { ptr := bptr, size := r.size, use := if r.temp then .temp else .recorded }
  refine ⟨bptr, s₁, hptr, ?_, ?_, h⟩
  case refine_1 =>
    rw [hs₁]
    cases hc : r.clear
    case false =>
      rw [hc] at hbooks
      exact hbooks
    case true  =>
      rw [hc] at hbooks
      refine hbooks.trans (clearAllocMap_books fun x hl hu i hi => ?_)
      rw [hptr] at hl hu
      exact hs hc bptr ⟨by rw [hpool]; rfl, hn⟩ x hl hu i hi
  case refine_2 =>
    rw [hs₁]
    split
    case isTrue  => exact List.mem_cons_self ..
    case isFalse => exact List.mem_cons_self ..

-- A call with `temp` changes no entry, and every other one adds its own.
theorem Listed.alloc (hl : Listed granted s) (h : r.alloc clearMem s = .ok (p, s')) (hs : r.Spares s) :
    Listed (granted ++ [(r, p)]) s' := by
  obtain ⟨bptr, s₁, hp, hsame, hblock, h⟩ := r.alloc_books h hs
  have hb := hl.toBooks.same hsame
  have hlength : s₁.allocEntries = (kept granted).length := hsame.allocEntries.trans hl.length
  have hrows (k : Nat) (hk : k < (kept granted).length) : s₁.allocMap k = s.allocMap k :=
    hsame.allocMap k (hl.length ▸ hk)
  cases ht : r.temp
  case true =>
    rw [ht] at h
    have hk : kept (granted ++ [(r, p)]) = kept granted := by simp [kept, ht]
    cases h
    refine ⟨hb, by rw [hk]; exact hlength, fun k r' p' hkept => ?_⟩
    rw [hk] at hkept
    rw [hrows k (List.getElem?_eq_some_iff.mp hkept).1]
    exact hl.rows k r' p' hkept
  case false =>
    rw [ht] at h hblock
    have hk : kept (granted ++ [(r, p)]) = kept granted ++ [(r, p)] := by simp [kept, ht]
    obtain ⟨hentries, e, hmap, htype, hvirt, hphys, hbytes⟩ := recordAlloc_ok h
    have hcursor : s₁.mapPtr = (kept granted).length := hb.count.trans hlength
    refine ⟨recordAlloc_books h hb hblock, ?_, ?_⟩
    case refine_1 =>
      rw [hk, List.length_append, List.length_singleton, hentries]
      exact congrArg (· + 1) hlength
    case refine_2 =>
      intro k r' p' hkept
      rw [hk] at hkept
      rw [hmap, hcursor]
      rcases Nat.lt_or_ge k (kept granted).length with hlt | hge
      case inl =>
        rw [List.getElem?_append_left hlt] at hkept
        rw [Function.update_of_ne (Nat.ne_of_lt hlt), hrows k hlt]
        exact hl.rows k r' p' hkept
      case inr =>
        rw [List.getElem?_append_right hge, List.getElem?_singleton] at hkept
        split at hkept
        case isFalse => cases hkept
        case isTrue hz =>
          obtain rfl : k = (kept granted).length := by omega
          cases hkept
          rw [Function.update_self]
          exact ⟨bptr, htype, hvirt, hphys, hbytes, hp⟩

theorem Listed.allocAll (hl : Listed granted s) (h : allocAll clearMem rs s = .ok (granted', s'))
    (hs : AllSpare clearMem rs s) : Listed (granted ++ granted') s' := by
  induction rs generalizing s granted granted'
  case nil =>
    cases h
    rwa [List.append_nil]
  case cons r rs hi =>
    obtain ⟨⟨p, s₁⟩, h₁, h⟩ := Except.bind_ok_iff.mp h
    obtain ⟨⟨granted₁, s₂⟩, h₂, h⟩ := Except.bind_ok_iff.mp h
    cases h
    have hl' := hi (hl.alloc h₁ hs.left) h₂ (hs.right _ _ h₁)
    rwa [List.append_assoc, List.singleton_append] at hl'

theorem map_fst_allocAll (h : allocAll clearMem rs s = .ok (granted, s')) : granted.map Prod.fst = rs := by
  induction rs generalizing s granted
  case nil =>
    cases h
    rfl
  case cons r rs hi =>
    obtain ⟨⟨p, s₁⟩, h₁, h⟩ := Except.bind_ok_iff.mp h
    obtain ⟨⟨granted₁, s₂⟩, h₂, h⟩ := Except.bind_ok_iff.mp h
    cases h
    rw [List.map_cons, hi h₂]

-- A sequence of calls that returns has returned after each of them.
theorem allocAll_take (h : allocAll clearMem rs s = .ok (granted, s')) (n : Nat) :
    ∃ granted₁ s₁, allocAll clearMem (rs.take n) s = .ok (granted₁, s₁) := by
  induction rs generalizing s s' granted n
  case nil =>
    rw [List.take_nil]
    exact ⟨_, _, h⟩
  case cons r rs hi =>
    cases n
    case zero => exact ⟨_, _, rfl⟩
    case succ n =>
      obtain ⟨⟨p, s₁⟩, h₁, h⟩ := Except.bind_ok_iff.mp h
      obtain ⟨⟨granted₁, s₂⟩, h₂, h⟩ := Except.bind_ok_iff.mp h
      obtain ⟨granted₂, s₃, h₃⟩ := hi h₂ n
      refine ⟨(r, p) :: granted₂, s₃, ?_⟩
      rw [List.take_succ_cons]
      exact Except.bind_ok_iff.mpr ⟨_, h₁, Except.bind_ok_iff.mpr ⟨_, h₃, rfl⟩⟩

theorem AllSpare.take (hs : AllSpare clearMem rs s) (n : Nat) : AllSpare clearMem (rs.take n) s := by
  induction rs generalizing s n
  case nil =>
    rw [List.take_nil]
    exact trivial
  case cons r rs hi =>
    cases n
    case zero   => exact trivial
    case succ n => exact ⟨hs.left, fun p s' h => hi (hs.right p s' h) n⟩

theorem initPml_entries (h : initPml clearMem s = .ok s') : s'.allocEntries = s.allocEntries := by
  obtain ⟨⟨ptr, s₁⟩, h₁, h⟩ := Except.bind_ok_iff.mp h
  obtain ⟨pool, _, rfl⟩ := allocTable_ok h₁
  obtain ⟨⟨pml, s₂⟩, h₂, h⟩ := Except.bind_ok_iff.mp h
  cases h
  exact (pgAlloc_books h₂).allocEntries

theorem initMem_listed {descs : List Descriptor} {tables : Tables} {allocMap : Nat → MmapEntry} {pool : List Word}
    (h : initMem clearMem descs (.start tables allocMap pool) = .ok s) : Listed [] s := by
  obtain ⟨s₀, h₀, h⟩ := Except.bind_ok_iff.mp h
  have hs := idMapMem_books h
  have he : s.allocEntries = 0 := hs.allocEntries.trans (initPml_entries h₀)
  exact ⟨(initPml_books h₀ rfl rfl rfl).same hs, he, by simp [kept]⟩

-- No size and no end of a block is behind the address space.
structure NoWrap (rs : List Request) (s : Boot) : Prop where
  sizes  : ∀ r ∈ rs, r.align = true → r.sz.toNat + 0x1000 < 2 ^ 64
  blocks : ∀ b ∈ s.blocks, b.ptr.toNat + b.size < 2 ^ 64

-- The entry of a request holds its type and its virtual address, and a range around what it got.
structure Holds (e : MmapEntry) (r : Request) (p : Word) : Prop where
  type     : e.type = r.type.toNat
  virt     : e.virt = (if r.virt = 0#64 then p else r.virt).toNat
  contains : ∀ x, p.toNat ≤ x → x < p.toNat + r.sz.toNat → e.phys ≤ x ∧ x < e.phys + e.bytes

-- What `allocMap` should hold after the requests.
structure Tracked (granted : List (Request × Word)) (s : Boot) : Prop where
  entries : s.allocEntries = (kept granted).length
  rows    : ∀ k r p, (kept granted)[k]? = some (r, p) → Holds (s.allocMap k) r p

-- The first page boundary behind an address.
theorem nextPage (h : bptr.toNat + 0x1000 < 2 ^ 64) :
    bptr.toNat < (kalign bptr + pageSz).toNat ∧ (kalign bptr + pageSz).toNat ≤ bptr.toNat + 0x1000 := by
  have hle := kalign_le (a := bptr)
  have hlt : bptr.toNat < (kalign bptr).toNat + 0x1000 := by
    rw [kalign_toNat]
    omega
  have hpage : pageSz.toNat = 0x1000 := rfl
  rw [BitVec.toNat_add, hpage, Nat.mod_eq_of_lt (by omega)]
  omega

-- The pointer is moved up by at most the page that the block was made larger by.
theorem RowOf.holds (h : RowOf e r p bptr) (hs : r.align = true → r.sz.toNat + 0x1000 < 2 ^ 64)
    (hb : bptr.toNat + r.size < 2 ^ 64) : Holds e r p := by
  refine ⟨h.type, h.virt, fun x hl hu => ?_⟩
  rw [h.ptr, Request.ptr] at hl hu
  rw [Request.size] at hb
  rw [h.phys, h.bytes, Request.size]
  cases ha : r.align
  case false =>
    simp only [ha, Bool.false_eq_true, if_false] at hl hu ⊢
    exact ⟨hl, hu⟩
  case true =>
    simp only [ha, if_true, u64_of_lt (hs ha)] at hl hu hb ⊢
    have hpage := nextPage (Nat.lt_of_le_of_lt (Nat.add_le_add_left (Nat.le_add_left _ _) _) hb)
    generalize (kalign bptr + pageSz).toNat = a at hl hu hpage
    omega

theorem Listed.tracked (hl : Listed granted s) (hn : NoWrap (granted.map Prod.fst) s) : Tracked granted s := by
  refine ⟨hl.length, fun k r p hk => ?_⟩
  obtain ⟨bptr, hrow⟩ := hl.rows k r p hk
  have hlt : k < s.allocEntries := by
    rw [hl.length]
    exact (List.getElem?_eq_some_iff.mp hk).1
  have hm : (r, p) ∈ granted := List.mem_of_mem_filter (List.mem_of_getElem? hk)
  obtain ⟨b, hb, -, hphys, hbytes⟩ := hl.recorded k hlt
  apply hrow.holds (hn.sizes r (List.mem_map_of_mem hm))
  rw [← hrow.phys, ← hrow.bytes, hphys, hbytes]
  exact hn.blocks b hb

-- When no call clears an entry, the cursor is inside of the array before every call, and after the last
-- one every block that is kept has its entry.
theorem allocAll_tracked {descs : List Descriptor} {tables : Tables} {allocMap : Nat → MmapEntry} {pool : List Word}
    (hi : initMem clearMem descs (.start tables allocMap pool) = .ok s)
    (h : allocAll clearMem rs s = .ok (granted, s')) (hs : AllSpare clearMem rs s) (hn : NoWrap rs s') :
    (∀ n, ∃ granted₁ s₁, allocAll clearMem (rs.take n) s = .ok (granted₁, s₁) ∧ s₁.mapPtr < s₁.mapMax) ∧
      granted.map Prod.fst = rs ∧ Tracked granted s' := by
  have hl := initMem_listed hi
  have hmap := map_fst_allocAll h
  refine ⟨fun n => ?_, hmap, (hl.allocAll h hs).tracked (hmap ▸ hn)⟩
  obtain ⟨granted₁, s₁, h₁⟩ := allocAll_take h n
  exact ⟨granted₁, s₁, h₁, (hl.allocAll h₁ (hs.take n)).room⟩

section Returns

theorem growAllocMap_returns {a : Word} {pool : List Word} (hp : s.pool = a :: pool) (ha : a ≠ 0#64) :
    ∃ s', growAllocMap s = .ok s' ∧ s'.pool = pool := by
  rw [growAllocMap]
  simp only [allocTable, allocPool_cons hp ha, if_neg ha]
  exact ⟨_, rfl, rfl⟩

theorem recordAlloc_returns {a : Word} {pool : List Word} (hp : s.pool = a :: pool) (ha : a ≠ 0#64) :
    ∃ s', recordAlloc bptr ptr sz virt type align s = .ok s' ∧ (s'.pool = a :: pool ∨ s'.pool = pool) := by
  rw [recordAlloc]
  dsimp only
  split
  case isFalse => exact ⟨_, rfl, .inl hp⟩
  case isTrue =>
    obtain ⟨s', hs, hpool⟩ := growAllocMap_returns (s := { s with
      allocMap     := update s.allocMap s.mapPtr _
      allocEntries := s.allocEntries + 1
      mapPtr       := s.mapPtr + 1 }) hp ha
    exact ⟨s', hs, .inr hpool⟩

theorem allocBlock_returns {a : Word} {pool : List Word} {temp clear : Bool} (hp : s.pool = a :: pool)
    (ha : a ≠ 0#64) : ∃ ptr size s₁, allocBlock clearMem Boot.clearAllocMap sz temp align clear s =
      .ok ((a, ptr, size), s₁) ∧ s₁.pool = pool := by
  rw [allocBlock, allocPool_cons hp ha]
  refine ⟨_, _, _, if_neg ha, ?_⟩
  cases clear
  case true  => rfl
  case false => rfl

-- A call takes two blocks of the pool at most.
theorem Request.alloc_returns {a b : Word} {pool : List Word} (hp : s.pool = a :: b :: pool) (ha : a ≠ 0#64)
    (hb : b ≠ 0#64) : ∃ p s', r.alloc clearMem s = .ok (p, s') ∧ (s'.pool = b :: pool ∨ s'.pool = pool) := by
  obtain ⟨ptr, size, s₁, h, hpool⟩ : ∃ ptr size s₁, allocBlock clearMem Boot.clearAllocMap r.sz.toNat r.temp
      r.align r.clear s = .ok ((a, ptr, size), s₁) ∧ s₁.pool = b :: pool := allocBlock_returns hp ha
  rw [Request.alloc, allocMemWith, h]
  cases r.temp
  case true  => exact ⟨ptr, s₁, rfl, .inl hpool⟩
  case false =>
    obtain ⟨s', hs, hpool'⟩ := recordAlloc_returns hpool hb
    exact ⟨ptr, s', Except.bind_ok_iff.mpr ⟨_, rfl, Except.bind_ok_iff.mpr ⟨s', hs, rfl⟩⟩, hpool'⟩

-- The requests are all answered while the pool has blocks.
theorem allocAll_returns (hp : ∀ a ∈ s.pool, a ≠ 0#64) (hl : 2 * rs.length ≤ s.pool.length) :
    ∃ granted s', allocAll clearMem rs s = .ok (granted, s') := by
  induction rs generalizing s
  case nil => exact ⟨[], s, rfl⟩
  case cons r rs hi =>
    obtain ⟨a, b, pool, hpool⟩ : ∃ a b pool, s.pool = a :: b :: pool := by
      rw [List.length_cons] at hl
      rcases h : s.pool with _ | ⟨a, _ | ⟨b, pool⟩⟩
      case nil       => rw [h, List.length_nil] at hl; omega
      case cons.nil  => rw [h, List.length_singleton] at hl; omega
      case cons.cons => exact ⟨a, b, pool, rfl⟩
    rw [hpool] at hp hl
    have hb : ∀ c ∈ b :: pool, c ≠ 0#64 := fun c hc => hp c (List.mem_cons_of_mem _ hc)
    obtain ⟨p, s₁, h₁, h₂⟩ : ∃ p s₁, r.alloc clearMem s = .ok (p, s₁) ∧ (s₁.pool = b :: pool ∨ s₁.pool = pool) :=
      Request.alloc_returns hpool (hp a List.mem_cons_self) (hb b List.mem_cons_self)
    have hs₁ : (∀ c ∈ s₁.pool, c ≠ 0#64) ∧ 2 * rs.length ≤ s₁.pool.length := by
      simp only [List.length_cons] at hl
      rcases h₂ with h₂ | h₂
      case inl =>
        rw [h₂, List.length_cons]
        exact ⟨hb, by omega⟩
      case inr =>
        rw [h₂]
        exact ⟨fun c hc => hb c (List.mem_cons_of_mem _ hc), by omega⟩
    obtain ⟨granted, s', h⟩ := hi hs₁.left hs₁.right
    exact ⟨_, s', Except.bind_ok_iff.mpr ⟨_, h₁, Except.bind_ok_iff.mpr ⟨_, h, rfl⟩⟩⟩

end Returns

section Example

theorem AllSpare.cons (hs : r.Spares s) (h : r.alloc clearMem s = .ok (p, s₁)) (ht : AllSpare clearMem rs s₁) :
    AllSpare clearMem (r :: rs) s :=
  ⟨hs, fun p' s' h' => by cases h.symm.trans h'; exact ht⟩

theorem spares_behind {bptr : Word} (hp : s.pool.head? = some bptr)
    (h : s.entryAddr s.allocEntries ≤ (r.ptr bptr).toNat) : r.Spares s := by
  rintro - bptr' ⟨hp', -⟩ x hl - i hi
  cases hp.symm.trans hp'
  rw [Boot.entryAddr] at h ⊢
  have hle : sizeofMmapEntry * (i + 1) ≤ sizeofMmapEntry * s.allocEntries := Nat.mul_le_mul_left _ hi
  rw [Nat.mul_succ] at hle
  exact .inr (by omega)

def alignedRequest : Request := ⟨0x2000, 0, 0xA, false, true, false⟩
def temporaryRequest : Request := ⟨0x1000, 0, 9, true, true, true⟩
def clearedRequest : Request := ⟨0x10, 0x5000, 9, false, false, true⟩

-- Two blocks that are kept, one of them aligned, and a temporary one between them that is cleared.
theorem allocAll_tracked_alignedAndTemporary : ∃ s granted s',
    initMem clearRange [] (.start (fun _ _ => 0xFFF#64) (fun _ => zeroEntry)
      [0x100000#64, 0x200000#64, 0x700010#64, 0x800000#64, 0x900000#64]) = .ok s ∧
    allocAll clearRange [alignedRequest, temporaryRequest, clearedRequest] s = .ok (granted, s') ∧
      s'.allocEntries = 2 ∧ Tracked granted s' := by
  obtain ⟨s, p₁, s₁, p₂, s₂, p₃, s₃, granted, s', hi, h₁, h₂, h₃, h, hpool₁, haddr₁, hpool₂, haddr₂, he, hb⟩ :
      ∃ s p₁ s₁ p₂ s₂ p₃ s₃ granted s', initMem clearRange [] (.start (fun _ _ => 0xFFF#64) (fun _ => zeroEntry)
        [0x100000#64, 0x200000#64, 0x700010#64, 0x800000#64, 0x900000#64]) = .ok s ∧
      alignedRequest.alloc clearRange s = .ok (p₁, s₁) ∧ temporaryRequest.alloc clearRange s₁ = .ok (p₂, s₂) ∧
      clearedRequest.alloc clearRange s₂ = .ok (p₃, s₃) ∧
      allocAll clearRange [alignedRequest, temporaryRequest, clearedRequest] s = .ok (granted, s') ∧
      s₁.pool.head? = some 0x800000#64 ∧ s₁.entryAddr s₁.allocEntries = 0x100030 ∧
      s₂.pool.head? = some 0x900000#64 ∧ s₂.entryAddr s₂.allocEntries = 0x100030 ∧ s'.allocEntries = 2 ∧
        s'.blocks = [⟨0x900000, 0x10, .recorded⟩, ⟨0x800000, 0x2000, .temp⟩, ⟨0x700010, 0x3000, .recorded⟩,
          ⟨0x200000, 0x401000, .tables⟩, ⟨0x100000, 0x780, .allocMap⟩] :=
    ⟨_, _, _, _, _, _, _, _, _, rfl, rfl, rfl, rfl, rfl, rfl, rfl, rfl, rfl, rfl, rfl⟩
  have hs₂ : temporaryRequest.Spares s₁ := spares_behind hpool₁ (by rw [haddr₁]; decide)
  have hs₃ : clearedRequest.Spares s₂ := spares_behind hpool₂ (by rw [haddr₂]; decide)
  have hs : AllSpare clearRange [alignedRequest, temporaryRequest, clearedRequest] s :=
    .cons (fun hc => by cases hc) h₁ (.cons hs₂ h₂ (.cons hs₃ h₃ trivial))
  have hn : NoWrap [alignedRequest, temporaryRequest, clearedRequest] s' := ⟨by decide, by rw [hb]; decide⟩
  exact ⟨s, granted, s', hi, h, he, (allocAll_tracked hi h hs hn).right.right⟩

def recordedRequest : Request := ⟨0x100, 0, 9, false, false, false⟩

-- The array is right behind the block that is cleared, and so is its first entry.
theorem allocAll_clears_entry : ¬∀ (descs : List Descriptor) (tables : Tables) (allocMap : Nat → MmapEntry)
    (pool : List Word) (s : Boot) (rs : List Request) (granted : List (Request × Word)) (s' : Boot),
    initMem clearRange descs (.start tables allocMap pool) = .ok s →
    allocAll clearRange rs s = .ok (granted, s') → Apart s'.blocks → NoWrap rs s' → Tracked granted s' := by
  intro hall
  obtain ⟨s, granted, s', hi, h, hb, hg, ht⟩ : ∃ s granted s', initMem clearRange [] (.start (fun _ _ => 0xFFF#64)
        (fun _ => zeroEntry) [0x103000#64, 0x200000#64, 0x700000#64, 0x101000#64]) = .ok s ∧
      allocAll clearRange [recordedRequest, temporaryRequest] s = .ok (granted, s') ∧
      s'.blocks = [⟨0x101000, 0x2000, .temp⟩, ⟨0x700000, 0x100, .recorded⟩, ⟨0x200000, 0x401000, .tables⟩,
        ⟨0x103000, 0x780, .allocMap⟩] ∧
      (kept granted)[0]? = some (recordedRequest, 0x700000#64) ∧ (s'.allocMap 0).type = 0 :=
    ⟨_, _, _, rfl, rfl, rfl, rfl, rfl⟩
  have htracked := hall _ _ _ _ _ _ _ _ hi h (by rw [hb]; exact ⟨by decide, by decide⟩)
    ⟨by decide, by rw [hb]; decide⟩
  have htype := (htracked.rows 0 _ _ hg).type
  rw [ht] at htype
  exact absurd htype (by decide)

end Example

end RoverOS.Bootloader
