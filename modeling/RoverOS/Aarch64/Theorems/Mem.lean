import RoverOS.Aarch64.Mem
import RoverOS.Library.Run

-- The ranges that the AArch64 bootloader hands out, against each other and against the map.

open Function (update update_self update_of_ne update_apply)

namespace RoverOS.Aarch64

-- An address and a number of bytes.
abbrev Range := Nat × Nat

def Range.bytes (r : Range) : Set Nat := Set.Ico r.1 (r.1 + r.2)

-- The size of a request in whole pages.
def roundUp (sz : Nat) : Nat := (sz + 0xFFF) / 0x1000 * 0x1000

-- The bootloader and the ranges that it has handed out.
structure State where
  mem : Loader
  out : List Range

-- The arguments of `allocMem`.
structure Request where
  sz   : Nat
  type : Nat
  virt : Nat
  map  : Bool

def State.alloc (s : State) (q : Request) : State where
  mem := (allocMem q.sz q.type q.virt q.map s.mem).2
  out :=
    let p := (allocMem q.sz q.type q.virt q.map s.mem).1
    if p = 0 then s.out else (p, roundUp q.sz) :: s.out

inductive Step : State → Request → State → Prop
  | alloc {s : State} {q : Request} : q.sz < 2 ^ 64 → Step s q (s.alloc q)

def IsFree (mem : Loader) (i : Nat) : Prop :=
  i < mem.mmapEntries ∧ (mem.mmap i).type = MmapEntry.typeFree

-- A map of memory: the free entries lie in the address space, and apart from each other.
structure MemoryMap (mem : Loader) : Prop where
  bound : ∀ {i}, IsFree mem i → (mem.mmap i).phys + (mem.mmap i).bytes ≤ 2 ^ 64
  apart : ∀ {i j}, IsFree mem i → IsFree mem j → i ≠ j →
    (mem.mmap i).phys + (mem.mmap i).bytes ≤ (mem.mmap j).phys ∨
      (mem.mmap j).phys + (mem.mmap j).bytes ≤ (mem.mmap i).phys

-- Nothing has been allocated from the map.
def Unused (mem : Loader) : Prop :=
  ∀ i < mem.mmapEntries, offset (mem.mmap i) = 0

-- The range is in a free entry, and begins at a page if the entry does.
def InEntry (mem : Loader) (r : Range) : Prop :=
  ∃ i, IsFree mem i ∧ (mem.mmap i).phys ≤ r.1 ∧ r.1 + r.2 ≤ (mem.mmap i).phys + (mem.mmap i).bytes ∧
    ((mem.mmap i).phys % 0x1000 = 0 → r.1 % 0x1000 = 0)

structure Sound (s : State) : Prop where
  inside : ∀ r ∈ s.out, InEntry s.mem r
  apart  : s.out.Pairwise fun r t => Disjoint r.bytes t.bytes

-- The entry is free and has more than `sz` bytes left.
structure HasSpace (e : MmapEntry) (sz : Nat) : Prop where
  free : e.type = MmapEntry.typeFree
  left : u64 (offset e + sz) < e.bytes

-- The entry that a request is taken from: the first one with space.
structure Takes (mem : Loader) (sz i : Nat) : Prop where
  lt    : i < mem.mmapEntries
  space : HasSpace (mem.mmap i) sz
  first : ∀ j < i, ¬HasSpace (mem.mmap j) sz

-- The request is at most half of its entry, and of the sizes that were taken from this entry before
-- none is more than half of it and less than twice as much.
def Fits (s : State) (sz : Nat) (e : MmapEntry) : Prop :=
  2 * roundUp sz ≤ e.bytes ∧ ∀ r ∈ s.out, e.phys ≤ r.1 → r.1 < e.phys + e.bytes →
    roundUp sz = 0 ∨ r.2 = 0 ∨ 2 * roundUp sz ≤ r.2 ∨ 2 * r.2 ≤ roundUp sz

-- The condition for a request to get memory that is its own; there is nothing to be asked of one whose
-- address comes to `NULL`.
def RequestFits (s : State) (sz : Nat) : Prop :=
  ∀ i, Takes s.mem (pageSize sz) i → u64 ((s.mem.mmap i).phys + pageSize sz) ≠ 0 →
    Fits s sz (s.mem.mmap i)

variable {mem mem' : Loader} {s : State} {q : Request} {r t : Range} {e : MmapEntry}
variable {sz type virt i j n : Nat} {map : Bool} {out : List Range}

section Build

-- The maps that the device tree gives, one entry after the other.
def addEntries (entries : List MmapEntry) (mem : Loader) : Loader :=
  entries.foldl (fun mem e => addMmapEntry e.phys e.virt e.bytes e.type mem) mem

theorem unused_addEntries {entries : List MmapEntry} (h : ∀ i < mem.cursor, offset (mem.mmap i) = 0) :
    ∀ i < (addEntries entries mem).cursor, offset ((addEntries entries mem).mmap i) = 0 := by
  induction entries generalizing mem
  case nil => exact h
  case cons e es hi =>
    apply hi
    intro i hlt
    simp only [addMmapEntry, update_apply] at hlt ⊢
    split
    case isTrue  => rfl
    case isFalse => exact h i (by omega)

-- A map starts with all of its memory unused.
theorem unused_initAllocmmap {entries : List MmapEntry} (h : mem.cursor = 0) :
    Unused (initAllocmmap (addEntries entries mem)) :=
  unused_addEntries fun i hi => by omega

end Build

section Loop

-- The loader after a request was taken from entry `i`.
def took (sz type virt : Nat) (map : Bool) (mem : Loader) (i : Nat) : Loader :=
  let e := mem.mmap i
  let addr := u64 (e.phys + sz)
  addAllocation addr (if map = true ∧ virt ≠ 1 then virt else addr) sz type
    { mem with mmap := update mem.mmap i { e with magic := u64 (offset e + sz) } }

theorem hasSpace_iff : HasSpace e sz ↔ ¬e.type ≠ MmapEntry.typeFree ∧ ¬u64 (offset e + sz) ≥ e.bytes := by
  rw [not_not, Nat.not_le]
  exact ⟨fun h => ⟨h.free, h.left⟩, fun h => ⟨h.1, h.2⟩⟩

theorem allocFrom_skip (h : ¬HasSpace (mem.mmap i) sz) :
    allocFrom sz type virt map mem i (n + 1) = allocFrom sz type virt map mem (i + 1) n := by
  rw [allocFrom]
  split
  case isTrue => rfl
  case isFalse hf =>
    split
    case isTrue     => rfl
    case isFalse hl => exact absurd (hasSpace_iff.mpr ⟨hf, hl⟩) h

theorem allocFrom_take (h : HasSpace (mem.mmap i) sz) :
    allocFrom sz type virt map mem i (n + 1) =
      (u64 ((mem.mmap i).phys + sz), took sz type virt map mem i) := by
  obtain ⟨hf, hl⟩ := hasSpace_iff.mp h
  rw [allocFrom, if_neg hf, if_neg hl]
  rfl

-- What the loop over the entries comes to.
inductive Outcome (sz type virt : Nat) (map : Bool) (mem : Loader) (i n : Nat) : Nat × Loader → Prop
  | none : (∀ j, i ≤ j → j < i + n → ¬HasSpace (mem.mmap j) sz) → Outcome sz type virt map mem i n (0, mem)
  | some {k : Nat} : i ≤ k → k < i + n → HasSpace (mem.mmap k) sz →
    (∀ j, i ≤ j → j < k → ¬HasSpace (mem.mmap j) sz) →
    Outcome sz type virt map mem i n (u64 ((mem.mmap k).phys + sz), took sz type virt map mem k)

theorem allocFrom_outcome : Outcome sz type virt map mem i n (allocFrom sz type virt map mem i n) := by
  induction n generalizing i
  case zero => exact .none fun j hl hu => by omega
  case succ n hi =>
    by_cases h : HasSpace (mem.mmap i) sz
    case pos =>
      rw [allocFrom_take h]
      exact .some (Nat.le_refl i) (by omega) h fun j hl hu => by omega
    case neg =>
      have before {j k : Nat} (hb : ∀ j, i + 1 ≤ j → j < k → ¬HasSpace (mem.mmap j) sz) (hl : i ≤ j)
          (hu : j < k) : ¬HasSpace (mem.mmap j) sz := by
        rcases Nat.eq_or_lt_of_le hl with rfl | hlt
        · exact h
        · exact hb j hlt hu
      have ho := @hi (i + 1)
      rw [allocFrom_skip h]
      generalize allocFrom sz type virt map mem (i + 1) n = r at ho
      cases ho
      case none hn         => exact .none fun j hl hu => before hn hl (by omega)
      case some k hl hu hs hb => exact .some (by omega) (by omega) hs fun j => before hb

theorem allocMem_cases : (∀ i, ¬Takes mem (pageSize sz) i) ∧ allocMem sz type virt map mem = (0, mem) ∨
    ∃ i, Takes mem (pageSize sz) i ∧ allocMem sz type virt map mem =
      (u64 ((mem.mmap i).phys + pageSize sz), took (pageSize sz) type virt map mem i) := by
  have ho := @allocFrom_outcome mem (pageSize sz) type virt 0 mem.mmapEntries map
  rw [allocMem]
  generalize allocFrom (pageSize sz) type virt map mem 0 mem.mmapEntries = r at ho
  cases ho
  case none hn =>
    exact .inl ⟨fun i ht => hn i (Nat.zero_le i) (by rw [Nat.zero_add]; exact ht.lt) ht.space, rfl⟩
  case some k _ hu hs hb =>
    rw [Nat.zero_add] at hu
    exact .inr ⟨k, ⟨hu, hs, fun j => hb j (Nat.zero_le j)⟩, rfl⟩

theorem Takes.unique (h : Takes mem sz i) (h' : Takes mem sz j) : i = j := by
  rcases Nat.lt_trichotomy i j with hlt | rfl | hlt
  · exact absurd h.space (h'.first i hlt)
  · rfl
  · exact absurd h'.space (h.first j hlt)

end Loop

section Map

-- The entries are the same up to their offsets.
structure SameMap (mem mem' : Loader) : Prop where
  mmapEntries : mem'.mmapEntries = mem.mmapEntries
  entry       : ∀ i, mem'.mmap i = { mem.mmap i with magic := offset (mem'.mmap i) }

theorem SameMap.took : SameMap mem (took sz type virt map mem i) where
  mmapEntries := rfl
  entry j := by
    simp only [Aarch64.took, addAllocation, update_apply]
    split
    case isTrue h  => rw [h]
    case isFalse h => rfl

theorem SameMap.isFree (h : SameMap mem mem') : IsFree mem' i ↔ IsFree mem i := by
  rw [IsFree, IsFree, h.mmapEntries, h.entry i]

theorem SameMap.memoryMap (h : SameMap mem mem') (hm : MemoryMap mem) : MemoryMap mem' where
  bound hi := by
    rw [h.entry]
    exact hm.bound (h.isFree.mp hi)
  apart {i j} hi hj hne := by
    rw [h.entry i, h.entry j]
    exact hm.apart (h.isFree.mp hi) (h.isFree.mp hj) hne

-- An entry is used up to its offset, which is below its end.
def OffsetsBelow (mem : Loader) : Prop :=
  ∀ i < mem.mmapEntries, offset (mem.mmap i) = 0 ∨ offset (mem.mmap i) < (mem.mmap i).bytes

theorem OffsetsBelow.took (h : OffsetsBelow mem) (ht : Takes mem sz i) :
    OffsetsBelow (took sz type virt map mem i) := by
  intro j hj
  simp only [Aarch64.took, addAllocation, update_apply]
  split
  case isTrue  => exact .inr ht.space.left
  case isFalse => exact h j hj

end Map

section Sizes

theorem pageSize_eq (h : sz < 2 ^ 64) : pageSize sz = u64 (roundUp sz) := by
  unfold pageSize roundUp u64
  split <;> omega

theorem roundUp_mod : roundUp sz % 0x1000 = 0 :=
  Nat.mul_mod_left _ _

end Sizes

section Inv

-- A range begins at its own size from the start of its entry.
structure Placed (e : MmapEntry) (r : Range) : Prop where
  start : r.1 = e.phys + r.2
  half  : 2 * r.2 ≤ e.bytes
  pages : r.2 % 0x1000 = 0

structure Inv (s : State) : Prop where
  map     : MemoryMap s.mem
  offsets : OffsetsBelow s.mem
  placed  : ∀ r ∈ s.out, ∃ i, IsFree s.mem i ∧ Placed (s.mem.mmap i) r
  apart   : s.out.Pairwise fun r t => Disjoint r.bytes t.bytes

theorem disjoint_iff : Disjoint r.bytes t.bytes ↔
    r.2 = 0 ∨ t.2 = 0 ∨ r.1 + r.2 ≤ t.1 ∨ t.1 + t.2 ≤ r.1 := by
  rw [Range.bytes, Range.bytes, Set.Ico_disjoint_Ico]
  omega

theorem Inv.sound (h : Inv s) : Sound s where
  inside r hr := by
    obtain ⟨i, hf, hp⟩ := h.placed r hr
    have := hp.start
    have := hp.half
    have := hp.pages
    exact ⟨i, hf, by omega, by omega, fun _ => by omega⟩
  apart := h.apart

-- Entries that have a byte in common are the same.
theorem MemoryMap.eq_of_mem (h : MemoryMap mem) (hi : IsFree mem i) (hj : IsFree mem j) {x : Nat}
    (hxi : (mem.mmap i).phys ≤ x ∧ x < (mem.mmap i).phys + (mem.mmap i).bytes)
    (hxj : (mem.mmap j).phys ≤ x ∧ x < (mem.mmap j).phys + (mem.mmap j).bytes) : i = j := by
  by_contra hne
  have := h.apart hi hj hne
  omega

theorem Placed.inside (h : Placed e r) (h0 : r.2 ≠ 0) : e.phys ≤ r.1 ∧ r.1 < e.phys + e.bytes := by
  have := h.start
  have := h.half
  omega

theorem Takes.isFree (h : Takes mem sz i) : IsFree mem i :=
  ⟨h.lt, h.space.free⟩

-- The request is placed in its entry, apart from the ranges there and from the ones in other entries.
theorem Inv.place (h : Inv s) (hi : IsFree s.mem i) (hf : Fits s sz (s.mem.mmap i))
    (hr : r = ((s.mem.mmap i).phys + roundUp sz, roundUp sz)) :
    Placed (s.mem.mmap i) r ∧ ∀ t ∈ s.out, Disjoint r.bytes t.bytes := by
  subst hr
  have hp : Placed (s.mem.mmap i) ((s.mem.mmap i).phys + roundUp sz, roundUp sz) :=
    ⟨rfl, hf.left, roundUp_mod⟩
  refine ⟨hp, fun t ht => ?_⟩
  rw [disjoint_iff]
  dsimp only
  by_cases h0 : t.2 = 0
  case pos => exact .inr (.inl h0)
  case neg =>
    obtain ⟨j, hj, hpj⟩ := h.placed t ht
    have hstart := hpj.start
    have hhalf := hpj.half
    by_cases he : i = j
    case pos =>
      subst he
      obtain ⟨hlo, hhi⟩ := hpj.inside h0
      have := hf.right t ht hlo hhi
      omega
    case neg =>
      have := h.map.apart hi hj he
      have := hf.left
      omega

end Inv

section Alloc

theorem State.alloc_of_none (h : ∀ i, ¬Takes s.mem (pageSize q.sz) i) : s.alloc q = s := by
  rcases @allocMem_cases s.mem q.sz q.type q.virt q.map with ⟨_, he⟩ | ⟨i, ht, _⟩
  · rw [State.alloc, he]
    rfl
  · exact absurd ht (h i)

theorem State.alloc_of_takes (h : Takes s.mem (pageSize q.sz) i) : s.alloc q = {
    mem := took (pageSize q.sz) q.type q.virt q.map s.mem i
    out := if u64 ((s.mem.mmap i).phys + pageSize q.sz) = 0 then s.out
      else (u64 ((s.mem.mmap i).phys + pageSize q.sz), roundUp q.sz) :: s.out } := by
  rcases @allocMem_cases s.mem q.sz q.type q.virt q.map with ⟨hn, _⟩ | ⟨j, ht, he⟩
  · exact absurd h (hn i)
  · rw [State.alloc, he, ht.unique h]

theorem Inv.took (h : Inv s) (ht : Takes s.mem sz i) (hp : ∀ r ∈ out, ∃ i, IsFree s.mem i ∧ Placed (s.mem.mmap i) r)
    (ha : out.Pairwise fun r t => Disjoint r.bytes t.bytes) : Inv ⟨took sz type virt map s.mem i, out⟩ where
  map     := SameMap.took.memoryMap h.map
  offsets := h.offsets.took ht
  placed r hr := by
    obtain ⟨j, hj, hp⟩ := hp r hr
    refine ⟨j, SameMap.took.isFree.mpr hj, ?_⟩
    rw [SameMap.took.entry j]
    exact ⟨hp.start, hp.half, hp.pages⟩
  apart := ha

theorem Inv.alloc (h : Inv s) (hq : q.sz < 2 ^ 64) (hf : RequestFits s q.sz) : Inv (s.alloc q) := by
  by_cases hn : ∃ i, Takes s.mem (pageSize q.sz) i
  case neg =>
    rw [State.alloc_of_none fun i ht => hn ⟨i, ht⟩]
    exact h
  case pos =>
    obtain ⟨i, ht⟩ := hn
    rw [State.alloc_of_takes ht]
    split
    case isTrue => exact h.took ht h.placed h.apart
    case isFalse h0 =>
      have hfit := hf i ht h0
      have hhalf := hfit.left
      have hbound := h.map.bound ht.isFree
      have hsize : pageSize q.sz = roundUp q.sz := by
        rw [pageSize_eq hq]
        exact u64_of_lt (by omega)
      have haddr : u64 ((s.mem.mmap i).phys + pageSize q.sz) = (s.mem.mmap i).phys + roundUp q.sz := by
        rw [hsize] at h0 ⊢
        unfold u64 at h0 ⊢
        omega
      obtain ⟨hp, ha⟩ := h.place ht.isFree hfit rfl
      rw [haddr]
      refine h.took ht (List.forall_mem_cons.mpr ⟨⟨i, ht.isFree, hp⟩, h.placed⟩) ?_
      exact List.pairwise_cons.mpr ⟨ha, h.apart⟩

-- A range that is inside of the map is in the entry that it was taken from.
theorem start_of_inside {phys bytes off lo hi : Nat} (hn : n < 2 ^ 64) (hb : phys + bytes ≤ 2 ^ 64)
    (ho : off = 0 ∨ off < bytes) (hs : u64 (off + n) < bytes) (hlo : lo ≤ u64 (phys + n))
    (hhi : u64 (phys + n) + n ≤ hi) (hend : hi ≤ 2 ^ 64)
    (ha : phys + bytes ≤ lo ∨ hi ≤ phys ∨ lo = phys ∧ hi = phys + bytes) :
    u64 (phys + n) = phys + n ∧ 2 * n ≤ bytes := by
  unfold u64 at *
  omega

theorem Inv.fits_of_sound (h : Inv s) (hq : q.sz < 2 ^ 64) (hs : Sound (s.alloc q)) : RequestFits s q.sz := by
  intro i ht hne
  rw [State.alloc_of_takes ht, if_neg hne] at hs
  obtain ⟨hin, -⟩ := List.forall_mem_cons.mp hs.inside
  obtain ⟨ha, -⟩ := List.pairwise_cons.mp hs.apart
  by_cases h0 : roundUp q.sz = 0
  case pos => exact ⟨by omega, fun _ _ _ _ => .inl h0⟩
  case neg =>
    obtain ⟨j, hj, hlo, hhi, -⟩ := hin
    rw [SameMap.took.entry j] at hlo hhi
    replace hj := SameMap.took.isFree.mp hj
    dsimp only at hlo hhi
    have hend := h.map.bound hj
    have hsize : pageSize q.sz = roundUp q.sz := by
      rw [pageSize_eq hq]
      exact u64_of_lt (by omega)
    rw [hsize] at hlo hhi ha ht hne
    have hsame : (s.mem.mmap i).phys + (s.mem.mmap i).bytes ≤ (s.mem.mmap j).phys ∨
        (s.mem.mmap j).phys + (s.mem.mmap j).bytes ≤ (s.mem.mmap i).phys ∨
        (s.mem.mmap j).phys = (s.mem.mmap i).phys ∧
          (s.mem.mmap j).phys + (s.mem.mmap j).bytes = (s.mem.mmap i).phys + (s.mem.mmap i).bytes := by
      by_cases he : i = j
      case pos => exact .inr (.inr (he ▸ ⟨rfl, rfl⟩))
      case neg => exact (h.map.apart ht.isFree hj he).imp_right .inl
    obtain ⟨haddr, hhalf⟩ := start_of_inside (by omega) (h.map.bound ht.isFree) (h.offsets i ht.lt)
      ht.space.left hlo hhi hend hsame
    refine ⟨hhalf, fun t hm hlt hut => ?_⟩
    by_cases ht0 : t.2 = 0
    case pos => exact .inr (.inl ht0)
    case neg =>
      obtain ⟨k, hk, hp⟩ := h.placed t hm
      have hki := h.map.eq_of_mem ht.isFree hk ⟨hlt, hut⟩ (hp.inside ht0)
      subst hki
      have hstart := hp.start
      have hd := disjoint_iff.mp (ha t hm)
      dsimp only at hd
      omega

-- In every run of the bootloader whose requests fit, the ranges are in the map and apart, and after one
-- more request they are so exactly when it fits, too.
theorem allocMem_disjoint_iff (hm : MemoryMap mem) (hu : Unused mem)
    (run : Run.Steps Step (fun s q => RequestFits s q.sz) ⟨mem, []⟩ s) :
    Sound s ∧ ∀ q : Request, q.sz < 2 ^ 64 → (Sound (s.alloc q) ↔ RequestFits s q.sz) := by
  have init : Inv ⟨mem, []⟩ :=
    ⟨hm, fun i hi => .inl (hu i hi), fun _ h => absurd h List.not_mem_nil, .nil⟩
  have inv : Inv s := run.invariant init fun h hf hs => by
    cases hs
    case alloc hq => exact h.alloc hq hf
  exact ⟨inv.sound, fun q hq => ⟨inv.fits_of_sound hq, fun hf => (inv.alloc hq hf).sound⟩⟩

end Alloc

section Example

def freeEntry (phys bytes : Nat) : MmapEntry where
  magic := 0
  flags := 0
  type  := MmapEntry.typeFree
  phys  := phys
  virt  := 0
  bytes := bytes

def loaderOf (entries : List MmapEntry) : Loader :=
  initAllocmmap (addEntries entries {
    base := 0x80000, max := 0x10000, cursor := 0, mmap := fun _ => freeEntry 0 0, amap := fun _ => freeEntry 0 0
    mmapEntries := 0, allocEntries := 0 })

-- 64 KB of free memory.
def oneEntry : Loader := loaderOf [freeEntry 0x40000000 0x10000]

-- 32 KB in front of them in the map.
def twoEntries : Loader := loaderOf [freeEntry 0x50000000 0x8000, freeEntry 0x40000000 0x10000]

theorem memoryMap_oneEntry : MemoryMap oneEntry where
  bound {i} hi := by
    have h0 : i = 0 := Nat.lt_one_iff.mp hi.left
    rw [h0]
    decide
  apart {i j} hi hj hne := by
    have h0 : i = 0 := Nat.lt_one_iff.mp hi.left
    have h1 : j = 0 := Nat.lt_one_iff.mp hj.left
    exact absurd (h0.trans h1.symm) hne

theorem memoryMap_twoEntries : MemoryMap twoEntries where
  bound {i} hi := by
    have hb : ∀ i < 2, (twoEntries.mmap i).phys + (twoEntries.mmap i).bytes ≤ 2 ^ 64 := by decide
    exact hb i hi.left
  apart {i j} hi hj hne := by
    have ha : ∀ i < 2, ∀ j < 2, i ≠ j →
        (twoEntries.mmap i).phys + (twoEntries.mmap i).bytes ≤ (twoEntries.mmap j).phys ∨
          (twoEntries.mmap j).phys + (twoEntries.mmap j).bytes ≤ (twoEntries.mmap i).phys := by
      decide
    exact ha i hi.left j hj.left hne

def request (sz : Nat) : Request where
  sz   := sz
  type := MmapEntry.typeKernel
  virt := 1
  map  := false

theorem requestFits_of_takes {sz : Nat} (ht : Takes s.mem (pageSize sz) i) (hf : Fits s sz (s.mem.mmap i)) :
    RequestFits s sz := by
  intro j hj _
  rw [hj.unique ht]
  exact hf

-- 100 bytes and two pages come out of the first entry, which then has no eight pages left.
theorem allocMem_disjoint_twoEntries :
    let s := (State.alloc ⟨twoEntries, []⟩ (request 100)).alloc (request 0x2000)
    Run.Steps Step (fun s q => RequestFits s q.sz) ⟨twoEntries, []⟩ s ∧ Sound (s.alloc (request 0x8000)) ∧
      (s.alloc (request 0x8000)).out = [(0x40008000, 0x8000), (0x50002000, 0x2000), (0x50001000, 0x1000)] := by
  intro s
  have hu : Unused twoEntries := unused_initAllocmmap rfl
  have h₁ : RequestFits ⟨twoEntries, []⟩ 100 :=
    @requestFits_of_takes _ 0 _ ⟨by decide, ⟨rfl, by decide⟩, fun _ => nofun⟩ ⟨by decide, by decide⟩
  have h₂ : RequestFits (State.alloc ⟨twoEntries, []⟩ (request 100)) 0x2000 :=
    @requestFits_of_takes _ 0 _ ⟨by decide, ⟨rfl, by decide⟩, fun _ => nofun⟩ ⟨by decide, by decide⟩
  have hfull : ∀ j < 1, ¬HasSpace (s.mem.mmap j) (pageSize 0x8000) := by
    intro j hj hs
    rw [Nat.lt_one_iff.mp hj] at hs
    exact absurd hs.left (by decide)
  have h₃ : RequestFits s 0x8000 :=
    @requestFits_of_takes _ 1 _ ⟨by decide, ⟨rfl, by decide⟩, hfull⟩ ⟨by decide, by decide⟩
  have run : Run.Steps Step (fun s q => RequestFits s q.sz) ⟨twoEntries, []⟩ s :=
    .step (.step (.refl _) h₁ (.alloc (by decide))) h₂ (.alloc (by decide))
  have hs := ((allocMem_disjoint_iff memoryMap_twoEntries hu run).right (request 0x8000) (by decide)).mpr h₃
  exact ⟨run, hs, by decide⟩

-- The same page is handed out twice.
theorem allocMem_same_page : ¬∀ (mem : Loader) (s : State), MemoryMap mem → Unused mem →
    Run.Steps Step (fun _ _ => True) ⟨mem, []⟩ s → Sound s := by
  intro h
  have hu : Unused oneEntry := unused_initAllocmmap rfl
  let s := (State.alloc ⟨oneEntry, []⟩ (request 0x1000)).alloc (request 0x1000)
  have run : Run.Steps Step (fun _ _ => True) ⟨oneEntry, []⟩ s :=
    .step (.step (.refl _) trivial (.alloc (by decide))) trivial (.alloc (by decide))
  have hout : s.out = [(0x40001000, 0x1000), (0x40001000, 0x1000)] := rfl
  have ha := (h _ _ memoryMap_oneEntry hu run).apart
  rw [hout, List.pairwise_pair, disjoint_iff] at ha
  exact absurd ha (by decide)

end Example

end RoverOS.Aarch64
