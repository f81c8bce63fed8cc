import RoverOS.Bootloader.Elf
import RoverOS.Bootloader.Theorems.Chunks

-- Which files `loadELF` loads as their program headers say.

namespace RoverOS.Bootloader

open Paging
open Bytes (Memory)

-- What is assumed of `clearMem(ptr,sz)`, of the bytes.
structure ClearsBytes (clearBytes : Nat → Nat → Memory → Memory) : Prop where
  zero  : ∀ {ptr sz m a}, ptr ≤ a → a < ptr + sz → clearBytes ptr sz m a = 0#8
  other : ∀ {ptr sz m a}, a < ptr ∨ ptr + sz ≤ a → clearBytes ptr sz m a = m a

def clearBytesRange (ptr sz : Nat) (m : Memory) : Memory :=
  fun a => if ptr ≤ a ∧ a < ptr + sz then 0#8 else m a

theorem clearBytesRange_clears : ClearsBytes clearBytesRange where
  zero hl hu := if_pos ⟨hl, hu⟩
  other h    := if_neg (by omega)

-- The file gets as far as its program headers.
structure Accepted (file : Memory) : Prop where
  magic    : checkMagic elfMagic (readHeader file 0).magic 4 0 = .ok true
  elfClass : (readHeader file 0).elfClass = elfClass64

-- The field `phentsize` of the header, which is not read.
def phentsize (file : Memory) : Nat :=
  Bytes.load file 54 2

def programHeaders (file : Memory) (pos size n : Nat) : List Elf64ProgramHeader :=
  (List.range n).map fun i => readProgramHeader file (pos + i * size)

def loads (progs : List Elf64ProgramHeader) : List Elf64ProgramHeader :=
  progs.filter (·.type = ptLoad)

def segments (file : Memory) : List Elf64ProgramHeader :=
  loads (programHeaders file (readHeader file 0).phoff (phentsize file) (readHeader file 0).phnum)

namespace Elf64ProgramHeader

-- The byte that belongs at `vaddr + i`.
def byte (p : Elf64ProgramHeader) (file : Memory) (i : Nat) : BitVec 8 :=
  if i < p.filesz then file (p.offset + i) else 0#8

-- How far the segment starts behind the start of its page.
def shift (p : Elf64ProgramHeader) : Nat :=
  p.vaddr.toNat % 0x1000

def addr (p : Elf64ProgramHeader) (i : Nat) : Word :=
  p.vaddr + BitVec.ofNat 64 i

end Elf64ProgramHeader

structure Proper (file : Memory) : Prop where
  filesz   : ∀ p ∈ segments file, p.filesz ≤ p.memsz
  disjoint : (segments file).Pairwise fun p q => ∀ i < p.memsz, ∀ j < q.memsz, p.addr i ≠ q.addr j

def RightImage (file : Memory) (s : Loader) : Prop :=
  ∀ p ∈ segments file, ∀ i < p.memsz, s.byteAt (p.addr i) = some (p.byte file i)

-- The pages of the segment reach to its end, and within 4 GB.
structure Paged (p : Elf64ProgramHeader) : Prop where
  small   : p.shift + p.memsz ≤ 2 ^ 32
  covered : p.shift + p.memsz ≤ (p.memsz / 0x1000 + 1) * 0x1000

-- No page that is mapped for `q` has bytes of `p`.
def Spares (p q : Elf64ProgramHeader) : Prop :=
  ∀ i < p.memsz, ∀ j ≤ q.memsz / 0x1000, ¬SamePage (p.addr i) (pageAt q.vaddr j)

-- The headers have the size that the loader takes them to have, and no segment takes pages of an
-- earlier one.
structure Separate (file : Memory) : Prop where
  headers : phentsize file = sizeofElf64ProgramHeader ∨ (readHeader file 0).phnum ≤ 1
  fits    : ∀ p ∈ segments file, Paged p
  spares  : (segments file).Pairwise Spares

-- The bytes do not change when they move to the start of their page.
def Unshifted (p : Elf64ProgramHeader) (file : Memory) : Prop :=
  ∀ i < p.memsz, p.byte file (p.shift + i) = p.byte file i

variable {clearMem : ClearMem} {clearBytes : Nat → Nat → Memory → Memory} {file : Memory} {s s' : Loader}
  {p q : Elf64ProgramHeader} {progs : List Elf64ProgramHeader} {load : Word} {b : Block} {c : MapCall}
  {m m' : Word → Option MapCall} {type n i j k pos : Nat} {entry v w : Word} {kernel : Bool}

section Pages

theorem samePage_shift (hi : p.shift + i < 2 ^ 32) (hj : j < 2 ^ 20) :
    SamePage (p.addr i) (pageAt p.vaddr j) ↔ j = (p.shift + i) / 0x1000 := by
  have hv := p.vaddr.isLt
  rw [samePage_iff_page, pageAt, Elf64ProgramHeader.addr, BitVec.toNat_add, BitVec.toNat_add, BitVec.toNat_ofNat,
    BitVec.toNat_ofNat]
  rw [Elf64ProgramHeader.shift] at hi ⊢
  omega

-- The call of `mapPage` for a page of a segment.
def pageCall (p : Elf64ProgramHeader) (load : Word) (i : Nat) : MapCall where
  phys    := pageAt load i
  virt    := pageAt p.vaddr i
  write   := p.flags.testBit 1
  execute := p.flags.testBit 0

def sectionCalls (p : Elf64ProgramHeader) (load : Word) : List MapCall :=
  (List.range (p.memsz / 0x1000 + 1)).map fun i => pageCall p load (i % 2 ^ 20)

theorem mapPages_eq_mapCalls {boot : Boot} (hf : Paged p) :
    mapPages clearMem load p.vaddr (u32 (p.memsz / 0x1000 + 1)) (p.flags.testBit 1) (p.flags.testBit 0) boot =
      mapCalls clearMem (sectionCalls p load) boot := by
  have hs := hf.small
  have hn : u32 (p.memsz / 0x1000 + 1) = p.memsz / 0x1000 + 1 := Nat.mod_eq_of_lt (by omega)
  rw [mapPages, hn, if_neg (Nat.succ_ne_zero _), mapFrom_eq_mapCalls, ← List.range_eq_range']
  rfl

theorem mem_sectionCalls (hc : c ∈ sectionCalls p load) :
    ∃ j ≤ p.memsz / 0x1000, j < 2 ^ 20 ∧ c = pageCall p load j := by
  obtain ⟨j, hj, rfl⟩ := List.mem_map.mp hc
  have hle := Nat.lt_succ_iff.mp (List.mem_range.mp hj)
  exact ⟨j % 2 ^ 20, le_trans (Nat.mod_le _ _) hle, Nat.mod_lt _ (by decide), rfl⟩

-- The last call for a byte of the segment is the one for its page.
theorem lastCall_own (hp : Paged p) (hi : i < p.memsz) :
    lastCall (sectionCalls p load) (p.addr i) = some (pageCall p load ((p.shift + i) / 0x1000)) := by
  have hs := hp.small
  have hcov := hp.covered
  have hk : (p.shift + i) / 0x1000 < p.memsz / 0x1000 + 1 := by omega
  have hmod : (p.shift + i) / 0x1000 % 2 ^ 20 = (p.shift + i) / 0x1000 := by omega
  have hmem : pageCall p load ((p.shift + i) / 0x1000) ∈ sectionCalls p load :=
    List.mem_map.mpr ⟨_, List.mem_range.mpr hk, by rw [hmod]⟩
  have hown : SamePage (p.addr i) (pageCall p load ((p.shift + i) / 0x1000)).virt :=
    (samePage_shift (by omega) (by omega)).mpr rfl
  obtain ⟨c, hc⟩ := exists_lastCall hmem hown
  obtain ⟨hcm, hcs⟩ := lastCall_some hc
  obtain ⟨j, -, hj, rfl⟩ := mem_sectionCalls hcm
  rw [hc, (samePage_shift (by omega) hj).mp hcs]

theorem lastCall_spared (hs : Spares p q) (hi : i < p.memsz) : lastCall (sectionCalls q load) (p.addr i) = none := by
  refine lastCall_none fun c hc => ?_
  obtain ⟨j, hj, -, rfl⟩ := mem_sectionCalls hc
  exact hs i hi j hj

end Pages

section Load

-- The memory of a segment, and the map that its addresses have.
structure Placed (file : Memory) (boot : Boot) (mem : Memory) (m : Word → Option MapCall) (p : Elf64ProgramHeader)
    (load : Word) (b : Block) : Prop where
  held  : b ∈ boot.blocks.filter Block.held
  start : b.wide.ptr.toNat < load.toNat
  room  : load.toNat + p.memsz + 0x1000 ≤ b.wide.ptr.toNat + b.wide.size
  page  : load.toNat % 0x1000 = 0
  below : load.toNat + p.memsz + 0x1000 ≤ 2 ^ 52
  bytes : ∀ k < p.memsz + 0x1000, mem (load.toNat + k) = p.byte file k
  map   : ∀ i < p.memsz, m (p.addr i) = some (pageCall p load ((p.shift + i) / 0x1000))

structure Loads (clearMem : ClearMem) (clearBytes : Nat → Nat → Memory → Memory) (file : Memory) (type : Nat)
    (p : Elf64ProgramHeader) (s : Loader) (load : Word) (boot : Boot) (s' : Loader) : Prop where
  alloc : allocMem clearMem p.memsz p.vaddr type false true true s.boot = .ok (load, boot)
  calls : mapCalls clearMem (sectionCalls p load) boot = .ok s'.boot
  pos   : s'.pos = s.pos
  mem   : ∀ a, s'.mem a = if load.toNat ≤ a ∧ a < load.toNat + p.filesz then file (p.offset + (a - load.toNat))
    else clearBytes load.toNat (p.memsz + 0x1000) s.mem a

theorem loadSection_ok (hp : Paged p) (h : loadSection clearMem clearBytes file type p s = .ok s') :
    ∃ load boot, Loads clearMem clearBytes file type p s load boot s' := by
  have hs := hp.small
  rw [loadSection] at h
  obtain ⟨⟨load, boot⟩, ha, h⟩ := Except.bind_ok_iff.mp h
  obtain ⟨boot', hm, h⟩ := Except.bind_ok_iff.mp h
  have hu : u64 (p.memsz + 0x1000) = p.memsz + 0x1000 := u64_of_lt (by omega)
  rw [mapPages_eq_mapCalls hp] at hm
  by_cases hz : p.filesz = 0
  case pos =>
    simp only [hz, if_true] at hm h
    cases h
    refine ⟨load, boot, ha, hm, rfl, fun a => ?_⟩
    simp only [hu]
    rw [if_neg (by omega)]
  case neg =>
    simp only [hz, if_false] at hm h
    cases h
    refine ⟨load, boot, ha, hm, rfl, fun a => ?_⟩
    simp only [readFile, hu]

namespace Loads

variable {boot : Boot}

theorem aligned (l : Loads clearMem clearBytes file type p s load boot s') (hp : Paged p) :
    ∃ b, Aligned clearMem s.boot load p.memsz boot b := by
  have hs := hp.small
  exact allocMem_aligned l.alloc (by omega)

theorem held_sublist (l : Loads clearMem clearBytes file type p s load boot s') :
    (boot.blocks.filter Block.held).Sublist (s'.boot.blocks.filter Block.held) :=
  (mapCalls_blocks l.calls).filter _

theorem roomy (l : Loads clearMem clearBytes file type p s load boot s') (hroom : Roomy s'.boot) : Roomy boot :=
  hroom.of_sublist l.held_sublist

theorem held (l : Loads clearMem clearBytes file type p s load boot s') (hp : Paged p) :
    (s.boot.blocks.filter Block.held).Sublist (s'.boot.blocks.filter Block.held) := by
  obtain ⟨b, g⟩ := l.aligned hp
  have hs := l.held_sublist
  rw [g.blocks] at hs
  exact (List.sublist_cons_self _ _).trans hs

theorem represents (hc : Clears clearMem) (r : Represents s.boot.onlyTables m)
    (l : Loads clearMem clearBytes file type p s load boot s') (hp : Paged p) (hroom : Roomy s'.boot) :
    Represents s'.boot.onlyTables fun v => (lastCall (sectionCalls p load) v).or (m v) := by
  obtain ⟨b, g⟩ := l.aligned hp
  exact (r.aligned hc g (l.roomy hroom)).mapCalls_or hc (mapCalls_onlyTables l.calls) hroom.tables

theorem mem_outside (hb : ClearsBytes clearBytes) (l : Loads clearMem clearBytes file type p s load boot s')
    (hsz : p.filesz ≤ p.memsz) {a : Nat} (ha : a < load.toNat ∨ load.toNat + p.memsz + 0x1000 ≤ a) :
    s'.mem a = s.mem a := by
  rw [l.mem, if_neg (by omega)]
  refine hb.other ?_
  rwa [← Nat.add_assoc]

theorem placed (hb : ClearsBytes clearBytes) (l : Loads clearMem clearBytes file type p s load boot s') (hp : Paged p)
    (hroom : Roomy s'.boot) :
    ∃ b, Placed file s'.boot s'.mem (fun v => (lastCall (sectionCalls p load) v).or (m v)) p load b := by
  obtain ⟨b, g⟩ := l.aligned hp
  obtain ⟨hlt, hle, hbelow, hpage, hptr, hsize⟩ := g.has (l.roomy hroom)
  refine ⟨b, ?held, ?start, ?room, hpage, ?below, fun k hk => ?bytes, fun i hi => ?map⟩
  case held  =>
    refine l.held_sublist.mem ?_
    rw [g.blocks]
    exact List.mem_cons_self
  case start => rwa [hptr]
  case room  =>
    rw [hptr, hsize, ← Nat.add_assoc]
    omega
  case below =>
    rw [hptr, hsize, ← Nat.add_assoc] at hbelow
    omega
  case bytes =>
    rw [l.mem, Elf64ProgramHeader.byte]
    by_cases hf : k < p.filesz
    case pos => rw [if_pos hf, if_pos (by omega), Nat.add_sub_cancel_left]
    case neg =>
      rw [if_neg hf, if_neg (by omega)]
      exact hb.zero (by omega) (by omega)
  case map =>
    rw [lastCall_own hp hi]
    rfl

-- The segments before keep their memory and their pages.
theorem keeps (hb : ClearsBytes clearBytes) (l : Loads clearMem clearBytes file type p s load boot s') (hp : Paged p)
    (hsz : p.filesz ≤ p.memsz) (hroom : Roomy s'.boot) {load' : Word} (h : Placed file s.boot s.mem m q load' b) (hs : Spares q p) :
    Placed file s'.boot s'.mem (fun v => (lastCall (sectionCalls p load) v).or (m v)) q load' b := by
  obtain ⟨b₁, g⟩ := l.aligned hp
  have hmem := List.mem_filter.mp h.held
  have hapart := g.apart (l.roomy hroom) hmem.left hmem.right
  have hstart := h.start
  have hroom' := h.room
  have hptr : b.wide.ptr = b.ptr := by
    rw [Block.wide]
    split <;> rfl
  refine ⟨(l.held hp).mem h.held, h.start, h.room, h.page, h.below, fun k hk => ?bytes, fun i hi => ?map⟩
  case bytes =>
    rw [← h.bytes k hk]
    rw [hptr] at hapart hstart hroom'
    exact l.mem_outside hb hsz (by omega)
  case map =>
    rw [lastCall_spared hs hi]
    exact h.map i hi

end Loads

theorem programHeaders_succ : programHeaders file pos k (n + 1) =
    readProgramHeader file pos :: programHeaders file (pos + k) k n := by
  rw [programHeaders, List.range_succ_eq_map, List.map_cons, Nat.zero_mul, List.map_map]
  congr 1
  refine List.map_congr_left fun i _ => ?_
  rw [Function.comp_apply, Nat.succ_mul]
  congr 1
  omega

-- A header of another type is passed over, and a section is loaded before the ones behind it.
theorem loadSections_cases (h : loadSections clearMem clearBytes file type (n + 1) s = .ok s') :
    ((readProgramHeader file s.pos).type ≠ ptLoad ∧
      loadSections clearMem clearBytes file type n { s with pos := s.pos + sizeofElf64ProgramHeader } = .ok s') ∨
    ((readProgramHeader file s.pos).type = ptLoad ∧ ∃ s₁, loadSection clearMem clearBytes file type
      (readProgramHeader file s.pos) { s with pos := s.pos + sizeofElf64ProgramHeader } = .ok s₁ ∧
      loadSections clearMem clearBytes file type n s₁ = .ok s') := by
  rw [loadSections] at h
  by_cases ht : (readProgramHeader file s.pos).type ≠ ptLoad
  case pos => exact .inl ⟨ht, (if_pos ht).symm.trans h⟩
  case neg => exact .inr ⟨not_not.mp ht, Except.bind_ok_iff.mp ((if_neg ht).symm.trans h)⟩

-- The segments that the loop is about to load.
def upcoming (file : Memory) (pos n : Nat) : List Elf64ProgramHeader :=
  loads (programHeaders file pos sizeofElf64ProgramHeader n)

theorem upcoming_succ : upcoming file pos (n + 1) = if (readProgramHeader file pos).type = ptLoad then
    readProgramHeader file pos :: upcoming file (pos + sizeofElf64ProgramHeader) n
      else upcoming file (pos + sizeofElf64ProgramHeader) n := by
  rw [upcoming, programHeaders_succ, loads, List.filter_cons]
  split <;> simp_all [upcoming, loads]

theorem loadSections_held (hp : ∀ p ∈ upcoming file s.pos n, Paged p)
    (h : loadSections clearMem clearBytes file type n s = .ok s') :
    (s.boot.blocks.filter Block.held).Sublist (s'.boot.blocks.filter Block.held) := by
  induction n generalizing s
  case zero =>
    cases h
    exact .refl _
  case succ n hi =>
    rw [upcoming_succ] at hp
    rcases loadSections_cases h with ⟨ht, h⟩ | ⟨ht, s₁, h₁, h⟩
    case inl =>
      rw [if_neg ht] at hp
      exact hi (s := { s with pos := s.pos + sizeofElf64ProgramHeader }) hp h
    case inr =>
      rw [if_pos ht] at hp
      obtain ⟨hpaged, hp⟩ := List.forall_mem_cons.mp hp
      obtain ⟨load, boot, l⟩ := loadSection_ok hpaged h₁
      have hpos : s₁.pos = s.pos + sizeofElf64ProgramHeader := l.pos
      rw [← hpos] at hp
      exact (l.held hpaged).trans (hi hp h)

-- All segments are placed, the ones before the loop and the ones that it loads.
theorem loadSections_placed (hc : Clears clearMem) (hb : ClearsBytes clearBytes) (r : Represents s.boot.onlyTables m)
    (hd : ∀ p ∈ progs, ∃ load b, Placed file s.boot s.mem m p load b)
    (hp : ∀ p ∈ upcoming file s.pos n, Paged p) (hf : ∀ p ∈ upcoming file s.pos n, p.filesz ≤ p.memsz)
    (hs : (progs ++ upcoming file s.pos n).Pairwise Spares)
    (h : loadSections clearMem clearBytes file type n s = .ok s') (hroom : Roomy s'.boot) :
    ∃ m', Represents s'.boot.onlyTables m' ∧
      ∀ p ∈ progs ++ upcoming file s.pos n, ∃ load b, Placed file s'.boot s'.mem m' p load b := by
  induction n generalizing s m progs
  case zero =>
    have hz : upcoming file s.pos 0 = [] := rfl
    rw [hz, List.append_nil]
    cases h
    exact ⟨m, r, hd⟩
  case succ n hi =>
    rw [upcoming_succ] at hp hf hs ⊢
    rcases loadSections_cases h with ⟨ht, h⟩ | ⟨ht, s₁, h₁, h⟩
    case inl =>
      rw [if_neg ht] at hp hf hs ⊢
      exact hi (s := { s with pos := s.pos + sizeofElf64ProgramHeader }) r hd hp hf hs h
    case inr =>
      rw [if_pos ht] at hp hf hs ⊢
      obtain ⟨hpaged, hp⟩ := List.forall_mem_cons.mp hp
      obtain ⟨hsz, hf⟩ := List.forall_mem_cons.mp hf
      obtain ⟨load, boot, l⟩ := loadSection_ok hpaged h₁
      have hpos : s₁.pos = s.pos + sizeofElf64ProgramHeader := l.pos
      rw [← hpos] at hp hf hs ⊢
      have hroom₁ : Roomy s₁.boot := hroom.of_sublist (loadSections_held hp h)
      have r₁ := Loads.represents (s := { s with pos := s.pos + sizeofElf64ProgramHeader }) hc r l hpaged hroom₁
      rw [List.append_cons] at hs ⊢
      refine hi r₁ (fun q hq => ?_) hp hf hs h
      rcases List.mem_append.mp hq with hq | hq
      case inl =>
        obtain ⟨load', b, hplaced⟩ := hd q hq
        have hspares : Spares q (readProgramHeader file s.pos) :=
          (List.pairwise_append.mp (List.pairwise_append.mp hs).left).right.right q hq _ List.mem_cons_self
        exact ⟨load', b, l.keeps hb hpaged hsz hroom₁ hplaced hspares⟩
      case inr =>
        obtain rfl := List.mem_singleton.mp hq
        exact ⟨load, l.placed hb hpaged hroom₁⟩

end Load

section Bytes

-- What is found at an address of a segment.
theorem Placed.byteAt (r : Represents s.boot.onlyTables m) (h : Placed file s.boot s.mem m p load b) (hi : i < p.memsz) :
    s.byteAt (p.addr i) = some (p.byte file (p.shift + i)) := by
  obtain ⟨t, ht, hpte, -⟩ := (r.mapped (h.map i hi)).testPath
  have ht : testPath s.boot (p.addr i) = some t := ht
  have hbelow := h.below
  have hpage := h.page
  have hv := p.vaddr.isLt
  have hshift : p.shift + i < p.memsz + 0x1000 := by
    rw [Elf64ProgramHeader.shift]
    omega
  have hphys : (pageAt load ((p.shift + i) / 0x1000)).toNat = load.toNat + (p.shift + i) / 0x1000 * 0x1000 := by
    rw [pageAt, BitVec.toNat_add, BitVec.toNat_ofNat]
    omega
  have hlt : (pageCall p load ((p.shift + i) / 0x1000)).phys.toNat < 2 ^ 52 := by
    change (pageAt load _).toNat < _
    omega
  have hbase : (tableBase t.pte).toNat = load.toNat + (p.shift + i) / 0x1000 * 0x1000 := by
    rw [hpte, tableBase_leafEntry hlt, kalign_toNat]
    change (pageAt load _).toNat / _ * _ = _
    omega
  have hoff : (p.addr i).toNat % 0x1000 = (p.shift + i) % 0x1000 := by
    rw [Elf64ProgramHeader.addr, Elf64ProgramHeader.shift, BitVec.toNat_add, BitVec.toNat_ofNat]
    omega
  have haddr : (tableBase t.pte).toNat + (p.addr i).toNat % 0x1000 = load.toNat + (p.shift + i) := by
    rw [hbase, hoff]
    omega
  rw [Loader.byteAt, ht, Option.map_some, haddr, h.bytes _ hshift]

-- The loader takes the headers for the segments.
theorem Separate.upcoming_eq (hs : Separate file) :
    upcoming file (readHeader file 0).phoff (readHeader file 0).phnum = segments file := by
  rw [upcoming, segments]
  rcases hs.headers with h | h
  case inl => rw [h]
  case inr =>
    congr 1
    refine List.map_congr_left fun i hi => ?_
    obtain rfl : i = 0 := by
      have := List.mem_range.mp hi
      omega
    rw [Nat.zero_mul, Nat.zero_mul]

theorem loadELF_ok (ha : Accepted file) (h : loadELF clearMem clearBytes file kernel s = .ok (entry, s')) :
    ∃ type, loadSections clearMem clearBytes file type (readHeader file 0).phnum
      { s with pos := (readHeader file 0).phoff } = .ok s' := by
  obtain ⟨magic, hm, h⟩ := Except.bind_ok_iff.mp h
  obtain rfl : true = magic := Except.ok.inj (ha.magic.symm.trans hm)
  have h := (if_neg fun hn => hn rfl).symm.trans h
  have h := (if_neg fun hn => hn ha.elfClass).symm.trans h
  obtain ⟨s₁, h₁, h⟩ := Except.bind_ok_iff.mp h
  obtain ⟨-, rfl⟩ := Prod.mk.inj (Except.ok.inj h)
  exact ⟨_, h₁⟩

-- Each byte of a segment is found where its page has been loaded to, and pages are loaded from their
-- start on.
theorem loadELF_byteAt (hc : Clears clearMem) (hb : ClearsBytes clearBytes) (r : Represents s.boot.onlyTables m)
    (ha : Accepted file) (hp : Proper file) (hs : Separate file)
    (h : loadELF clearMem clearBytes file kernel s = .ok (entry, s')) (hroom : Roomy s'.boot) :
    ∀ p ∈ segments file, ∀ i < p.memsz, s'.byteAt (p.addr i) = some (p.byte file (p.shift + i)) := by
  obtain ⟨type, h⟩ := loadELF_ok ha h
  have hu := hs.upcoming_eq
  have hnone : ∀ p ∈ ([] : List Elf64ProgramHeader), ∃ load b, Placed file s.boot s.mem m p load b :=
    fun _ hq => absurd hq List.not_mem_nil
  obtain ⟨m', r', hplaced⟩ := loadSections_placed (s := { s with pos := (readHeader file 0).phoff }) hc hb r hnone
    (hu ▸ hs.fits) (hu ▸ hp.filesz) (hu ▸ hs.spares) h hroom
  intro p hmem i hi
  obtain ⟨load, b, hplaced⟩ := hplaced p (hu ▸ hmem)
  exact hplaced.byteAt r' hi

theorem unshifted_of_aligned (h : p.shift = 0) : Unshifted p file := by
  intro i _
  rw [h, Nat.zero_add]

-- Where no segment's pages or memory are touched again, the image is right if moving the bytes to the
-- start of their page does not show.
theorem loadELF_image_iff (hc : Clears clearMem) (hb : ClearsBytes clearBytes) (r : Represents s.boot.onlyTables m)
    (ha : Accepted file) (hp : Proper file) (hs : Separate file)
    (h : loadELF clearMem clearBytes file kernel s = .ok (entry, s')) (hroom : Roomy s'.boot) :
    RightImage file s' ↔ ∀ p ∈ segments file, Unshifted p file := by
  have hbyte := loadELF_byteAt hc hb r ha hp hs h hroom
  constructor
  case mp =>
    intro himage p hmem i hi
    exact Option.some.inj ((hbyte p hmem i hi).symm.trans (himage p hmem i hi))
  case mpr =>
    intro hshift p hmem i hi
    rw [hbyte p hmem i hi, hshift p hmem i hi]

end Bytes

section Example

-- Two bytes and a cleared one, at `0x400000` and the bytes behind it, and two bytes at `0x402000`.
def twoSegments (low : BitVec 8) : Memory
  | 0   => 0x7F
  | 1   => 0x45
  | 2   => 0x4C
  | 3   => 0x46
  | 4   => 2
  | 32  => 64  -- `phoff`
  | 54  => 56  -- `phentsize`
  | 56  => 2   -- `phnum`
  | 64  => 1   -- `type`
  | 68  => 5   -- `flags`
  | 72  => 176 -- `offset`
  | 80  => low -- `vaddr`
  | 82  => 0x40
  | 96  => 2   -- `filesz`
  | 104 => 3   -- `memsz`
  | 120 => 1   -- `type`
  | 124 => 6   -- `flags`
  | 128 => 178 -- `offset`
  | 137 => 0x20
  | 138 => 0x40
  | 152 => 2   -- `filesz`
  | 160 => 2   -- `memsz`
  | 176 => 1
  | 177 => 2
  | 178 => 3
  | 179 => 4
  | _   => 0

def firstSegment (vaddr : Word) : Elf64ProgramHeader where
  type   := ptLoad
  flags  := 5
  offset := 176
  vaddr  := vaddr
  filesz := 2
  memsz  := 3

def secondSegment : Elf64ProgramHeader where
  type   := ptLoad
  flags  := 6
  offset := 178
  vaddr  := 0x402000
  filesz := 2
  memsz  := 2

theorem segments_twoSegments {low : BitVec 8} (h : low = 0 ∨ low = 1) :
    segments (twoSegments low) = [firstSegment (0x400000#64 + low.setWidth 64), secondSegment] := by
  rcases h with rfl | rfl <;> decide

theorem twoSegments_accepted (low : BitVec 8) : Accepted (twoSegments low) :=
  ⟨rfl, rfl⟩

theorem twoSegments_proper {low : BitVec 8} (h : low = 0 ∨ low = 1) : Proper (twoSegments low) := by
  constructor <;> rw [segments_twoSegments h]
  case filesz => exact List.forall_mem_cons.mpr ⟨Nat.le_succ 2, List.forall_mem_singleton.mpr le_rfl⟩
  case disjoint =>
    rw [List.pairwise_pair]
    rcases h with rfl | rfl <;> decide

theorem twoSegments_separate {low : BitVec 8} (h : low = 0 ∨ low = 1) : Separate (twoSegments low) := by
  refine ⟨.inl rfl, ?fits, ?spares⟩ <;> rw [segments_twoSegments h]
  case fits =>
    refine List.forall_mem_cons.mpr ⟨?_, List.forall_mem_singleton.mpr ⟨by decide, by decide⟩⟩
    rcases h with rfl | rfl <;> exact ⟨by decide, by decide⟩
  case spares =>
    rw [List.pairwise_pair, Spares]
    rcases h with rfl | rfl <;> decide

-- The pool has a block for the books, one for the tables and one for each segment.
def fourBlocks : Boot :=
  .start (fun _ _ => 0) (fun _ => zeroEntry) [0x100000, 0x900000, 0x2000000, 0x3000000]

def loaderOf (boot : Boot) : Loader where
  boot     := boot
  mem _    := 0xFF
  pos      := 0
  sections := []

-- The states after `initMem` and after `loadELF`.
structure FirstLoad (file : Memory) (boot : Boot) (s' : Loader) : Prop where
  init  : initMem clearRange [] fourBlocks = .ok boot
  load  : loadELF clearRange clearBytesRange file true (loaderOf boot) = .ok (0, s')
  start : boot.blocks = [⟨0x900000, 0x401000, .tables⟩, ⟨0x100000, 1920, .allocMap⟩]
  final : s'.boot.blocks = ⟨0x3000000, 0x1002, .recorded⟩ :: ⟨0x2000000, 0x1003, .recorded⟩ :: boot.blocks

theorem exists_run {low : BitVec 8} (h : low = 0 ∨ low = 1) : ∃ boot s', FirstLoad (twoSegments low) boot s' := by
  rcases h with rfl | rfl
  · exact ⟨_, _, rfl, rfl, rfl, rfl⟩
  · exact ⟨_, _, rfl, rfl, rfl, rfl⟩

theorem FirstLoad.roomy {boot : Boot} (r : FirstLoad file boot s') : Roomy boot ∧ Roomy s'.boot := by
  have hs := r.start
  have hf := r.final
  rw [hs] at hf
  constructor
  · rw [Roomy, hs]
    exact ⟨by decide, by decide, by decide⟩
  · rw [Roomy, hf]
    exact ⟨by decide, by decide, by decide⟩

theorem FirstLoad.represents {boot : Boot} (r : FirstLoad file boot s') : Represents boot.onlyTables (lastCall (idCalls [])) :=
  initMem_represents clearRange_clears r.init r.roomy.left

-- Both segments begin at the start of a page.
theorem loadELF_image_aligned : ∃ boot s', FirstLoad (twoSegments 0) boot s' ∧ RightImage (twoSegments 0) s' := by
  have hz : (0 : BitVec 8) = 0 ∨ (0 : BitVec 8) = 1 := .inl rfl
  obtain ⟨boot, s', r⟩ := exists_run hz
  refine ⟨boot, s', r, ?_⟩
  refine (loadELF_image_iff clearRange_clears clearBytesRange_clears r.represents (twoSegments_accepted 0)
    (twoSegments_proper hz) (twoSegments_separate hz) r.load r.roomy.right).mpr fun p hp => ?_
  rw [segments_twoSegments hz, List.mem_pair] at hp
  rcases hp with rfl | rfl
  · exact unshifted_of_aligned (by decide)
  · exact unshifted_of_aligned (by decide)

-- One byte further on, the first byte of the first segment is found as the second one of the file.
theorem loadELF_image_unaligned : ∃ boot s', FirstLoad (twoSegments 1) boot s' ∧ Accepted (twoSegments 1) ∧
    Proper (twoSegments 1) ∧ Roomy s'.boot ∧ ¬RightImage (twoSegments 1) s' := by
  have ho : (1 : BitVec 8) = 0 ∨ (1 : BitVec 8) = 1 := .inr rfl
  obtain ⟨boot, s', r⟩ := exists_run ho
  refine ⟨boot, s', r, twoSegments_accepted 1, twoSegments_proper ho, r.roomy.right, fun himage => ?_⟩
  have hbyte := loadELF_byteAt clearRange_clears clearBytesRange_clears r.represents (twoSegments_accepted 1)
    (twoSegments_proper ho) (twoSegments_separate ho) r.load r.roomy.right
  have hmem : firstSegment 0x400001 ∈ segments (twoSegments 1) := by
    rw [segments_twoSegments ho]
    exact .head _
  have h₁ := hbyte _ hmem 0 (by decide)
  have h₂ := himage _ hmem 0 (by decide)
  exact absurd (h₁.symm.trans h₂) (by decide)

end Example

end RoverOS.Bootloader
