import RoverOS.Library.Sweep
import RoverOS.Paging.Theorems.Levels
import RoverOS.Paging.Theorems.Pages

-- A range of pages that is mapped page by page. The offset of a page is computed in 32 bits, so that
-- the pages are mapped in turns of 4 GB.

open Sweep (Kept Loop Rule)

namespace RoverOS.Paging

def pageAt (base : Word) (i : Nat) : Word :=
  base + BitVec.ofNat 64 (i * 0x1000)

-- The ranges that a caller may ask for.
structure PageRange (phys virt : Word) (n : Nat) : Prop where
  pos         : 1 ≤ n
  lt          : n < 2 ^ 32
  physAligned : isUnaligned phys = 0#64
  virtAligned : isUnaligned virt = 0#64
  physEnd     : phys.toNat + n * 0x1000 ≤ 2 ^ 64
  virtEnd     : virt.toNat + n * 0x1000 ≤ 2 ^ 64

-- The entries of a space's lowest tables.
abbrev Leaves := Word → Option Word

-- A present page at the address `phys`.
def Mapped (leaves : Leaves) (virt phys : Word) : Prop :=
  ∃ e, leaves virt = some e ∧ Has e pgPresent ∧ tableBase e = phys

-- Each page is mapped to its place in the range, and the entry of no other page is touched, unless it
-- is one of a new table.
structure Linear (old new : Leaves) (phys virt : Word) (n : Nat) : Prop where
  mapped : ∀ i < n, Mapped new (pageAt virt i) (pageAt phys i)
  other  : ∀ w, (∀ i < n, ¬SamePage w (pageAt virt i)) → Kept (tableBase · = 0#64) (old w) (new w)

-- What the loop over the pages comes to, with `wanted` for the pages that are not left out. From 4 GB on
-- the pages are none of those that are written to.
structure Swept (flags : Word) (wanted : Word → Prop) (phys virt : Word) (n : Nat) (old new : Leaves) : Prop where
  written : ∀ i < n, i < 2 ^ 20 → wanted (pageAt virt i) →
    new (pageAt virt i) = some (flags ||| pageAt phys i)
  kept    : ∀ w, (∀ i < n, i < 2 ^ 20 → ¬SamePage w (pageAt virt i)) → Kept (tableBase · = 0#64) (old w) (new w)

variable {base flags phys virt w e p : Word} {i j n : Nat} {old new : Leaves} {wanted : Word → Prop}

section Words

theorem add_offset : base + BitVec.ofNat 64 (u32 (i * 0x1000)) = pageAt base (i % 2 ^ 20) := by
  have h : u32 (i * 0x1000) = i % 2 ^ 20 * 0x1000 := by
    rw [u32]
    omega
  rw [h, pageAt]

theorem pageAt_toNat (h : base.toNat + n * 0x1000 ≤ 2 ^ 64) (hi : i < n) :
    (pageAt base i).toNat = base.toNat + i * 0x1000 := by
  have hlt : i * 0x1000 + 0x1000 ≤ n * 0x1000 := by omega
  rw [pageAt, BitVec.toNat_add, BitVec.toNat_ofNat]
  omega

theorem isUnaligned_pageAt (h : isUnaligned base = 0#64) : isUnaligned (pageAt base i) = 0#64 := by
  rw [isUnaligned_eq_zero_iff] at h ⊢
  rw [pageAt, BitVec.toNat_add, BitVec.toNat_ofNat]
  omega

theorem tableBase_pageAt (ha : isUnaligned phys = 0#64) (hb : phys.toNat + n * 0x1000 ≤ 2 ^ 52) (hi : i < n) :
    tableBase (pageAt phys i) = pageAt phys i := by
  have hlt : i * 0x1000 + 0x1000 ≤ n * 0x1000 := by omega
  apply tableBase_of_aligned (isUnaligned_pageAt ha)
  rw [pageAt_toNat (n := n) (by omega) hi]
  omega

theorem PageRange.samePage (r : PageRange phys virt n) (hi : i < n) (hj : j < n)
    (hs : SamePage (pageAt virt i) (pageAt virt j)) : i = j := by
  have hlt := r.lt
  rw [samePage_iff_page, pageAt_toNat r.virtEnd hi, pageAt_toNat r.virtEnd hj] at hs
  omega

end Words

section Loop

variable {S : Type} {turn : Word → Word → S → S → Prop} {I : S → Prop} {leaves : S → Leaves} {pages : Word → Prop}
variable {s s' : S}

-- What one turn of the loop does, which maps the page `virt` to `phys` or leaves it out.
structure PageRule (turn : Word → Word → S → S → Prop) (I : S → Prop) (leaves : S → Leaves) (flags : Word)
    (pages wanted : Word → Prop) : Prop where
  inv   : ∀ {phys virt s s'}, pages virt → I s → turn phys virt s s' → I s'
  kept  : ∀ {phys virt s s' w}, pages virt → I s → turn phys virt s s' → ¬SamePage w virt →
    Kept (tableBase · = 0#64) (leaves s w) (leaves s' w)
  write : ∀ {phys virt s s'}, pages virt → I s → isUnaligned phys = 0#64 → turn phys virt s s' → wanted virt →
    leaves s' virt = some (flags ||| phys)
  skip  : ∀ {phys virt s s'}, pages virt → I s → turn phys virt s s' → ¬wanted virt → s' = s

theorem PageRule.rule (p : PageRule turn I leaves flags pages wanted) (r : PageRange phys virt n)
    (hp : ∀ i < n, i < 2 ^ 20 → pages (pageAt virt i)) :
    Rule (fun i => turn (pageAt phys (i % 2 ^ 20)) (pageAt virt (i % 2 ^ 20))) I (tableBase · = 0#64) leaves
      SamePage (fun i => pageAt virt (i % 2 ^ 20)) (fun i => flags ||| pageAt phys (i % 2 ^ 20)) (· < n)
      (fun i => wanted (pageAt virt (i % 2 ^ 20))) := by
  have hmod {i : Nat} (hi : i < n) : i % 2 ^ 20 < n := lt_of_le_of_lt (Nat.mod_le i _) hi
  have hpages {i : Nat} (hi : i < n) : pages (pageAt virt (i % 2 ^ 20)) :=
    hp _ (hmod hi) (Nat.mod_lt i (by decide))
  constructor
  case inv   => exact fun hi hI h => p.inv (hpages hi) hI h
  case kept  => exact fun hi hI h hne => p.kept (hpages hi) hI h hne
  case write => exact fun hi hI h hw => p.write (hpages hi) hI (isUnaligned_pageAt r.physAligned) h hw
  case skip  => exact fun hi hI h hw => p.skip (hpages hi) hI h hw
  case agree =>
    intro i j hi hj hs
    rw [r.samePage (hmod hi) (hmod hj) hs]
    exact ⟨rfl, rfl⟩

theorem PageRule.swept (p : PageRule turn I leaves flags pages wanted) (r : PageRange phys virt n)
    (hp : ∀ i < n, i < 2 ^ 20 → pages (pageAt virt i)) (hI : I s)
    (l : Loop (fun i => turn (pageAt phys (i % 2 ^ 20)) (pageAt virt (i % 2 ^ 20))) 0 n s s') :
    I s' ∧ Swept flags wanted phys virt n (leaves s) (leaves s') := by
  have rule := p.rule r hp
  have hn : ∀ i, 0 ≤ i → i < 0 + n → i < n := fun i _ hi => by omega
  refine ⟨l.inv rule hn hI, fun i hi hlt hw => ?written, fun w hk => ?kept⟩
  case written =>
    have he : i % 2 ^ 20 = i := Nat.mod_eq_of_lt hlt
    have hl := l.written rule hn hI (Nat.zero_le i) (by omega) (by rwa [he])
    simpa only [he] using hl
  case kept =>
    exact l.kept rule hn hI fun i _ hi _ => hk _ (lt_of_le_of_lt (Nat.mod_le i _) (by omega)) (Nat.mod_lt i (by decide))

end Loop

section Linear

theorem Mapped.toNat_lt (hm : Mapped new w phys) : phys.toNat < 2 ^ 52 := by
  obtain ⟨e, -, -, rfl⟩ := hm
  exact tableBase_toNat_lt

theorem mapped_iff (h : new w = some (flags ||| phys)) (hf : Has flags pgPresent) :
    Mapped new w phys ↔ tableBase (flags ||| phys) = phys := by
  constructor
  case mp =>
    rintro ⟨e, he, -, hb⟩
    rw [h] at he
    cases he
    exact hb
  case mpr => exact fun hb => ⟨_, h, has_or.mpr (.inl hf), hb⟩

-- A page that is not written to is mapped only if it was before.
theorem Swept.mapped_of_kept (hs : Swept flags wanted phys virt n old new)
    (hw : ∀ i < n, i < 2 ^ 20 → ¬SamePage w (pageAt virt i)) (hp : p ≠ 0#64) : Mapped new w p ↔ Mapped old w p := by
  have hk := hs.kept w hw
  constructor
  case mp =>
    rintro ⟨e, he, hpresent, hb⟩
    rw [he] at hk
    exact ⟨e, hk.some_of (hb ▸ hp), hpresent, hb⟩
  case mpr =>
    rintro ⟨e, he, hpresent, hb⟩
    rw [he] at hk
    exact ⟨e, hk.of_some, hpresent, hb⟩

-- The pages that are 4 GB into the range, or more, are such pages.
theorem Swept.beyond (hs : Swept flags wanted phys virt n old new) (r : PageRange phys virt n) (hi : i < n)
    (hl : 2 ^ 20 ≤ i) : Mapped new (pageAt virt i) (pageAt phys i) ↔ Mapped old (pageAt virt i) (pageAt phys i) := by
  refine hs.mapped_of_kept (fun j hj hlt hs => ?same) fun hz => ?zero
  case same =>
    have := r.samePage hi hj hs
    omega
  case zero =>
    have h := congrArg BitVec.toNat hz
    rw [pageAt_toNat r.physEnd hi] at h
    simp at h
    omega

-- The loop is linear if no page is left out, each frame survives in its entry, and the pages that it does
-- not get to are mapped already.
theorem Swept.linear_iff (hs : Swept flags wanted phys virt n old new) (r : PageRange phys virt n)
    (hf : Has flags pgPresent) (hnone : ∀ i < n, i < 2 ^ 20 → ¬wanted (pageAt virt i) → new (pageAt virt i) = none) :
    Linear old new phys virt n ↔ phys.toNat + n * 0x1000 ≤ 2 ^ 52 ∧
      (∀ i < n, i < 2 ^ 20 → wanted (pageAt virt i) ∧ tableBase (flags ||| pageAt phys i) = pageAt phys i) ∧
      ∀ i < n, 2 ^ 20 ≤ i → Mapped old (pageAt virt i) (pageAt phys i) := by
  constructor
  case mp =>
    intro l
    refine ⟨?below, fun i hi hlt => ?page, fun i hi hl => (hs.beyond r hi hl).mp (l.mapped i hi)⟩
    case below =>
      have hpos := r.pos
      have hlt := (l.mapped (n - 1) (by omega)).toNat_lt
      have hmod := isUnaligned_eq_zero_iff.mp r.physAligned
      rw [pageAt_toNat r.physEnd (by omega)] at hlt
      omega
    case page =>
      have hw : wanted (pageAt virt i) := by
        by_contra hw
        obtain ⟨e, he, -⟩ := l.mapped i hi
        rw [hnone i hi hlt hw] at he
        cases he
      exact ⟨hw, (mapped_iff (hs.written i hi hlt hw) hf).mp (l.mapped i hi)⟩
  case mpr =>
    rintro ⟨-, hpage, hbeyond⟩
    refine ⟨fun i hi => ?mapped, fun w hw => hs.kept w fun i hi _ => hw i hi⟩
    case mapped =>
      by_cases hlt : i < 2 ^ 20
      case pos => exact (mapped_iff (hs.written i hi hlt (hpage i hi hlt).left) hf).mpr (hpage i hi hlt).right
      case neg => exact (hs.beyond r hi (by omega)).mpr (hbeyond i hi (by omega))

end Linear

section Bytes

-- The address is mapped, and translates to `phys`.
def Translates (leaves : Leaves) (virt phys : Word) : Prop :=
  ∃ e, leaves virt = some e ∧ Has e pgPresent ∧ tableBase e + (virt &&& 0xFFF) = phys

def MapsBytes (leaves : Leaves) (phys virt : Word) (bytes : Nat) : Prop :=
  ∀ i < bytes, Translates leaves (virt + BitVec.ofNat 64 i) (phys + BitVec.ofNat 64 i)

variable {leaves : Leaves} {bytes k : Nat}

theorem and_offset_toNat : (base &&& 0xFFF).toNat = base.toNat % 0x1000 := by
  have h : (0xFFF : Word).toNat = 2 ^ 12 - 1 := rfl
  rw [BitVec.toNat_and, h, Nat.and_two_pow_sub_one_eq_mod]

theorem samePage_pageAt (hv : isUnaligned virt = 0#64) :
    SamePage (virt + BitVec.ofNat 64 i) (pageAt virt (i / 0x1000)) := by
  have hm := isUnaligned_eq_zero_iff.mp hv
  rw [samePage_iff_page, pageAt, BitVec.toNat_add, BitVec.toNat_add, BitVec.toNat_ofNat, BitVec.toNat_ofNat]
  omega

theorem add_eq_pageAt : base + BitVec.ofNat 64 i = pageAt base (i / 0x1000) + BitVec.ofNat 64 (i % 0x1000) := by
  rw [pageAt, BitVec.add_assoc, ← BitVec.ofNat_add, Nat.div_add_mod']

theorem and_offset (hv : isUnaligned virt = 0#64) : (virt + BitVec.ofNat 64 i) &&& 0xFFF = BitVec.ofNat 64 (i % 0x1000) := by
  have hm := isUnaligned_eq_zero_iff.mp hv
  apply BitVec.eq_of_toNat_eq
  rw [and_offset_toNat, BitVec.toNat_add, BitVec.toNat_ofNat, BitVec.toNat_ofNat]
  omega

-- The bytes are mapped if the pages are.
theorem mapsBytes_iff (hl : ∀ {v w}, SamePage v w → leaves v = leaves w) (hv : isUnaligned virt = 0#64)
    (hb : 1 ≤ bytes) : MapsBytes leaves phys virt bytes ↔
      isUnaligned phys = 0#64 ∧ ∀ k, k * 0x1000 < bytes → Mapped leaves (pageAt virt k) (pageAt phys k) := by
  have hpage (i : Nat) : Translates leaves (virt + BitVec.ofNat 64 i) (phys + BitVec.ofNat 64 i) ↔
      Mapped leaves (pageAt virt (i / 0x1000)) (pageAt phys (i / 0x1000)) := by
    rw [Translates, Mapped, hl (samePage_pageAt hv), and_offset hv, add_eq_pageAt]
    simp only [BitVec.add_left_inj]
  constructor
  case mp =>
    intro h
    refine ⟨?aligned, fun k hk => ?mapped⟩
    case aligned =>
      obtain ⟨e, -, -, he⟩ := (hpage 0).mp (h 0 hb)
      have hz : pageAt phys (0 / 0x1000) = phys := BitVec.add_zero _
      rw [hz] at he
      rw [isUnaligned_eq_zero_iff, ← he]
      exact tableBase_toNat_mod
    case mapped =>
      have hm := (hpage (k * 0x1000)).mp (h _ hk)
      rwa [Nat.mul_div_cancel _ (by decide)] at hm
  case mpr =>
    rintro ⟨-, h⟩ i hi
    exact (hpage i).mpr (h _ (lt_of_le_of_lt (Nat.div_mul_le_self i 0x1000) hi))

-- A page cannot be mapped to two places, and 48 bits of an address select its page.
theorem bytes_le_of_mapped (hl : ∀ {v w}, SamePage v w → leaves v = leaves w)
    (h : ∀ k, k * 0x1000 < bytes → Mapped leaves (pageAt virt k) (pageAt phys k)) : bytes ≤ 2 ^ 48 := by
  by_contra hlt
  obtain ⟨e, he, -, hb⟩ := h 0 (by omega)
  obtain ⟨e', he', -, hb'⟩ := h (2 ^ 36) (by omega)
  have hs : SamePage (pageAt virt (2 ^ 36)) (pageAt virt 0) := by
    rw [samePage_iff_page, pageAt, pageAt, BitVec.toNat_add, BitVec.toNat_add, BitVec.toNat_ofNat, BitVec.toNat_ofNat]
    omega
  rw [hl hs, he] at he'
  cases he'
  have hp := hb.symm.trans hb'
  rw [pageAt, pageAt, BitVec.add_right_inj] at hp
  exact absurd hp (by decide)

end Bytes

end RoverOS.Paging
