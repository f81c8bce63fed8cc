import RoverOS.Vfs.Path
import RoverOS.Vfs.Theorems.Lookup

-- Whether `parsePath` stays inside of the string: behind a last name that leads to a mount it does not.

namespace RoverOS.Vfs

open Kmalloc

-- What the structures are, when `gives` says what the lookups in a table can lead to: the root leads
-- to mounts and files, and the mounts to files.
structure Tree (gives : Hashtable → Word → Prop) (s : Vfs) : Prop where
  mounts {p : Ptr} {m : VfsMountpoint} : s.mounts p = some m →
    m.header.type = vfsTypeMount ∧ s.files p = none
  files {p : Ptr} {f : VfsFile} : s.files p = some f → f.header.type = vfsTypeFile ∧ s.mounts p = none
  root {d : Word} : gives s.children d → s.mounts d.toNat ≠ none ∨ s.files d.toNat ≠ none
  tables {p : Ptr} {m : VfsMountpoint} {d : Word} : s.mounts p = some m → gives m.table d →
    s.files d.toNat ≠ none

-- The data of a table.
def HasData (table : Hashtable) (d : Word) : Prop :=
  ∃ i, d ∈ (table.buckets i).datas

-- No entry of a table has ever been removed.
structure AllUsed (s : Vfs) : Prop where
  root   : ∀ i, (s.children.buckets i).Used
  mounts : ∀ {p m}, s.mounts p = some m → ∀ i, (m.table.buckets i).Used

-- The first NUL.
structure NulAt (str : Bytes) (nul : Nat) : Prop where
  stop   : str nul = 0#8
  before : ∀ i < nul, str i ≠ 0#8

-- The call returns, and no byte behind the NUL is read.
def ReadsInside (path : Nat → Ptr) (s : Vfs) (nul : Nat) : Prop :=
  ∃ fuel r, parsePathWith (readUpTo (s.heap.mem (path 0)) nul) Hashtable.hashtableFetch fuel path s = .ok r

-- The path is not empty, and when it has no `/` behind its first character, it does not lead to a
-- mount. One of 4 GB or more has a `/` where the index gets to.
structure EndsInside (path : Nat → Ptr) (s : Vfs) (nul : Nat) : Prop where
  nonempty : nul + 1 < 2 ^ 32 → 1 ≤ nul
  notMount : nul + 1 < 2 ^ 32 → (∀ i < nul, 1 ≤ i → s.heap.mem (path 0) i ≠ slash) →
    ∀ d, Hashtable.hashtableFetch s.children (path 1) (nul - 1) s.heap = .ok (some d) →
      d = 0 ∨ s.mounts d.toNat = none
  longer   : 2 ^ 32 ≤ nul → ∃ i < 2 ^ 32, s.heap.mem (path 0) i = slash

variable {gives : Hashtable → Word → Prop} {fetch : Fetch} {read : Read} {fuel rounds base n nul i : Nat}
variable {path : Nat → Ptr} {s : Vfs} {str : Bytes} {d : Word} {m : VfsMountpoint} {p : Ptr} {mnt : Option Ptr}

section Tree

theorem Tree.headerType_mount (ht : Tree gives s) (hm : s.mounts p = some m) :
    s.headerType p = .ok vfsTypeMount := by
  simp [headerType, hm, (ht.mounts hm).left]

theorem Tree.headerType_file (ht : Tree gives s) (hf : s.files p ≠ none) : s.headerType p = .ok vfsTypeFile := by
  obtain ⟨f, hf⟩ := Option.ne_none_iff_exists'.mp hf
  simp [headerType, hf, (ht.files hf).left, (ht.files hf).right]

theorem Tree.root_file (ht : Tree gives s) (hg : gives s.children d) (hm : s.mounts d.toNat = none) :
    s.files d.toNat ≠ none :=
  (ht.root hg).resolve_left fun h => h hm

end Tree

section Steps

variable {table : Hashtable} {slen : Nat} {r : Option Word}

-- The name on root.
theorem parsePathWith_none (hl : pathNameLengthWith read fuel 1 = .ok n)
    (hk : fetch s.children (path 1) n s.heap = .ok none) :
    parsePathWith read fetch fuel path s = .ok (none, none) := by
  simp only [parsePathWith, hl, hk, bind, Except.bind]
  rfl

theorem parsePathWith_null (hl : pathNameLengthWith read fuel 1 = .ok n)
    (hk : fetch s.children (path 1) n s.heap = .ok (some 0)) :
    parsePathWith read fetch fuel path s = .ok (none, none) := by
  simp only [parsePathWith, hl, hk, bind, Except.bind]
  rfl

theorem Tree.parsePathWith_file (ht : Tree gives s) (hl : pathNameLengthWith read fuel 1 = .ok n)
    (hk : fetch s.children (path 1) n s.heap = .ok (some d)) (hd : d ≠ 0) (hf : s.files d.toNat ≠ none) :
    parsePathWith read fetch fuel path s = .ok (some d.toNat, none) := by
  simp only [parsePathWith, hl, hk, bind, Except.bind, if_neg hd, ht.headerType_file hf]
  rfl

-- From a mount on root the loop goes on.
theorem Tree.parsePathWith_mount (ht : Tree gives s) (hl : pathNameLengthWith read fuel 1 = .ok n)
    (hk : fetch s.children (path 1) n s.heap = .ok (some d)) (hd : d ≠ 0) (hm : s.mounts d.toNat = some m) :
    parsePathWith read fetch fuel path s =
      parseFromWith read fetch fuel path s fuel d.toNat none (u32 (1 + (n + 1))) := by
  have hne : vfsTypeMount ≠ vfsTypeFile := by decide
  simp only [parsePathWith, hl, hk, bind, Except.bind, if_neg hd, ht.headerType_mount hm, if_neg hne]

theorem parseFromWith_end (hl : pathNameLengthWith read fuel base = .ok 0) :
    parseFromWith read fetch fuel path s (rounds + 1) p mnt base = .ok (some p, mnt) := by
  simp only [parseFromWith, hl, bind, Except.bind]
  rfl

theorem Tree.parseFromWith_none (ht : Tree gives s) (hl : pathNameLengthWith read fuel base = .ok n)
    (hn : n ≠ 0) (hm : s.mounts p = some m) (hk : fetch m.table (path base) n s.heap = .ok none) :
    parseFromWith read fetch fuel path s (rounds + 1) p mnt base = .ok (none, some p) := by
  simp only [parseFromWith, hl, hk, bind, Except.bind, if_neg hn, ht.headerType_mount hm, hm, ne_eq, not_true, if_false]
  rfl

theorem Tree.parseFromWith_file (ht : Tree gives s) (hl : pathNameLengthWith read fuel base = .ok n)
    (hn : n ≠ 0) (hm : s.mounts p = some m) (hk : fetch m.table (path base) n s.heap = .ok (some d))
    (hg : gives m.table d) :
    parseFromWith read fetch fuel path s (rounds + 1) p mnt base = .ok (some d.toNat, some p) := by
  simp only [parseFromWith, hl, hk, bind, Except.bind, if_neg hn, ht.headerType_mount hm, hm, ne_eq, not_true, if_false,
    ht.headerType_file (ht.tables hm hg)]
  rfl

end Steps

section Inside

theorem readUpTo_ok (hi : i ≤ nul) : readUpTo str nul i = .ok (str i) :=
  if_pos hi

theorem le_of_readUpTo {c : BitVec 8} (h : readUpTo str nul i = .ok c) : i ≤ nul ∧ c = str i := by
  rw [readUpTo] at h
  split at h
  case isTrue hi => exact ⟨hi, (Except.ok.inj h).symm⟩
  case isFalse   => cases h

-- From an index inside of the string, a name ends inside.
theorem NulAt.exists_first (hn : NulAt str nul) (hb : base < 2 ^ 32) (hle : base ≤ nul)
    (hs : 2 ^ 32 ≤ nul → ∃ i < 2 ^ 32, str i = slash) :
    ∃ n, First (readUpTo str nul) base n ∧ (nul < 2 ^ 32 → base + n ≤ nul) := by
  by_cases hlt : nul < 2 ^ 32
  case pos =>
    have hu {j : Nat} (hj : j ≤ nul - base) : u32 (base + j) = base + j := u32_of_lt (by omega)
    have hread : ∀ j ≤ nul - base, ∃ c, readUpTo str nul (u32 (base + j)) = .ok c := fun j hj =>
      ⟨_, readUpTo_ok (by rw [hu hj]; omega)⟩
    have hstop : ∃ c, readUpTo str nul (u32 (base + (nul - base))) = .ok c ∧ Stops c := by
      rw [hu (Nat.le_refl _), Nat.add_sub_cancel' hle]
      exact ⟨_, readUpTo_ok (Nat.le_refl nul), .inl hn.stop⟩
    obtain ⟨n, hle', f⟩ := Vfs.exists_first (by omega) hread hstop
    exact ⟨n, f, fun _ => by omega⟩
  case neg =>
    obtain ⟨i, hi, his⟩ := hs (by omega)
    have hin (j : Nat) : u32 j ≤ nul := by
      have := u32_lt j
      omega
    have hu : u32 (base + (i + (2 ^ 32 - base)) % 2 ^ 32) = i := by
      unfold u32
      omega
    have hread : ∀ j ≤ (i + (2 ^ 32 - base)) % 2 ^ 32, ∃ c, readUpTo str nul (u32 (base + j)) = .ok c := fun j _ =>
      ⟨_, readUpTo_ok (hin _)⟩
    obtain ⟨n, -, f⟩ := Vfs.exists_first (Nat.mod_lt _ (by decide)) hread
      ⟨str i, by rw [hu]; exact readUpTo_ok (by omega), .inr his⟩
    exact ⟨n, f, fun h => absurd h hlt⟩

theorem EndsInside.reads (ht : Tree HasData s) (hu : AllUsed s) (hn : NulAt (s.heap.mem (path 0)) nul)
    (he : EndsInside path s nul) : ReadsInside path s nul := by
  have hfuel {n : Nat} (hn : n < 2 ^ 32) : n < 2 ^ 32 + 1 := by omega
  have h1 : 1 ≤ nul := by
    by_cases hlt : nul + 1 < 2 ^ 32
    case pos => exact he.nonempty hlt
    case neg => omega
  obtain ⟨n, f, hle⟩ := hn.exists_first (by decide : 1 < 2 ^ 32) h1 he.longer
  have hl := f.length (by decide) (hfuel f.small)
  obtain ⟨r, hk⟩ := Hashtable.fetch_returns (h := s.heap) f.small hu.root
  refine ⟨2 ^ 32 + 1, ?_⟩
  cases r
  case none => exact ⟨_, parsePathWith_none hl hk⟩
  case some d =>
    by_cases hd : d = 0
    case pos => exact ⟨_, parsePathWith_null hl (hd ▸ hk)⟩
    case neg =>
      have hdata : HasData s.children d := ⟨_, (Hashtable.fetch_datas hk).left⟩
      cases hm : s.mounts d.toNat
      case none => exact ⟨_, ht.parsePathWith_file hl hk hd (ht.root_file hdata hm)⟩
      case some m =>
        rw [ht.parsePathWith_mount hl hk hd hm]
        -- A `/` is left, as the path does not end at a mount.
        have hbase : u32 (1 + (n + 1)) ≤ nul := by
          by_cases hlt : nul + 1 < 2 ^ 32
          case neg =>
            have := u32_lt (1 + (n + 1))
            omega
          case pos =>
            have hle := hle (by omega)
            have hne : 1 + n ≠ nul := by
              rintro rfl
              have hns : ∀ i < 1 + n, 1 ≤ i → s.heap.mem (path 0) i ≠ slash := by
                intro i hi h1
                obtain ⟨c, hc, hs⟩ := f.before (i - 1) (by omega)
                rw [Nat.add_sub_cancel' h1, u32_of_lt (by omega)] at hc
                obtain ⟨-, rfl⟩ := le_of_readUpTo hc
                exact fun h => hs (.inr h)
              rw [← Nat.add_sub_cancel_left 1 n] at hk
              rcases he.notMount hlt hns d hk with h | h
              · exact hd h
              · rw [hm] at h
                cases h
            rw [u32_of_lt (by omega)]
            omega
        obtain ⟨n₂, f₂, -⟩ := hn.exists_first (u32_lt _) hbase he.longer
        have hl₂ := f₂.length (u32_lt _) (hfuel f₂.small)
        by_cases h0 : n₂ = 0
        case pos => exact ⟨_, parseFromWith_end (h0 ▸ hl₂)⟩
        case neg =>
          obtain ⟨r, hk₂⟩ := Hashtable.fetch_returns (h := s.heap) f₂.small (hu.mounts hm)
          cases r
          case none => exact ⟨_, ht.parseFromWith_none hl₂ h0 hm hk₂⟩
          case some e =>
            exact ⟨_, ht.parseFromWith_file hl₂ h0 hm hk₂ ⟨_, (Hashtable.fetch_datas hk₂).left⟩⟩

theorem ReadsInside.ends (ht : Tree HasData s) (hn : NulAt (s.heap.mem (path 0)) nul)
    (hr : ReadsInside path s nul) : EndsInside path s nul := by
  obtain ⟨fuel, r, h⟩ := hr
  obtain ⟨n, hl, -⟩ := Except.bind_ok_iff.mp h
  have f := first_of_length (by decide) hl
  have hread {j : Nat} (hj : j ≤ n) : u32 (1 + j) ≤ nul := by
    obtain ⟨c, hc⟩ := f.reads hj
    exact (le_of_readUpTo hc).left
  obtain ⟨c, hc, hstop⟩ := f.stop
  obtain ⟨hle, rfl⟩ := le_of_readUpTo hc
  have h1 : 1 ≤ nul := hread (Nat.zero_le n)
  constructor
  case nonempty => exact fun _ => h1
  case notMount =>
    intro hlt hns d hk
    -- The name goes up to the NUL.
    have hnul : n = nul - 1 := by
      have hlen : n < nul := by
        by_contra hge
        have := hread (Nat.le_of_not_lt hge)
        rw [u32_of_lt (by omega)] at this
        omega
      rw [u32_of_lt (by omega)] at hle hstop
      by_contra hne
      rcases hstop with h0 | hs
      · exact hn.before (1 + n) (by omega) h0
      · exact hns (1 + n) (by omega) (by omega) hs
    subst hnul
    by_contra hnot
    obtain ⟨hd, hm⟩ := not_or.mp hnot
    obtain ⟨m, hm⟩ := Option.ne_none_iff_exists'.mp hm
    rw [ht.parsePathWith_mount hl hk hd hm] at h
    cases fuel
    case zero => cases h
    case succ fuel =>
      obtain ⟨n₂, hl₂, -⟩ := Except.bind_ok_iff.mp h
      obtain ⟨c, hc⟩ := (first_of_length (u32_lt _) hl₂).reads (Nat.zero_le n₂)
      have hout := (le_of_readUpTo hc).left
      rw [Nat.add_zero, u32_u32, Nat.sub_add_cancel h1, u32_of_lt (by omega)] at hout
      omega
  case longer =>
    intro hge
    have hlt := u32_lt (1 + n)
    exact ⟨_, hlt, hstop.resolve_left (hn.before _ (by omega))⟩

-- `parsePath` returns without having read behind the NUL, exactly for these paths.
theorem parsePath_inside_iff (ht : Tree HasData s) (hu : AllUsed s) (hn : NulAt (s.heap.mem (path 0)) nul) :
    ReadsInside path s nul ↔ EndsInside path s nul :=
  ⟨fun hr => hr.ends ht hn, fun he => he.reads ht hu hn⟩

end Inside

section Example

-- `R` is mounted at 7, and the path is the text from 2 on.
def mountOnly (text : List (BitVec 8)) : Vfs where
  heap     := { mem := fun p i => text.getD (p - 2 + i) 0, blocks := fun _ => none, free := fun _ => 0, next := 100,
                lock := false }
  children := { bucketCount := 1, buckets := fun _ => { head := ⟨some 3, 1, 0, 7⟩, chain := [] } }
  mounts p := if p = 7 then some {
    header     := { type := vfsTypeMount, flags := 0, length := sizeofMountpoint }
    type       := 0
    childCount := 0
    table      := { bucketCount := 1, buckets := fun _ => { head := ⟨none, 0, 0, 0⟩, chain := [] } }
    letter     := 0x52
    references := 0
    mfread     := 0 } else none
  files _  := none
  handles  := []

variable {text : List (BitVec 8)}

theorem tree_mountOnly : Tree HasData (mountOnly text) where
  mounts hm := by
    simp only [mountOnly, Option.ite_none_right_eq_some, Option.some.injEq] at hm
    obtain ⟨-, rfl⟩ := hm
    exact ⟨rfl, rfl⟩
  files hf := nomatch hf
  root hd := by
    obtain ⟨_, hd⟩ := hd
    cases List.mem_singleton.mp hd
    exact .inl (Option.some_ne_none _)
  tables hm hd := by
    simp only [mountOnly, Option.ite_none_right_eq_some, Option.some.injEq] at hm
    obtain ⟨-, rfl⟩ := hm
    obtain ⟨_, hd⟩ := hd
    exact absurd hd List.not_mem_nil

theorem allUsed_mountOnly : AllUsed (mountOnly text) where
  root _ _ hn := absurd hn List.not_mem_nil
  mounts hm _ _ hn := by
    simp only [mountOnly, Option.ite_none_right_eq_some, Option.some.injEq] at hm
    obtain ⟨-, rfl⟩ := hm
    exact absurd hn List.not_mem_nil

theorem parsePath_inside_slash : ReadsInside (2 + ·) (mountOnly [0x2F, 0x52, 0x2F]) 3 := by
  have hn : NulAt ((mountOnly [0x2F, 0x52, 0x2F]).heap.mem 2) 3 := ⟨by decide, by decide⟩
  refine (parsePath_inside_iff tree_mountOnly allUsed_mountOnly hn).mpr ⟨fun _ => by decide, fun _ hns => ?_, nofun⟩
  exact absurd rfl (hns 2 (by decide) (by decide))

-- Without the `/` at the end, the byte behind the NUL is read.
theorem parsePath_reads_outside : ¬∀ (path : Nat → Ptr) (s : Vfs) (nul : Nat), Tree HasData s → AllUsed s →
    NulAt (s.heap.mem (path 0)) nul → ReadsInside path s nul := by
  intro h
  have hn : NulAt ((mountOnly [0x2F, 0x52]).heap.mem 2) 2 := ⟨by decide, by decide⟩
  have he := (h (2 + ·) _ 2 tree_mountOnly allUsed_mountOnly hn).ends tree_mountOnly hn
  have hns : ∀ i < 2, 1 ≤ i → (mountOnly [0x2F, 0x52]).heap.mem 2 i ≠ slash := by decide
  rcases he.notMount (by decide) hns 7 rfl with h0 | hm
  · exact absurd h0 (by decide)
  · cases hm

end Example

end RoverOS.Vfs
