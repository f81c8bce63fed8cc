import RoverOS.Vfs.Theorems.Cases

-- Where a lookup in a table, and the lookup of a path, can lead.

open Function (update update_self update_of_ne)
open Bytes (load)

namespace RoverOS.Hashtable

open Kmalloc

-- The data of a bucket, the head's first.
def Bucket.datas (bucket : Bucket) : List Word :=
  if bucket.head.hash = none then [] else bucket.head.data :: bucket.chain.map (·.2.data)

-- No node of a chain has ever been removed.
def Bucket.Used (bucket : Bucket) : Prop :=
  ∀ node ∈ bucket.chain, node.2.hash ≠ none

variable {memcpy : Memcpy} {table table' : Hashtable} {h h' : Kmalloc.Heap} {hash hash' : Ptr}
variable {bytes : Nat} {data : Word} {chain : List (Ptr × Hashbucket)} {key : Hashbucket}

theorem reuseNode_used (hu : ∀ node ∈ chain, node.2.hash ≠ none) : reuseNode key chain = none := by
  induction chain
  case nil => rfl
  case cons n chain hi =>
    obtain ⟨hn, hu⟩ := List.forall_mem_cons.mp hu
    cases chain
    case nil => rfl
    case cons next chain => rw [reuseNode, if_neg hn, hi hu, Option.map_none]

-- An insertion puts the data into one bucket.
structure Gains (table table' : Hashtable) (ent : Nat) (data : Word) : Prop where
  count  : table'.bucketCount = table.bucketCount
  datas  : (table'.buckets ent).datas = (table.buckets ent).datas ++ [data]
  used   : (table'.buckets ent).Used
  others : ∀ j ≠ ent, table'.buckets j = table.buckets j

theorem insert_gains (hu : ∀ i, (table.buckets i).Used)
    (hk : hashtableInsert memcpy table data hash bytes 0 h = .ok (table', h')) :
    Gains table table' (entOf table h hash bytes) data := by
  obtain ⟨thsh, h₁, hc, hi⟩ := insert_cases hk
  have ht : thsh ≠ none := by
    cases hc
    case given          => exact Option.some_ne_none hash
    case null hcopy _ _ => exact absurd hcopy (by decide)
    case copy hcopy _   => exact absurd hcopy (by decide)
  generalize entOf table h hash bytes = ent at hi
  have hother (bucket : Bucket) (j : Nat) (hj : j ≠ ent) :
      (table.setBucket ent bucket).buckets j = table.buckets j := update_of_ne hj _ _
  have hself (bucket : Bucket) : (table.setBucket ent bucket).buckets ent = bucket := update_self _ _ _
  cases hi
  case head hh =>
    refine ⟨rfl, ?_, ?_, hother _⟩
    · simp [hself, Bucket.datas, hh, ht]
    · simp [hself, Bucket.Used]
  case reuse _ hh hr =>
    rw [reuseNode_used (hu ent)] at hr
    cases hr
  case append hh hr hg =>
    refine ⟨rfl, ?_, ?_, hother _⟩
    · simp [hself, Bucket.datas, hh]
    · rw [hself]
      intro node hn
      rcases List.mem_append.mp hn with hn | hn
      · exact hu ent node hn
      · cases List.mem_singleton.mp hn
        exact ht

-- An entry that is found is the head of its bucket only when it is alone.
theorem fetch_datas (hk : hashtableFetch table hash bytes h = .ok (some data)) :
    data ∈ (table.buckets (entOf table h hash bytes)).datas ∧
      ((table.buckets (entOf table h hash bytes)).head.data = data →
        (table.buckets (entOf table h hash bytes)).datas.Nodup →
        (table.buckets (entOf table h hash bytes)).chain = []) := by
  obtain ⟨r, hf, hk⟩ := Except.bind_ok_iff.mp hk
  obtain ⟨⟨place, e⟩, rfl, rfl⟩ := Option.map_eq_some_iff.mp (Except.ok.inj hk)
  obtain ⟨hent, hhas, hh, hchain⟩ := findKey_cases hf
  rw [hent] at hhas hh hchain
  generalize table.buckets (entOf table h hash bytes) = bucket at *
  simp only [Bucket.datas, if_neg hh, List.mem_cons, List.nodup_cons]
  cases hs : place.slot
  case head =>
    rw [hs] at hhas
    exact ⟨.inl (congrArg Hashbucket.data hhas).symm, fun _ _ => hchain hs⟩
  case node i =>
    rw [hs] at hhas
    obtain ⟨node, hget⟩ := hhas
    have hmem : e.data ∈ bucket.chain.map (·.2.data) :=
      List.mem_map.mpr ⟨(node, e), List.mem_of_getElem? hget, rfl⟩
    exact ⟨.inr hmem, fun he hn => absurd (he ▸ hmem) hn.left⟩

-- Without a chain the head is returned for any key of its bucket.
theorem fetch_alone (hh : (table.buckets (entOf table h hash bytes)).head.hash ≠ none)
    (hc : (table.buckets (entOf table h hash bytes)).chain = []) :
    hashtableFetch table hash bytes h =
      .ok (some (table.buckets (entOf table h hash bytes)).head.data) := by
  simp only [entOf] at hh hc ⊢
  simp [hashtableFetch, findKey, hh, hc, bind, Except.bind, pure, Except.pure]

theorem fetch_unused (hh : ∀ i, (table.buckets i).datas = []) :
    hashtableFetch table hash bytes h = .ok none := by
  have hn : (table.buckets (hashData (h.mem hash) bytes table.bucketCount)).head.hash = none := by
    by_contra hne
    have hd := hh (hashData (h.mem hash) bytes table.bucketCount)
    rw [Bucket.datas, if_neg hne] at hd
    cases hd
  simp [hashtableFetch, findKey, hn, bind, Except.bind, pure, Except.pure]

theorem searchChain_returns {mem : Ptr → Bytes} {b : Bytes} (hb : bytes < 2 ^ 32)
    (hu : ∀ node ∈ chain, node.2.hash ≠ none) : ∃ r, searchChain mem b bytes chain = .ok r := by
  induction chain
  case nil => exact ⟨none, rfl⟩
  case cons n chain hi =>
    obtain ⟨node, test⟩ := n
    obtain ⟨hn, hu⟩ := List.forall_mem_cons.mp hu
    obtain ⟨p, hp⟩ := Option.ne_none_iff_exists'.mp hn
    dsimp only at hp
    have hm : ∃ found, matchKey mem b bytes test = .ok found := by
      simp only [matchKey, hp, if_pos hb]
      split
      case isTrue => exact ⟨_, rfl⟩
      case isFalse => split <;> exact ⟨_, rfl⟩
    obtain ⟨found, hm⟩ := hm
    obtain ⟨r, hr⟩ := hi hu
    rw [searchChain, hm]
    cases found
    case false => exact ⟨_, by simp only [bind, Except.bind, hr]; rfl⟩
    case true  => exact ⟨_, rfl⟩

theorem fetch_returns (hb : bytes < 2 ^ 32) (hu : ∀ i, (table.buckets i).Used) :
    ∃ r, hashtableFetch table hash bytes h = .ok r := by
  have hf : ∃ r, findKey table hash bytes h = .ok r := by
    unfold findKey
    dsimp only
    split
    case isTrue => exact ⟨none, rfl⟩
    case isFalse =>
      split
      case h_1 => exact ⟨_, rfl⟩
      case h_2 =>
        obtain ⟨r, hr⟩ := searchChain_returns hb (hu _)
        rw [hr]
        exact ⟨_, rfl⟩
  obtain ⟨r, hf⟩ := hf
  rw [hashtableFetch, hf]
  exact ⟨_, rfl⟩

-- Only the bytes of the key matter.
theorem fetch_congr (hm : ∀ i < bytes, h.mem hash i = h.mem hash' i) :
    hashtableFetch table hash bytes h = hashtableFetch table hash' bytes h := by
  have hkey : readKey (h.mem hash) bytes = readKey (h.mem hash') bytes :=
    List.map_congr_left fun i hi => hm i (List.mem_range.mp hi)
  have hent : hashData (h.mem hash) bytes table.bucketCount =
      hashData (h.mem hash') bytes table.bucketCount := by
    rw [hashData, hkey, hashData]
  have hmatch (test : Hashbucket) :
      matchKey h.mem (h.mem hash) bytes test = matchKey h.mem (h.mem hash') bytes test := by
    simp only [matchKey]
    have hall (p : Ptr) : (∀ i < min bytes (2 ^ 32), h.mem hash i = h.mem p i) ↔
        ∀ i < min bytes (2 ^ 32), h.mem hash' i = h.mem p i :=
      forall₂_congr fun i hi => by rw [hm i (Nat.lt_of_lt_of_le hi (Nat.min_le_left _ _))]
    simp only [hall]
  have hsearch (chain : List (Ptr × Hashbucket)) :
      searchChain h.mem (h.mem hash) bytes chain = searchChain h.mem (h.mem hash') bytes chain := by
    induction chain
    case nil => rfl
    case cons n chain hi =>
      obtain ⟨node, test⟩ := n
      simp only [searchChain, hmatch, hi]
  simp only [hashtableFetch, findKey, hent, hsearch]

end RoverOS.Hashtable

namespace RoverOS.Vfs

open Kmalloc

variable {fuel base : Nat} {s : Vfs} {path : Nat → Ptr} {str : Bytes}

-- The text of a path is at its addresses.
def HasText (h : Kmalloc.Heap) (path : Nat → Ptr) (text : List (BitVec 8)) : Prop :=
  ∀ i ≤ text.length, ∀ j, i + j ≤ text.length → h.mem (path i) j = (text ++ [0#8]).getD (i + j) 0

section Length

-- The count goes around at `2 ^ 32`, and a path begins with a `/`.
theorem pathNameLength_returns (h0 : str 0 = slash) (hb : base < 2 ^ 32) (hf : 2 ^ 32 < fuel + base) :
    ∃ i < 2 ^ 32, pathNameLength str fuel base = .ok i := by
  induction fuel generalizing base
  case zero => omega
  case succ fuel hi =>
    simp only [pathNameLength]
    split
    case isTrue => exact ⟨0, by decide, rfl⟩
    case isFalse =>
      split
      case isTrue => exact ⟨0, by decide, rfl⟩
      case isFalse hs =>
        have hrest : ∃ i < 2 ^ 32, pathNameLength str fuel (u32 (base + 1)) = .ok i := by
          rcases Nat.lt_or_ge (base + 1) (2 ^ 32) with hlt | hge
          · rw [u32_of_lt hlt]
            exact hi hlt (by omega)
          · -- The base is 0 again.
            have hz : u32 (base + 1) = 0 := by
              rw [(by omega : base + 1 = 2 ^ 32)]
              rfl
            rw [hz]
            obtain ⟨fuel, rfl⟩ : ∃ n, fuel = n + 1 := ⟨fuel - 1, by omega⟩
            refine ⟨0, by decide, ?_⟩
            rw [pathNameLength, h0, if_neg (by decide), if_pos rfl]
        obtain ⟨i, _, hr⟩ := hrest
        exact ⟨u32 (i + 1), u32_lt _, by rw [hr]; rfl⟩

-- A name without a separator is read to its end.
theorem pathNameLength_eq {name : List (BitVec 8)} {b : BitVec 8} (hn : 0#8 ∉ name ∧ slash ∉ name)
    (hb : b = 0#8 ∨ b = slash) (hs : ∀ i ≤ name.length, str (base + i) = (name ++ [b]).getD i 0)
    (hl : base + name.length < 2 ^ 32) (hf : name.length < fuel) :
    pathNameLength str fuel base = .ok name.length := by
  induction name generalizing base fuel <;> obtain ⟨fuel, rfl⟩ := Nat.exists_eq_add_of_lt hf
  case nil =>
    have h0 := hs 0 (Nat.le_refl 0)
    simp only [Nat.add_zero, List.nil_append, List.getD_cons_zero] at h0
    simp only [pathNameLength, h0, List.length_nil]
    rcases hb with rfl | rfl
    · rfl
    · rfl
  case cons c name hi =>
    have h0 := hs 0 (Nat.zero_le _)
    simp only [Nat.add_zero, List.cons_append, List.getD_cons_zero] at h0
    simp only [List.mem_cons, not_or, List.length_cons] at hn hl hf
    have hnext (i : Nat) (hi : i ≤ name.length) : str (base + 1 + i) = (name ++ [b]).getD i 0 := by
      have h := hs (i + 1) (by simpa using hi)
      simpa [Nat.add_assoc, Nat.add_comm 1] using h
    have hrest : pathNameLength str ((c :: name).length + fuel) (base + 1) = .ok name.length :=
      hi ⟨hn.left.right, hn.right.right⟩ hnext (by omega) (by simp; omega)
    simp only [pathNameLength, h0, if_neg (Ne.symm hn.left.left), if_neg (Ne.symm hn.right.left)]
    rw [u32_of_lt (by omega), hrest]
    simp only [bind, Except.bind, pure, Except.pure, List.length_cons]
    rw [u32_of_lt (by omega)]

end Length

section Parse

variable {F M : Ptr}

-- What the structures that a path can lead to must be like: the root leads to mounts, and the mounts
-- to files.
structure Sorted (s : Vfs) : Prop where
  mounts {p : Ptr} {m : VfsMountpoint} : s.mounts p = some m →
    m.header.type = vfsTypeMount ∧ s.files p = none
  files {p : Ptr} {f : VfsFile} : s.files p = some f → f.header.type = vfsTypeFile ∧ s.mounts p = none
  root {i : Nat} {d : Word} : d ∈ (s.children.buckets i).datas → s.mounts d.toNat ≠ none
  tables {p : Ptr} {m : VfsMountpoint} {i : Nat} {d : Word} : s.mounts p = some m →
    d ∈ (m.table.buckets i).datas → s.files d.toNat ≠ none

theorem Sorted.headerType_mount (hs : Sorted s) (hm : s.mounts M ≠ none) :
    s.headerType M = .ok vfsTypeMount := by
  obtain ⟨m, hm⟩ := Option.ne_none_iff_exists'.mp hm
  simp [headerType, hm, (hs.mounts hm).left]

theorem Sorted.headerType_file (hs : Sorted s) (hf : s.files F ≠ none) :
    s.headerType F = .ok vfsTypeFile := by
  obtain ⟨f, hf⟩ := Option.ne_none_iff_exists'.mp hf
  simp [headerType, hf, (hs.files hf).left, (hs.files hf).right]

-- The lookups on the way to a file.
structure Leads (fuel : Nat) (path : Nat → Ptr) (s : Vfs) (M F : Ptr) (slen₁ slen₂ : Nat)
    (m : VfsMountpoint) (d₁ d₂ : Word) : Prop where
  length₁ : pathNameLength (s.heap.mem (path 0)) fuel 1 = .ok slen₁
  fetch₁  : Hashtable.hashtableFetch s.children (path 1) slen₁ s.heap = .ok (some d₁)
  null    : d₁ ≠ 0
  mount   : d₁.toNat = M ∧ s.mounts M = some m
  length₂ : pathNameLength (s.heap.mem (path 0)) fuel (u32 (1 + (slen₁ + 1))) = .ok slen₂
  pos     : slen₂ ≠ 0
  fetch₂  : Hashtable.hashtableFetch m.table (path (u32 (1 + (slen₁ + 1)))) slen₂ s.heap = .ok (some d₂)
  file    : d₂.toNat = F

theorem fetch_root (hs : Sorted s) {hash : Ptr} {bytes : Nat} {d : Word}
    (hk : Hashtable.hashtableFetch s.children hash bytes s.heap = .ok (some d)) :
    s.mounts d.toNat ≠ none :=
  hs.root (Hashtable.fetch_datas hk).left

theorem Sorted.parsePath_leads (hs : Sorted s)
    (hp : parsePath fuel path s = .ok (some F, some M)) :
    ∃ slen₁ slen₂ m d₁ d₂, Leads fuel path s M F slen₁ slen₂ m d₁ d₂ := by
  obtain ⟨slen₁, hl₁, hp⟩ := Except.bind_ok_iff.mp hp
  obtain ⟨r, hf₁, hp⟩ := Except.bind_ok_iff.mp hp
  rcases r with _ | d₁
  · cases hp
  · have hm := fetch_root hs hf₁
    obtain ⟨m, hm'⟩ := Option.ne_none_iff_exists'.mp hm
    dsimp only at hp
    split at hp
    case isTrue => cases hp
    case isFalse hd =>
      rw [hs.headerType_mount hm] at hp
      obtain ⟨_, ht, hp⟩ := Except.bind_ok_iff.mp hp
      cases ht
      rw [if_neg (by decide)] at hp
      cases fuel
      case zero => cases hp
      case succ fuel =>
        obtain ⟨slen₂, hl₂, hp⟩ := Except.bind_ok_iff.mp hp
        split at hp
        case isTrue => cases hp
        case isFalse hne =>
          rw [hs.headerType_mount hm] at hp
          obtain ⟨_, ht, hp⟩ := Except.bind_ok_iff.mp hp
          cases ht
          simp only [ne_eq, not_true, if_false, hm'] at hp
          obtain ⟨r, hf₂, hp⟩ := Except.bind_ok_iff.mp hp
          rcases r with _ | d₂
          · cases hp
          · have hfile := hs.tables hm' (Hashtable.fetch_datas hf₂).left
            dsimp only at hp
            rw [hs.headerType_file hfile] at hp
            obtain ⟨_, ht, hp⟩ := Except.bind_ok_iff.mp hp
            cases ht
            simp only [if_true] at hp
            cases hp
            exact ⟨slen₁, slen₂, m, d₁, d₂, hl₁, hf₁, hd, ⟨rfl, hm'⟩, hl₂, hne, hf₂, rfl⟩

theorem Leads.parsePath {slen₁ slen₂ : Nat} {m : VfsMountpoint} {d₁ d₂ : Word} (hs : Sorted s)
    (h : Leads (fuel + 1) path s M F slen₁ slen₂ m d₁ d₂) :
    Vfs.parsePath (fuel + 1) path s = .ok (some F, some M) := by
  obtain ⟨rfl, hm⟩ := h.mount
  have hmne : s.mounts d₁.toNat ≠ none := by simp [hm]
  have hfile := hs.tables hm (Hashtable.fetch_datas h.fetch₂).left
  have hne : ¬vfsTypeMount = vfsTypeFile := by decide
  simp only [Vfs.parsePath, parseFrom, bind, Except.bind, h.length₁, h.fetch₁, hs.headerType_mount hmne,
    h.length₂, h.fetch₂, hs.headerType_file hfile, hm, h.null, h.pos, hne, ne_eq, not_true, if_true, if_false]
  rw [h.file]
  rfl

-- Without files, a path leads to nothing but a mount.
theorem parsePath_mounts (hs : Sorted s) (hroot : ∀ i, (s.children.buckets i).Used)
    (hnone : ∀ p m, s.mounts p = some m → ∀ i, (m.table.buckets i).datas = [])
    (h0 : s.heap.mem (path 0) 0 = slash) (hf : 2 ^ 32 < fuel) :
    ∃ r, Vfs.parsePath fuel path s = .ok r ∧ ∀ M ∈ r.1, s.mounts M ≠ none := by
  have hlength (b : Nat) (hb : b < 2 ^ 32) := @pathNameLength_returns fuel b _ h0 hb (by omega)
  obtain ⟨slen₁, hlt, hl₁⟩ := hlength 1 (by decide)
  obtain ⟨r, hf₁⟩ := @Hashtable.fetch_returns _ s.heap (path 1) _ hlt hroot
  simp only [Vfs.parsePath, hl₁, hf₁, bind, Except.bind]
  rcases r with _ | d
  · exact ⟨_, rfl, by simp⟩
  · have hm := fetch_root hs hf₁
    obtain ⟨m, hm'⟩ := Option.ne_none_iff_exists'.mp hm
    obtain ⟨slen₂, _, hl₂⟩ := hlength (u32 (1 + (slen₁ + 1))) (u32_lt _)
    have hne : ¬vfsTypeMount = vfsTypeFile := by decide
    obtain ⟨fuel, rfl⟩ : ∃ n, fuel = n + 1 := ⟨fuel - 1, by omega⟩
    dsimp only
    split
    case isTrue => exact ⟨_, rfl, by simp⟩
    case isFalse =>
      simp only [hs.headerType_mount hm, hne, if_false, parseFrom, hl₂, bind, Except.bind]
      split
      case isTrue => exact ⟨_, rfl, by simpa using hm⟩
      case isFalse =>
        simp only [ne_eq, not_true, if_false, hm', Hashtable.fetch_unused (hnone _ m hm')]
        exact ⟨_, rfl, by simp⟩

end Parse

end RoverOS.Vfs
