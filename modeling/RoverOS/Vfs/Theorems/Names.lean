import RoverOS.Vfs.Theorems.Collide
import RoverOS.Vfs.Theorems.Lookup
import RoverOS.Vfs.Theorems.Counts

-- The name space of the file system: which paths lead to which files.

open Function (update update_self update_of_ne)

namespace RoverOS.Vfs

open Kmalloc Hashtable

-- A file that has been added, with its name and the letter of its mount.
structure Entry where
  mount  : Ptr
  letter : BitVec 8
  file   : Ptr
  name   : Name

section Run

variable (leftover : Bytes → Nat → Hashtable.Bucket) (memcpy : Memcpy) (fuel : Nat)

-- `initVFS` has made the root table, and no bucket of it is in use.
structure Empty (s : Vfs) : Prop extends Unused s where
  buckets : ∀ i, (s.children.buckets i).datas = [] ∧ (s.children.buckets i).Used
  pos     : 0 < s.heap.next

-- Mounts with different letters. In between, the memory of a letter may be used for something else.
inductive MountRun : List (Ptr × BitVec 8) → Vfs → Prop
  | init {s : Vfs} : Empty s → MountRun [] s
  | mount {ms : List (Ptr × BitVec 8)} {s s' : Vfs} {type childCount flags : Nat} {letter mnt : Ptr}
    {d : Word} :
    MountRun ms s → s.heap.mem letter 0 ∉ ms.map Prod.snd →
    mountVFS leftover memcpy type childCount letter flags d s = .ok (mnt, s') →
    MountRun ((mnt, s.heap.mem letter 0) :: ms) s'
  | other {ms : List (Ptr × BitVec 8)} {s : Vfs} {heap : Kmalloc.Heap} :
    MountRun ms s → s.heap.next ≤ heap.next → MountRun ms { s with heap }

-- The names of the files stay in memory.
def KeepsNames (s : Vfs) (heap : Kmalloc.Heap) : Prop :=
  s.heap.next ≤ heap.next ∧ ∀ p f, s.files p = some f → heap.mem f.name = s.heap.mem f.name

-- Then files are added, with different names on each mount.
inductive AddRun (ms : List (Ptr × BitVec 8)) : List Entry → Vfs → Prop
  | start {s : Vfs} : MountRun leftover memcpy ms s → AddRun ms [] s
  | add {es : List Entry} {s s' : Vfs} {e : Entry} {name : Ptr} {phys size flags : Nat} {r : Bool} :
    AddRun ms es s → (e.mount, e.letter) ∈ ms → IsName e.name →
    (∀ i < e.name.length + 1, s.heap.mem name i = (e.name ++ [0#8]).getD i 0) →
    (∀ e' ∈ es, e'.mount = e.mount → e'.name ≠ e.name) → e.file = s.heap.next →
    addVFSFile memcpy fuel e.mount name phys size flags s = .ok (r, s') →
    AddRun ms (e :: es) s'
  | other {es : List Entry} {s : Vfs} {heap : Kmalloc.Heap} :
    AddRun ms es s → KeepsNames s heap → AddRun ms es { s with heap }

end Run

-- The path of a name on a letter is in memory, and a handle can be allocated.
structure Queried (s : Vfs) (heap : Kmalloc.Heap) (path : Nat → Ptr) (letter : BitVec 8)
    (name : Name) : Prop where
  names : KeepsNames s heap
  lock  : heap.lock = false
  text  : HasText heap path (slash :: letter :: slash :: name)

structure NameSpace (fuel : Nat) (s : Vfs) (es : List Entry) : Prop where
  found {e : Entry} {heap : Kmalloc.Heap} {path : Nat → Ptr} : e ∈ es →
    Queried s heap path e.letter e.name → ∃ fl s' handle,
      openFile fuel path { s with heap } = .ok (some fl, s') ∧ s'.handle fl = some handle ∧
      handle.file = e.file ∧ handle.mount = some e.mount
  absent {letter : BitVec 8} {name : Name} {heap : Kmalloc.Heap} {path : Nat → Ptr} : IsName name →
    (∀ e ∈ es, ¬(e.letter = letter ∧ e.name = name)) → Queried s heap path letter name →
    ∃ s', openFile fuel path { s with heap } = .ok (none, s')

-- The table of a mount has its files, each of them once.
structure Holds (es : List Entry) (mnt : Ptr) (table : Hashtable) : Prop where
  pos   : 0 < table.bucketCount
  count : table.bucketCount < 2 ^ 16
  used (i : Nat) : (table.buckets i).Used
  nodup (i : Nat) : (table.buckets i).datas.Nodup
  data {i : Nat} {d : Word} : d ∈ (table.buckets i).datas →
    ∃ e ∈ es, e.mount = mnt ∧ d = BitVec.ofNat 64 e.file
  apart {i j : Nat} {d : Word} : d ∈ (table.buckets i).datas → d ∈ (table.buckets j).datas → i = j
  placed {e : Entry} : e ∈ es → e.mount = mnt →
    ∃ i < table.bucketCount, BitVec.ofNat 64 e.file ∈ (table.buckets i).datas

structure NamesInv (ms : List (Ptr × BitVec 8)) (es : List Entry) (s : Vfs) : Prop where
  pos     : es.length < s.heap.next
  fresh {p : Ptr} : s.heap.next ≤ p → s.files p = none ∧ s.mounts p = none
  mounts {p : Ptr} {m : VfsMountpoint} : s.mounts p = some m →
    m.header.type = vfsTypeMount ∧ s.files p = none ∧ Holds es p m.table
  known {p : Ptr} {c : BitVec 8} : (p, c) ∈ ms → s.mounts p ≠ none
  letters {p : Ptr} {c c' : BitVec 8} : (p, c) ∈ ms → (p, c') ∈ ms → c = c'
  files {p : Ptr} {f : VfsFile} : s.files p = some f → f.header.type = vfsTypeFile ∧ s.mounts p = none
  entries {e : Entry} : e ∈ es → s.files e.file ≠ none ∧ (e.mount, e.letter) ∈ ms
  root (i : Nat) : (s.children.buckets i).Used
  leads {i : Nat} {d : Word} : d ∈ (s.children.buckets i).datas → s.mounts d.toNat ≠ none

variable {leftover : Bytes → Nat → Hashtable.Bucket} {memcpy : Memcpy} {fuel : Nat}
variable {ms : List (Ptr × BitVec 8)} {es : List Entry} {s s' : Vfs} {mnt : Ptr} {e : Entry}

theorem toNat_ptr {p : Ptr} (hp : p < s.heap.next) (hb : s.heap.next ≤ 2 ^ 64) :
    (BitVec.ofNat 64 p).toNat = p := by
  rw [BitVec.toNat_ofNat]
  exact Nat.mod_eq_of_lt (Nat.lt_of_lt_of_le hp hb)

theorem NamesInv.lt_of_file (hi : NamesInv ms es s) {p : Ptr} (hp : s.files p ≠ none) : p < s.heap.next := by
  by_contra hn
  exact hp (hi.fresh (Nat.le_of_not_lt hn)).left

section Mount

-- The new table is as it is left over, and the root table gets the mount.
structure MountedTable (leftover : Bytes → Nat → Hashtable.Bucket) (memcpy : Memcpy) (s : Vfs)
    (letter : Ptr) (m : VfsMountpoint) (s' : Vfs) : Prop where
  mounts   : s'.mounts = update s.mounts s.heap.next (some m)
  type     : m.header.type = vfsTypeMount
  table    : ∃ b, m.table.buckets = leftover b
  count    : 0 < m.table.bucketCount ∧ m.table.bucketCount < 2 ^ 16
  children : ∃ h h', hashtableInsert memcpy s.children (BitVec.ofNat 64 s.heap.next) letter 1 0 h =
    .ok (s'.children, h')

theorem kmalloc_ne_zero {sz : Nat} {p : Ptr} {h h' : Kmalloc.Heap} (hk : kmalloc sz h = .ok (some p, h')) :
    sz ≠ 0 := by
  rintro rfl
  obtain ⟨_, _, hk⟩ := Except.bind_ok_iff.mp hk
  cases hk

theorem hashtableCreate_table {buckets : Nat} {h h' : Kmalloc.Heap} {r : Ptr × Ptr × Hashtable}
    (hk : hashtableCreate leftover buckets h = .ok (r, h')) :
    (∃ b, r.2.2.buckets = leftover b) ∧ 0 < r.2.2.bucketCount ∧ r.2.2.bucketCount < 2 ^ 16 := by
  obtain ⟨⟨table, h₁⟩, hk₁, hk⟩ := Except.bind_ok_iff.mp hk
  rcases table with _ | table
  · cases hk
  · obtain ⟨⟨array, h₂⟩, hk₂, hk⟩ := Except.bind_ok_iff.mp hk
    rcases array with _ | array
    · cases hk
    · cases hk
      refine ⟨⟨_, rfl⟩, Nat.pos_of_ne_zero fun hz => ?_, Nat.mod_lt _ (by decide)⟩
      have hz : u16 buckets = 0 := hz
      exact kmalloc_ne_zero hk₂ (by rw [hz, Nat.mul_zero])

theorem mountVFS_table {type childCount flags : Nat} {letter : Ptr} {d : Word}
    (hk : mountVFS leftover memcpy type childCount letter flags d s = .ok (mnt, s')) :
    ∃ m, MountedTable leftover memcpy s letter m s' := by
  obtain ⟨⟨ptr, h₁⟩, hk₁, hk⟩ := Except.bind_ok_iff.mp hk
  rcases ptr with _ | ptr
  · cases hk
  · obtain ⟨⟨⟨a, b, table⟩, h₂⟩, hk₂, hk⟩ := Except.bind_ok_iff.mp hk
    obtain ⟨⟨children, h₃⟩, hk₃, hk⟩ := Except.bind_ok_iff.mp hk
    cases hk
    obtain ⟨rfl, rfl⟩ := kmalloc_some hk₁
    obtain ⟨htable, hcount⟩ := hashtableCreate_table hk₂
    exact ⟨_, rfl, rfl, htable, hcount, _, _, hk₃⟩

theorem holds_unused {table : Hashtable} (hd : ∀ i, (table.buckets i).datas = [] ∧ (table.buckets i).Used)
    (hc : 0 < table.bucketCount ∧ table.bucketCount < 2 ^ 16) : Holds [] mnt table where
  pos         := hc.left
  count       := hc.right
  used i      := (hd i).right
  nodup i     := (hd i).left ▸ List.nodup_nil
  data hm     := by rw [(hd _).left] at hm; cases hm
  apart hm _  := by rw [(hd _).left] at hm; cases hm
  placed he _ := by cases he

theorem NamesInv.mount {m : VfsMountpoint} {letter : Ptr} {c : BitVec 8}
    (hclean : ∀ b i, (leftover b i).datas = [] ∧ (leftover b i).Used) (hi : NamesInv ms [] s)
    (hm : Mounted s mnt m s') (ht : ∃ m', MountedTable leftover memcpy s letter m' s')
    (hb : s'.heap.next ≤ 2 ^ 64) : NamesInv ((mnt, c) :: ms) [] s' := by
  obtain ⟨m, ht⟩ := ht
  have hmnt := hm.ptr
  subst hmnt
  obtain ⟨hnf, hnm⟩ := hi.fresh (Nat.le_refl s.heap.next)
  have hkept {p : Ptr} (hp : s.mounts p ≠ none) : s'.mounts p ≠ none := by
    rw [ht.mounts]
    exact update_ne_none hp
  have hnew : s'.mounts s.heap.next ≠ none := by simp [ht.mounts]
  obtain ⟨heap, heap', hins⟩ := ht.children
  have hg := insert_gains hi.root hins
  constructor
  case pos => exact Nat.lt_of_le_of_lt (Nat.zero_le _) hm.next
  case fresh =>
    intro p hp
    have hlt := Nat.lt_of_lt_of_le hm.next hp
    rw [hm.files, ht.mounts, update_of_ne (Nat.ne_of_gt hlt)]
    exact hi.fresh (Nat.le_of_lt hlt)
  case mounts =>
    intro p m' hp
    rw [ht.mounts, Function.update_apply] at hp
    rw [hm.files]
    split at hp
    case isTrue he =>
      cases hp
      obtain ⟨b, htable⟩ := ht.table
      exact ⟨ht.type, he ▸ hnf, holds_unused (fun i => htable ▸ hclean b i) ht.count⟩
    case isFalse => exact hi.mounts hp
  case known =>
    intro p c' hp
    rcases List.mem_cons.mp hp with h | h
    · cases h
      exact hnew
    · exact hkept (hi.known h)
  case letters =>
    intro p c₁ c₂ h₁ h₂
    rcases List.mem_cons.mp h₁ with h₁ | h₁ <;> rcases List.mem_cons.mp h₂ with h₂ | h₂
    · cases h₁
      cases h₂
      rfl
    · cases h₁
      exact absurd hnm (hi.known h₂)
    · cases h₂
      exact absurd hnm (hi.known h₁)
    · exact hi.letters h₁ h₂
  case files =>
    intro p f hp
    rw [hm.files] at hp
    refine ⟨(hi.files hp).left, ?_⟩
    rw [ht.mounts, update_of_ne, (hi.files hp).right]
    rintro rfl
    rw [hnf] at hp
    cases hp
  case entries =>
    intro e he
    cases he
  case root =>
    intro i
    by_cases h : i = entOf s.children heap letter 1
    case pos => exact h ▸ hg.used
    case neg => exact hg.others i h ▸ hi.root i
  case leads =>
    intro i d hd
    by_cases h : i = entOf s.children heap letter 1
    case pos =>
      rw [h, hg.datas, List.mem_append, List.mem_singleton] at hd
      rcases hd with hd | rfl
      · exact hkept (hi.leads hd)
      · rwa [toNat_ptr hm.next hb]
    case neg => exact hkept (hi.leads (hg.others i h ▸ hd))

end Mount

section Add

-- The new file, and the table that its mount gets.
structure AddedTable (memcpy : Memcpy) (s : Vfs) (mnt name : Ptr) (m : VfsMountpoint) (s' : Vfs) : Prop where
  next     : s.heap.next < s'.heap.next
  children : s'.children = s.children
  files    : ∃ f, s'.files = update s.files s.heap.next (some f) ∧ f.header.type = vfsTypeFile
  table    : ∃ table bytes h h', s'.mounts = update s.mounts mnt (some { m with table }) ∧
    hashtableInsert memcpy m.table (BitVec.ofNat 64 s.heap.next) name bytes 0 h = .ok (table, h')

theorem addVFSFile_table {name : Ptr} {phys size flags : Nat} {r : Bool} {m : VfsMountpoint}
    (hm : s.mounts mnt = some m) (ht : m.header.type = vfsTypeMount)
    (hk : addVFSFile memcpy fuel mnt name phys size flags s = .ok (r, s')) :
    AddedTable memcpy s mnt name m s' := by
  have hnext := (addVFSFile_cases hk).next
  obtain ⟨⟨ptr, h₁⟩, hk₁, hk⟩ := Except.bind_ok_iff.mp hk
  rcases ptr with _ | ptr
  · cases hk
  · obtain ⟨rfl, rfl⟩ := kmalloc_some hk₁
    simp only [headerType, hm, ht, Except.bind_ok_iff] at hk
    obtain ⟨_, hty, hk⟩ := hk
    cases hty
    simp only [if_true, Except.bind_ok_iff] at hk
    obtain ⟨bytes, _, ⟨table, h₂⟩, hk₂, hk⟩ := hk
    cases hk
    exact ⟨hnext, rfl, ⟨_, rfl, rfl⟩, table, bytes, _, h₂, rfl, hk₂⟩

theorem Holds.others {table : Hashtable} (hh : Holds es mnt table) (he : e.mount ≠ mnt) :
    Holds (e :: es) mnt table where
  pos     := hh.pos
  count   := hh.count
  used    := hh.used
  nodup   := hh.nodup
  data hd := by
    obtain ⟨e', he', h⟩ := hh.data hd
    exact ⟨e', List.mem_cons_of_mem _ he', h⟩
  apart   := hh.apart
  placed he' hm := by
    rcases List.mem_cons.mp he' with rfl | he'
    · exact absurd hm he
    · exact hh.placed he' hm

theorem Holds.gains {table table' : Hashtable} {ent : Nat} (hh : Holds es mnt table)
    (hg : Gains table table' ent (BitVec.ofNat 64 e.file)) (hent : ent < table.bucketCount)
    (he : e.mount = mnt) (hnew : ∀ i, BitVec.ofNat 64 e.file ∉ (table.buckets i).datas) :
    Holds (e :: es) mnt table' := by
  have hdatas (i : Nat) (d : Word) : d ∈ (table'.buckets i).datas ↔
      d ∈ (table.buckets i).datas ∨ (i = ent ∧ d = BitVec.ofNat 64 e.file) := by
    by_cases hi : i = ent
    case pos => simp [hi, hg.datas]
    case neg => simp [hi, hg.others i hi]
  constructor
  case pos   => exact hg.count ▸ hh.pos
  case count => exact hg.count ▸ hh.count
  case used =>
    intro i
    by_cases hi : i = ent
    case pos => exact hi ▸ hg.used
    case neg => exact hg.others i hi ▸ hh.used i
  case nodup =>
    intro i
    by_cases hi : i = ent
    case pos =>
      rw [hi, hg.datas]
      exact (hh.nodup ent).append (List.nodup_singleton _) (List.disjoint_singleton.mpr (hnew ent))
    case neg => exact hg.others i hi ▸ hh.nodup i
  case data =>
    intro i d hd
    rcases (hdatas i d).mp hd with hd | ⟨_, rfl⟩
    · obtain ⟨e', he', h⟩ := hh.data hd
      exact ⟨e', List.mem_cons_of_mem _ he', h⟩
    · exact ⟨e, List.mem_cons_self, he, rfl⟩
  case apart =>
    intro i j d hi hj
    rcases (hdatas i d).mp hi with hi | ⟨hie, rfl⟩ <;> rcases (hdatas j _).mp hj with hj | ⟨hje, hd⟩
    · exact hh.apart hi hj
    · exact absurd (hd ▸ hi) (hnew i)
    · exact absurd hj (hnew j)
    · exact hie.trans hje.symm
  case placed =>
    intro e' he' hm
    rw [hg.count]
    rcases List.mem_cons.mp he' with rfl | he'
    · exact ⟨ent, hent, (hdatas _ _).mpr (.inr ⟨rfl, rfl⟩)⟩
    · obtain ⟨i, hi, hd⟩ := hh.placed he' hm
      exact ⟨i, hi, (hdatas _ _).mpr (.inl hd)⟩

theorem NamesInv.add {name : Ptr} {m : VfsMountpoint} (hi : NamesInv ms es s)
    (hm : s.mounts e.mount = some m) (ha : AddedTable memcpy s e.mount name m s')
    (hms : (e.mount, e.letter) ∈ ms) (he : e.file = s.heap.next) (hb : s'.heap.next ≤ 2 ^ 64) :
    NamesInv ms (e :: es) s' := by
  obtain ⟨f, hfiles, hf⟩ := ha.files
  obtain ⟨table, bytes, heap, heap', hmounts, hins⟩ := ha.table
  obtain ⟨hnf, hnm⟩ := hi.fresh (Nat.le_refl s.heap.next)
  have hbound : s.heap.next ≤ 2 ^ 64 := Nat.le_trans (Nat.le_of_lt ha.next) hb
  have hholds := (hi.mounts hm).right.right
  have hg := insert_gains hholds.used hins
  -- No entry of any table is the new file.
  have hnew {p : Ptr} {t : Hashtable} (ht : Holds es p t) (i : Nat) :
      BitVec.ofNat 64 s.heap.next ∉ (t.buckets i).datas := by
    intro hd
    obtain ⟨e', he', _, heq⟩ := ht.data hd
    have hlt := hi.lt_of_file (hi.entries he').left
    have heq := congrArg BitVec.toNat heq
    rw [toNat_ptr hlt hbound, toNat_ptr ha.next hb] at heq
    exact Nat.ne_of_gt hlt heq
  have hmkept {p : Ptr} (hp : s.mounts p ≠ none) : s'.mounts p ≠ none := by
    rw [hmounts]
    exact update_ne_none hp
  have hfkept {p : Ptr} (hp : s.files p ≠ none) : s'.files p ≠ none := by
    rw [hfiles]
    exact update_ne_none hp
  have hmnone {p : Ptr} : s'.mounts p = none ↔ s.mounts p = none := by
    rw [hmounts]
    exact update_eq_none_iff hm
  constructor
  case pos => exact Nat.lt_of_le_of_lt (Nat.succ_le_of_lt hi.pos) ha.next
  case fresh =>
    intro p hp
    have hlt := Nat.lt_of_lt_of_le ha.next hp
    rw [hmnone, hfiles, update_of_ne (Nat.ne_of_gt hlt)]
    exact hi.fresh (Nat.le_of_lt hlt)
  case mounts =>
    intro p m' hp
    have hpn : p ≠ s.heap.next := by
      rintro rfl
      rw [hmnone.mpr hnm] at hp
      cases hp
    rw [hfiles, update_of_ne hpn]
    rw [hmounts, Function.update_apply] at hp
    split at hp
    case isTrue hpe =>
      cases hp
      subst hpe
      refine ⟨(hi.mounts hm).left, (hi.mounts hm).right.left, ?_⟩
      rw [← he] at hg
      exact hholds.gains hg (entOf_lt hholds.pos) rfl (he ▸ hnew hholds)
    case isFalse hne =>
      obtain ⟨htype, hpf, hh⟩ := hi.mounts hp
      exact ⟨htype, hpf, hh.others (Ne.symm hne)⟩
  case known =>
    intro p c hp
    exact hmkept (hi.known hp)
  case letters => exact hi.letters
  case files =>
    intro p f' hp
    rw [hmnone]
    rw [hfiles, Function.update_apply] at hp
    split at hp
    case isTrue hpe =>
      cases hp
      exact ⟨hf, hpe ▸ hnm⟩
    case isFalse => exact hi.files hp
  case entries =>
    intro e' he'
    rcases List.mem_cons.mp he' with rfl | he'
    · exact ⟨by simp [hfiles, he], hms⟩
    · exact ⟨hfkept (hi.entries he').left, (hi.entries he').right⟩
  case root =>
    intro i
    rw [ha.children]
    exact hi.root i
  case leads =>
    intro i d hd
    rw [ha.children] at hd
    exact hmkept (hi.leads hd)

end Add

theorem NamesInv.other {heap : Kmalloc.Heap} (hi : NamesInv ms es s) (h : s.heap.next ≤ heap.next) :
    NamesInv ms es { s with heap } where
  pos      := Nat.lt_of_lt_of_le hi.pos h
  fresh hp := hi.fresh (Nat.le_trans h hp)
  mounts   := hi.mounts
  known    := hi.known
  letters  := hi.letters
  files    := hi.files
  entries  := hi.entries
  root     := hi.root
  leads    := hi.leads

theorem NamesInv.init (hs : Empty s) : NamesInv [] [] s where
  pos        := hs.pos
  fresh _    := ⟨hs.files _, hs.mounts _⟩
  mounts hm  := by rw [hs.mounts] at hm; cases hm
  known hm   := by cases hm
  letters hm := by cases hm
  files hf   := by rw [hs.files] at hf; cases hf
  entries he := by cases he
  root i     := (hs.buckets i).right
  leads hd   := by rw [(hs.buckets _).left] at hd; cases hd

theorem MountRun.inv (hclean : ∀ b i, (leftover b i).datas = [] ∧ (leftover b i).Used)
    (run : MountRun leftover memcpy ms s) (hb : s.heap.next ≤ 2 ^ 64) : NamesInv ms [] s := by
  induction run
  case init hs => exact .init hs
  case mount run _ hk hi =>
    obtain ⟨m, hm⟩ := mountVFS_cases hk
    exact (hi (Nat.le_trans (Nat.le_of_lt hm.next) hb)).mount hclean hm (mountVFS_table hk) hb
  case other run hn hi => exact (hi (Nat.le_trans hn hb)).other hn

theorem AddRun.inv (hclean : ∀ b i, (leftover b i).datas = [] ∧ (leftover b i).Used)
    (run : AddRun leftover memcpy fuel ms es s) (hb : s.heap.next ≤ 2 ^ 64) : NamesInv ms es s := by
  induction run
  case start run => exact run.inv hclean hb
  case add run hms _ _ _ he hk hi =>
    have ha := (addVFSFile_cases hk).next
    have hi := hi (Nat.le_trans (Nat.le_of_lt ha) hb)
    obtain ⟨m, hm⟩ := Option.ne_none_iff_exists'.mp (hi.known hms)
    exact hi.add hm (addVFSFile_table hm (hi.mounts hm).left hk) hms he hb
  case other run hn hi => exact (hi (Nat.le_trans hn.left hb)).other hn.left

theorem NamesInv.sorted (hi : NamesInv ms es s) (hb : s.heap.next ≤ 2 ^ 64) : Sorted s where
  mounts hm  := ⟨(hi.mounts hm).left, (hi.mounts hm).right.left⟩
  files hf   := hi.files hf
  root hd    := hi.leads hd
  tables hm hd := by
    obtain ⟨e, he, _, rfl⟩ := (hi.mounts hm).right.right.data hd
    have hf := (hi.entries he).left
    rwa [toNat_ptr (hi.lt_of_file hf) hb]

end RoverOS.Vfs
