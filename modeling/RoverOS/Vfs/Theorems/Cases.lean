import RoverOS.Vfs.Basic
import RoverOS.Hashtable.Theorems.Cases

-- What the calls of the file system do to the structures when they return.

open Function (update)
open Bytes (load load_congr)

namespace RoverOS.Vfs

open Kmalloc

variable {leftover : Bytes → Nat → Hashtable.Bucket} {memcpy : Memcpy} {fuel : Nat}
variable {s s' : Vfs} {p mnt fl : Ptr} {h h' : Kmalloc.Heap} {sz : Nat}

-- The redzone is behind the block.
theorem load_grow {off n : Nat} (hn : off + n ≤ sz) :
    load ((h.grow sz).mem h.next) off n = load (h.mem h.next) off n := by
  apply load_congr
  intro i _ hi
  simp only [Kmalloc.Heap.grow, Function.update_self, setRedzone]
  rw [if_neg (by omega)]

theorem hashtableCreate_next {buckets : Nat} {r : Ptr × Ptr × Hashtable}
    (hk : Hashtable.hashtableCreate leftover buckets h = .ok (r, h')) : h.next ≤ h'.next := by
  obtain ⟨⟨table, h₁⟩, hk₁, hk⟩ := Except.bind_ok_iff.mp hk
  cases table
  case none => cases hk
  case some table =>
    obtain ⟨⟨array, h₂⟩, hk₂, hk⟩ := Except.bind_ok_iff.mp hk
    cases array
    case none => cases hk
    case some array =>
      cases hk
      rw [(kmalloc_some hk₂).right, (kmalloc_some hk₁).right]
      exact Nat.le_trans (Nat.le_succ _) (Nat.le_succ _)

theorem insert_next {table table' : Hashtable} {data : Word} {hash : Ptr} {bytes : Nat}
    {flags : BitVec 8}
    (hk : Hashtable.hashtableInsert memcpy table data hash bytes flags h = .ok (table', h')) :
    h.next ≤ h'.next := by
  obtain ⟨thsh, h₁, hc, hi⟩ := Hashtable.insert_cases hk
  have hc : h.next ≤ h₁.next := by
    cases hc
    case given | null => exact Nat.le_refl _
    case copy hg      => exact hg.next ▸ Nat.le_succ _
  apply Nat.le_trans hc
  cases hi
  case head | reuse => exact Nat.le_refl _
  case append hg    => exact hg.next ▸ Nat.le_succ _

-- The new mount has what is left over in the fields that are not set.
structure Mounted (s : Vfs) (mnt : Ptr) (m : VfsMountpoint) (s' : Vfs) : Prop where
  ptr        : mnt = s.heap.next
  next       : s.heap.next < s'.heap.next
  mounts     : s'.mounts = update s.mounts mnt (some m)
  files      : s'.files = s.files
  handles    : s'.handles = s.handles
  references : m.references = load (s.heap.mem mnt) offsetReferences 2
  mfread     : m.mfread = BitVec.ofNat 64 (load (s.heap.mem mnt) offsetMfread 8)

theorem mountVFS_cases {type childCount flags : Nat} {letter : Ptr} {d : Word}
    (hk : mountVFS leftover memcpy type childCount letter flags d s = .ok (mnt, s')) :
    ∃ m, Mounted s mnt m s' := by
  obtain ⟨⟨ptr, h₁⟩, hk₁, hk⟩ := Except.bind_ok_iff.mp hk
  cases ptr
  case none => cases hk
  case some ptr =>
    obtain ⟨⟨⟨_, _, table⟩, h₂⟩, hk₂, hk⟩ := Except.bind_ok_iff.mp hk
    obtain ⟨⟨children, h₃⟩, hk₃, hk⟩ := Except.bind_ok_iff.mp hk
    cases hk
    obtain ⟨rfl, rfl⟩ := kmalloc_some hk₁
    refine ⟨_, rfl, ?_, rfl, rfl, rfl, load_grow (by decide), ?_⟩
    · exact Nat.lt_of_lt_of_le (Nat.lt_succ_self _)
        (Nat.le_trans (hashtableCreate_next hk₂) (insert_next hk₃))
    · dsimp only
      rw [load_grow (by decide)]

-- A new file without references. The parent gets another table.
structure FileAdded (s : Vfs) (parent : Ptr) (s' : Vfs) : Prop where
  next    : s.heap.next < s'.heap.next
  files   : ∃ f, s'.files = update s.files s.heap.next (some f) ∧ f.references = 0
  handles : s'.handles = s.handles
  mounts  : s'.mounts = s.mounts ∨
    ∃ m table, s.mounts parent = some m ∧ s'.mounts = update s.mounts parent (some { m with table })

theorem addVFSFile_cases {parent name : Ptr} {phys size flags : Nat} {r : Bool}
    (hk : addVFSFile memcpy fuel parent name phys size flags s = .ok (r, s')) :
    FileAdded s parent s' := by
  obtain ⟨⟨ptr, h₁⟩, hk₁, hk⟩ := Except.bind_ok_iff.mp hk
  cases ptr
  case none => cases hk
  case some ptr =>
    obtain ⟨rfl, rfl⟩ := kmalloc_some hk₁
    obtain ⟨type, -, hk⟩ := Except.bind_ok_iff.mp hk
    split at hk
    case isFalse =>
      cases hk
      exact ⟨Nat.lt_succ_self _, ⟨_, rfl, rfl⟩, rfl, .inl rfl⟩
    case isTrue =>
      cases hm : s.mounts parent
      case none =>
        simp only [hm] at hk
        cases hk
      case some m =>
        simp only [hm, Except.bind_ok_iff] at hk
        obtain ⟨bytes, _, ⟨table, h₂⟩, hk₂, hk⟩ := hk
        cases hk
        refine ⟨?_, ⟨_, rfl, rfl⟩, rfl, .inr ⟨m, table, hm, rfl⟩⟩
        exact Nat.lt_of_lt_of_le (Nat.lt_succ_self _) (insert_next hk₂)

-- One more handle, and one more reference to the file and to the mount.
structure Opened (s : Vfs) (fl : Ptr) (handle : VFile) (s' : Vfs) : Prop where
  ptr     : fl = s.heap.next
  next    : s.heap.next < s'.heap.next
  offset  : handle.fileOffset = load (s.heap.mem fl) offsetFileOffset 8
  handles : s'.handles = (fl, handle) :: s.handles
  files   : ∃ file, s.files handle.file = some file ∧
    s'.files = update s.files handle.file (some file.retain)
  mounts  : match handle.mount with
    | none   => s'.mounts = s.mounts
    | some p => ∃ m, s.mounts p = some m ∧ s'.mounts = update s.mounts p (some m.retain)

theorem openFile_cases {path : Nat → Ptr} {r : Option Ptr} (hk : openFile fuel path s = .ok (r, s')) :
    (r = none ∧ s' = s ∧ ∀ header m, parsePath fuel path s = .ok (some header, m) →
      s.headerType header ≠ .ok vfsTypeFile) ∨
    ∃ fl handle, r = some fl ∧ Opened s fl handle s' ∧
      parsePath fuel path s = .ok (some handle.file, handle.mount) := by
  obtain ⟨⟨header, mnt⟩, hp, hk⟩ := Except.bind_ok_iff.mp hk
  rcases header with _ | header
  · cases hk
    refine .inl ⟨rfl, rfl, fun header m h => ?_⟩
    cases hp.symm.trans h
  · obtain ⟨type, ht, hk⟩ := Except.bind_ok_iff.mp hk
    split at hk
    case isTrue hne =>
      cases hk
      refine .inl ⟨rfl, rfl, fun header m h hf => ?_⟩
      cases hp.symm.trans h
      exact hne (Except.ok.inj (ht.symm.trans hf))
    case isFalse =>
      obtain ⟨⟨ptr, h₁⟩, hk₁, hk⟩ := Except.bind_ok_iff.mp hk
      dsimp only at hk
      split at hk
      case h_2 => cases hk
      case h_1 fl file hf =>
        obtain ⟨rfl, rfl⟩ := kmalloc_some hk₁
        have hoff := @load_grow s.heap sizeofVFile offsetFileOffset 8 (by decide)
        let offset := load ((s.heap.grow sizeofVFile).mem s.heap.next) offsetFileOffset 8
        rcases mnt with _ | p
        · cases hk
          refine .inr ⟨s.heap.next, ⟨header, none, offset⟩, rfl, ?_, hp⟩
          constructor
          case offset => exact hoff
          case files  => exact ⟨file, hf, rfl⟩
          case next   => exact Nat.lt_succ_self _
          all_goals rfl
        · rcases hm : s.mounts p with _ | m
          · simp only [hm] at hk
            cases hk
          · simp only [hm] at hk
            cases hk
            refine .inr ⟨s.heap.next, ⟨header, some p, offset⟩, rfl, ?_, hp⟩
            constructor
            case offset => exact hoff
            case files  => exact ⟨file, hf, rfl⟩
            case mounts => exact ⟨m, hm, rfl⟩
            case next   => exact Nat.lt_succ_self _
            all_goals rfl

-- One handle less, and one reference to the file less.
structure Closed (s : Vfs) (fl : Ptr) (handle : VFile) (s' : Vfs) : Prop where
  found   : s.handle fl = some handle
  next    : s'.heap.next = s.heap.next
  handles : s'.handles = s.dropHandle fl
  files   : ∃ file, s.files handle.file = some file ∧
    s'.files = update s.files handle.file (some file.release)
  mounts  : s'.mounts = s.mounts

theorem closeFile_cases {r : Option Ptr} (hk : closeFile r s = .ok s') :
    (r = none ∧ s' = s) ∨ ∃ fl handle, r = some fl ∧ Closed s fl handle s' := by
  cases r
  case none =>
    cases hk
    exact .inl ⟨rfl, rfl⟩
  case some fl =>
    simp only [closeFile] at hk
    split at hk
    case h_1 => cases hk
    case h_2 handle hh =>
      split at hk
      case h_1 => cases hk
      case h_2 file hf =>
        obtain ⟨h₁, hk₁, hk⟩ := Except.bind_ok_iff.mp hk
        cases hk
        obtain ⟨_, _, _, _, _, _, rfl⟩ := kfree_cases hk₁
        exact .inr ⟨fl, handle, rfl, hh, rfl, rfl, ⟨file, hf, rfl⟩, rfl⟩

end RoverOS.Vfs
