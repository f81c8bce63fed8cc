import RoverOS.Vfs.Theorems.Counts
import RoverOS.Ramdisk.Driver

-- Reading a file through its handle, from `mountVFS` to `readFile`.

open Function (update update_self update_of_ne)
open Bytes (load load_lt)
open Run (Steps)

namespace RoverOS.Vfs

open Kmalloc

variable {leftover : Bytes → Nat → Hashtable.Bucket} {memcpy : Memcpy} {fuel : Nat}
variable {code : Word → Option Driver} {s s' : Vfs} {l l' : Ledger} {p mnt fl : Ptr} {handle : VFile}
variable {d : Word}

-- The calls are of `d`, and each one is at the offset behind the one before.
def Consecutive (d : Word) : Nat → List Reading → Prop
  | _,      []            => True
  | offset, r :: readings =>
    r.called = d ∧ r.offset = offset ∧ Consecutive d (offset + r.count) readings

-- One call of `readFile` for each of the sizes.
def readAll (code : Word → Option Driver) (fl : Ptr) :
    List Nat → Vfs → Except Exit (List (Option Reading) × Vfs)
  | [],        s => .ok ([], s)
  | sz :: szs, s => do
    let (r, s) ← readFile code fl sz s
    let (readings, s) ← readAll code fl szs s
    return (r :: readings, s)

-- The reads deliver the beginning of the contents, piece by piece.
structure Streams (code : Word → Option Driver) (d : Word) (s : Vfs) (fl : Ptr)
    (contents : List (BitVec 8)) (szs : List Nat) : Prop where
  reads : ∃ readings s', readAll code fl szs s = .ok (readings.map some, s') ∧
    Consecutive d 0 readings ∧ (readings.flatMap Reading.bytes) <+: contents ∧
    (s'.handle fl).map VFile.fileOffset = some (readings.map Reading.count).sum ∧
    (readings.map Reading.count).sum ≤ contents.length

section Mount

-- The driver of a mount is never set again.
structure MountedWith (mnt : Ptr) (d : Word) (s : Vfs) : Prop where
  lt    : mnt < s.heap.next
  found : ∃ m, s.mounts mnt = some m ∧ m.mfread = d

theorem Mounted.mountedWith {m : VfsMountpoint} (h : Mounted s mnt m s') :
    MountedWith mnt (BitVec.ofNat 64 (load (s.heap.mem mnt) offsetMfread 8)) s' where
  lt    := h.ptr ▸ h.next
  found := ⟨m, by rw [h.mounts, update_self], h.mfread⟩

theorem Opened.mountedWith (ho : Opened s fl handle s') (hm : MountedWith mnt d s) :
    MountedWith mnt d s' := by
  obtain ⟨hlt, m, hf, hd⟩ := hm
  refine ⟨Nat.lt_trans hlt ho.next, ?_⟩
  have hmounts := ho.mounts
  split at hmounts
  case h_1 => exact ⟨m, hmounts ▸ hf, hd⟩
  case h_2 q _ =>
    obtain ⟨m', hm', h⟩ := hmounts
    rw [h, Function.update_apply]
    split
    case isTrue he =>
      rw [← he, hf] at hm'
      cases hm'
      exact ⟨_, rfl, hd⟩
    case isFalse => exact ⟨m, hf, hd⟩

theorem MountedWith.step {op : Op} (hm : MountedWith mnt d s)
    (h : Step leftover memcpy fuel code (s, l) op (s', l')) : MountedWith mnt d s' := by
  obtain ⟨hlt, m, hf, hd⟩ := hm
  cases h
  case mount h =>
    obtain ⟨m', hm'⟩ := mountVFS_cases h
    refine ⟨Nat.lt_trans hlt hm'.next, m, ?_, hd⟩
    rw [hm'.mounts, hm'.ptr, update_of_ne (Nat.ne_of_lt hlt), hf]
  case add parent _ _ _ _ _ h =>
    have ha := addVFSFile_cases h
    refine ⟨Nat.lt_trans hlt ha.next, ?_⟩
    rcases ha.mounts with h | ⟨m', table, hm', h⟩
    · exact ⟨m, h ▸ hf, hd⟩
    · rw [h, Function.update_apply]
      split
      case isTrue he =>
        rw [← he, hf] at hm'
        cases hm'
        exact ⟨_, rfl, hd⟩
      case isFalse => exact ⟨m, hf, hd⟩
  case «open» h =>
    rcases openFile_cases h with ⟨_, rfl, _⟩ | ⟨fl, handle, _, ho, _⟩
    · exact ⟨hlt, m, hf, hd⟩
    · exact ho.mountedWith ⟨hlt, m, hf, hd⟩
  case close h =>
    rcases closeFile_cases h with ⟨_, rfl⟩ | ⟨fl, handle, _, hc⟩
    · exact ⟨hlt, m, hf, hd⟩
    · exact ⟨hc.next ▸ hlt, m, hc.mounts ▸ hf, hd⟩
  case read h =>
    rw [(readFile_cases h).rest]
    exact ⟨hlt, m, hf, hd⟩
  case other h => exact ⟨Nat.lt_of_lt_of_le hlt h, m, hf, hd⟩

end Mount

section Reads

variable {driver : Driver} {m : VfsMountpoint} {file : VfsFile} {contents : List (BitVec 8)}
variable {offset : Nat}

-- A handle that reads from `offset` on, and all that is used for it.
structure Reader (s : Vfs) (fl : Ptr) (m : VfsMountpoint) (file : VfsFile) (offset : Nat) : Prop where
  handle : ∃ handle mnt, s.handle fl = some handle ∧ handle.mount = some mnt ∧
    s.mounts mnt = some m ∧ s.files handle.file = some file ∧ handle.fileOffset = offset

theorem find?_replaceHandle {handles : List (Ptr × VFile)} {handle' : VFile}
    (h : handles.find? (·.1 = fl) = some (p, handle)) :
    (replaceHandle fl handle' handles).find? (·.1 = fl) = some (fl, handle') := by
  induction handles
  case nil => cases h
  case cons x handles hi =>
    rw [List.find?_cons] at h
    split at h
    case h_1 hx =>
      cases h
      have he : p = fl := of_decide_eq_true hx
      simp [replaceHandle, he]
    case h_2 hx => simp [replaceHandle, of_decide_eq_false hx, hi h]

theorem handle_setHandle {handle' : VFile} (h : s.handle fl = some handle) :
    (s.setHandle fl handle').handle fl = some handle' := by
  obtain ⟨p, hf⟩ := handle_eq_some h
  simp [Vfs.handle, setHandle, find?_replaceHandle hf]

theorem Reader.readFile (h : Reader s fl m file offset) (hd : code m.mfread = some driver) (sz : Nat) :
    ∃ s', readFile code fl sz s = .ok (some {
      called := m.mfread, offset
      count := (driver sz file offset).1, bytes := (driver sz file offset).2 }, s') ∧
      Reader s' fl m file (u64 (offset + (driver sz file offset).1)) := by
  obtain ⟨handle, mnt, hh, hmnt, hm, hf, rfl⟩ := h.handle
  let handle' := { handle with fileOffset := u64 (handle.fileOffset + (driver sz file handle.fileOffset).1) }
  refine ⟨s.setHandle fl handle', ?_, ⟨handle', mnt, handle_setHandle hh, hmnt, hm, hf, rfl⟩⟩
  rw [Vfs.readFile]
  simp only [hh, hmnt, hm, hf, hd, handle']

theorem Reader.called (h : Reader s fl m file offset) {sz : Nat} {r : Reading}
    (hr : Vfs.readFile code fl sz s = .ok (some r, s')) : r.called = m.mfread := by
  obtain ⟨handle, mnt, hh, hmnt, hm, hf, _⟩ := h.handle
  rw [Vfs.readFile] at hr
  simp only [hh, hmnt, hm, hf] at hr
  split at hr <;> cases hr
  rfl

-- From an offset in the file, the reads deliver what is behind it.
theorem Reader.readAll (hd : code m.mfread = some driver) (hr : driver.Reads file contents)
    (szs : List Nat) (h : Reader s fl m file offset) (hle : offset ≤ contents.length) :
    ∃ readings s', readAll code fl szs s = .ok (readings.map some, s') ∧
      Consecutive m.mfread offset readings ∧
      (readings.flatMap Reading.bytes) <+: contents.drop offset ∧
      Reader s' fl m file (offset + (readings.map Reading.count).sum) ∧
      offset + (readings.map Reading.count).sum ≤ contents.length := by
  induction szs generalizing s offset
  case nil => exact ⟨[], s, rfl, trivial, List.nil_prefix, h, hle⟩
  case cons sz szs hi =>
    obtain ⟨s₁, hread, h₁⟩ := h.readFile hd sz
    obtain ⟨t, ht⟩ := hr.bytes sz offset
    have hlen := congrArg List.length ht
    rw [List.length_append, List.length_drop, ← hr.count] at hlen
    have hsize := hr.size_lt
    rw [u64_of_lt (by omega)] at h₁
    obtain ⟨readings, s', hall, hcons, hpre, hend, hsum⟩ := hi h₁ (by omega)
    let r : Reading := {
      called := m.mfread, offset
      count := (driver sz file offset).1, bytes := (driver sz file offset).2 }
    refine ⟨r :: readings, s', ?_, ⟨rfl, rfl, hcons⟩, ?_, ?_, ?_⟩
    · simp only [Vfs.readAll, Except.bind_ok_iff]
      exact ⟨_, hread, _, hall, rfl⟩
    · rw [← List.drop_drop, ← ht, hr.count, List.drop_left] at hpre
      rw [List.flatMap_cons, ← ht]
      exact List.prefix_append_right_inj _ |>.mpr hpre
    · rwa [List.map_cons, List.sum_cons, ← Nat.add_assoc]
    · rwa [List.map_cons, List.sum_cons, ← Nat.add_assoc]

theorem Reader.fileOffset (h : Reader s fl m file offset) :
    (s.handle fl).map VFile.fileOffset = some offset := by
  obtain ⟨handle, _, hh, _, _, _, ho⟩ := h.handle
  rw [hh, Option.map_some, ho]

-- The first call goes to the address that the mount has, and begins at the offset that the handle has.
theorem Reader.streams_iff (h : Reader s fl m file offset) (hd : code d = some driver)
    (hr : driver.Reads file contents) :
    (∀ szs, Streams code d s fl contents szs) ↔ m.mfread = d ∧ offset = 0 := by
  constructor
  · intro hs
    obtain ⟨readings, s', hread, _, _, hoff, _⟩ := (hs []).reads
    obtain ⟨hrd, hs'⟩ := Prod.mk.inj (Except.ok.inj hread)
    rw [← hs', h.fileOffset, List.map_eq_nil_iff.mp hrd.symm] at hoff
    refine ⟨?_, Option.some.inj hoff⟩
    obtain ⟨readings, s', hread, hcons, _⟩ := (hs [0]).reads
    simp only [Vfs.readAll, Except.bind_ok_iff] at hread
    obtain ⟨⟨r, s₁⟩, hread, _, hnil, hrd⟩ := hread
    cases hnil
    cases readings
    case nil => cases hrd
    case cons reading readings =>
      obtain ⟨hrd, _⟩ := Prod.mk.inj (Except.ok.inj hrd)
      obtain ⟨rfl, _⟩ := List.cons.inj hrd
      exact (h.called hread).symm.trans hcons.left
  · rintro ⟨rfl, rfl⟩ szs
    obtain ⟨readings, s', hall, hcons, hpre, hend, hsum⟩ := h.readAll hd hr szs (Nat.zero_le _)
    rw [Nat.zero_add] at hend hsum
    exact ⟨readings, s', hall, hcons, hpre, hend.fileOffset, hsum⟩

theorem Opened.handle_eq (ho : Opened s fl handle s') : s'.handle fl = some handle := by
  simp [Vfs.handle, ho.handles]

theorem MountedWith.of_steps {s₁ s₂ : Vfs} {l₁ l₂ : Ledger} (hm : MountedWith mnt d s₁)
    (run : Steps (Step leftover memcpy fuel code) (fun _ _ => True) (s₁, l₁) (s₂, l₂)) :
    MountedWith mnt d s₂ :=
  run.invariant (I := fun t => MountedWith mnt d t.1) hm fun hm _ h => hm.step h

-- What is left over in the mount's memory must be the driver, and in the handle's memory zero.
theorem stream_iff {s₀ s₁ s₂ s₃ : Vfs} {l₁ l₂ : Ledger} {type childCount flags : Nat} {letter : Ptr}
    {path : Nat → Ptr} (hm : mountVFS leftover memcpy type childCount letter flags d s₀ = .ok (mnt, s₁))
    (run : Steps (Step leftover memcpy fuel code) (fun _ _ => True) (s₁, l₁) (s₂, l₂))
    (ho : openFile fuel path s₂ = .ok (some fl, s₃)) (hh : s₃.handle fl = some handle)
    (hmnt : handle.mount = some mnt) (hf : s₃.files handle.file = some file)
    (hd : code d = some driver) (hr : driver.Reads file contents) :
    (∀ szs, Streams code d s₃ fl contents szs) ↔
      BitVec.ofNat 64 (load (s₀.heap.mem s₀.heap.next) offsetMfread 8) = d ∧
        load (s₂.heap.mem s₂.heap.next) offsetFileOffset 8 = 0 := by
  obtain ⟨m₀, hmounted⟩ := mountVFS_cases hm
  rcases openFile_cases ho with ⟨hn, _⟩ | ⟨fl', handle', he, hopen, _⟩
  · cases hn
  · cases he
    cases Option.some.inj (hopen.handle_eq.symm.trans hh)
    obtain ⟨_, m, hm₃, hmfread⟩ := hopen.mountedWith (hmounted.mountedWith.of_steps run)
    have h : Reader s₃ fl m file handle.fileOffset := ⟨handle, mnt, hh, hmnt, hm₃, hf, rfl⟩
    rw [h.streams_iff hd hr, hmfread, hmounted.ptr, hopen.offset, hopen.ptr]

end Reads

section Examples

def exampleCode (d a : Word) : Option Driver :=
  if a = d then some (Ramdisk.ramdiskReadFile (fun a => [1, 2, 3].getD (a - 0x1000) 0) 0 0x1000) else none

def exampleFile : VfsFile where
  header     := { type := vfsTypeFile, flags := 0, length := sizeofVfsFile }
  name       := 1
  phys       := 0
  size       := 3
  references := 1

theorem exampleFile_reads :
    (Ramdisk.ramdiskReadFile (fun a => [1, 2, 3].getD (a - 0x1000) 0) 0 0x1000).Reads exampleFile [1, 2, 3] := by
  have hp : u64 (sub64 exampleFile.phys 0 + 0x1000) = 0x1000 := by decide
  exact Ramdisk.ramdiskReadFile_reads rfl (by decide) hp ⟨rfl, rfl, rfl, trivial⟩ (by decide)

theorem exampleFile_opened : openFile 10 (2 + ·) oneFile = .ok (some 104, oneHandle) := by rfl

theorem oneFile_steps (l : Ledger) : Steps (Step (fun _ _ => unusedBucket) (fun d _ _ => d) 10 (exampleCode 7))
    (fun _ _ => True) (oneMount, l) (oneFile, l) := by
  have ha : addVFSFile (fun d _ _ => d) 10 100 1 0 3 0 oneMount = .ok (true, oneFile) := by rfl
  exact (Steps.refl _).step trivial (.add ha)

theorem stream_twoReads : Streams (exampleCode 7) 7 oneHandle 104 [1, 2, 3] [2, 2] := by
  have hm : mountVFS (fun _ _ => unusedBucket) (fun d _ _ => d) 0 1 0 0 7 unusedVfs = .ok (100, oneMount) := by rfl
  have hh : oneHandle.handle 104 = some ⟨103, some 100, 0⟩ := by rfl
  have hf : oneHandle.files 103 = some exampleFile := by rfl
  refine (stream_iff hm (oneFile_steps noLedger) exampleFile_opened hh rfl hf rfl exampleFile_reads).mpr ?_ [2, 2]
  exact ⟨by decide, by decide⟩

-- The mount was made for the driver at 8, and has what was in its memory before.
theorem stream_calls_leftover : ¬∀ (leftover : Bytes → Nat → Hashtable.Bucket) (memcpy : Memcpy)
    (fuel : Nat) (code : Word → Option Driver) (s₀ s₁ s₂ s₃ : Vfs) (l₁ l₂ : Ledger)
    (type childCount flags : Nat) (letter : Ptr) (path : Nat → Ptr) (d : Word) (mnt fl : Ptr)
    (handle : VFile) (file : VfsFile) (driver : Driver) (contents : List (BitVec 8)),
    mountVFS leftover memcpy type childCount letter flags d s₀ = .ok (mnt, s₁) →
    Steps (Step leftover memcpy fuel code) (fun _ _ => True) (s₁, l₁) (s₂, l₂) →
    openFile fuel path s₂ = .ok (some fl, s₃) → s₃.handle fl = some handle →
    handle.mount = some mnt → s₃.files handle.file = some file → code d = some driver →
    driver.Reads file contents → ∀ szs, Streams code d s₃ fl contents szs := by
  intro h
  have hm : mountVFS (fun _ _ => unusedBucket) (fun d _ _ => d) 0 1 0 0 8 unusedVfs = .ok (100, oneMount) := by rfl
  have hh : oneHandle.handle 104 = some ⟨103, some 100, 0⟩ := by rfl
  have hf : oneHandle.files 103 = some exampleFile := by rfl
  have ha : addVFSFile (fun d _ _ => d) 10 100 1 0 3 0 oneMount = .ok (true, oneFile) := by rfl
  have run : Steps (Step (fun _ _ => unusedBucket) (fun d _ _ => d) 10 (exampleCode 8))
      (fun _ _ => True) (oneMount, noLedger) (oneFile, noLedger) :=
    (Steps.refl _).step trivial (.add ha)
  have hs := h _ _ _ _ _ _ _ _ _ _ _ _ _ _ _ _ _ _ _ _ _ _ hm run exampleFile_opened hh rfl hf rfl
    exampleFile_reads
  obtain ⟨m, hmnt, hseven⟩ := Option.map_eq_some_iff.mp
    (by rfl : (oneHandle.mounts 100).map VfsMountpoint.mfread = some 7)
  have hr : Reader oneHandle 104 m exampleFile 0 := ⟨⟨103, some 100, 0⟩, 100, hh, rfl, hmnt, hf, rfl⟩
  have hd := ((hr.streams_iff rfl exampleFile_reads).mp hs).left
  rw [hseven] at hd
  exact absurd hd (by decide)

end Examples

end RoverOS.Vfs
