import RoverOS.Vfs.Theorems.Stream

-- Seeking in a file, against a cursor that stays between the file's ends.

namespace RoverOS.Vfs

open Kmalloc

variable {s s' : Vfs} {fl : Ptr} {file : VfsFile} {size old offset : Nat}

inductive Seek
  | set
  | fromEnd
  | cur

def Seek.value : Seek → Nat
  | .set     => vfsSeekSet
  | .fromEnd => vfsSeekEnd
  | .cur     => vfsSeekCur

-- Where the cursor is after the call.
def Seek.target (size old offset : Nat) : Seek → Nat
  | .set     => min offset size
  | .fromEnd => size - min offset size
  | .cur     => min (old + offset) size

-- The test adds the old offset in every mode, and only there.
def Seek.Lands (size old offset : Nat) : Seek → Prop
  | .set | .fromEnd => old + offset < size ∨ size ≤ offset ∧ old + offset < 2 ^ 64
  | .cur            => old + offset < 2 ^ 64 ∧ (size ≤ old + offset ∨ old = 0)

variable {seek : Seek}

theorem Seek.target_le : seek.target size old offset ≤ size := by
  cases seek
  case set     => exact Nat.min_le_right _ _
  case fromEnd => exact Nat.sub_le _ _
  case cur     => exact Nat.min_le_right _ _

theorem seekOffset_value (size old offset : Nat) (seek : Seek) : ∃ o, seekOffset size old offset seek.value = some o := by
  cases seek
  case set     => exact ⟨_, rfl⟩
  case fromEnd => exact ⟨_, rfl⟩
  case cur     => exact ⟨_, rfl⟩

-- When the sum wraps around, it is less than the size.
theorem seekOffset_eq_iff (seek : Seek) (hs : size < 2 ^ 32) (hold : old ≤ size) (ho : offset < 2 ^ 64) :
    seekOffset size old offset seek.value = some (seek.target size old offset) ↔
      seek.Lands size old offset := by
  have hsum : u64 (offset + old) = if old + offset < 2 ^ 64 then old + offset else old + offset - 2 ^ 64 := by
    simp only [u64]
    split <;> omega
  have hsub (h : offset ≤ size) : sub64 size offset = size - offset := sub64_of_le h (by omega)
  have hwrap (h : size < offset) : sub64 size offset = size + 2 ^ 64 - offset := by
    simp only [sub64, u64]
    omega
  cases seek
  case set =>
    simp only [seekOffset, Seek.value, Seek.target, Seek.Lands, vfsSeekSet, vfsSeekEnd, vfsSeekCur, hsum]
    grind
  case fromEnd =>
    simp only [seekOffset, Seek.value, Seek.target, Seek.Lands, vfsSeekSet, vfsSeekEnd, vfsSeekCur, hsum]
    grind
  case cur =>
    simp only [seekOffset, Seek.value, Seek.target, Seek.Lands, vfsSeekSet, vfsSeekEnd, vfsSeekCur, hsum]
    grind

section Run

-- A call of `fileSeek`, with an offset of 64 bits.
structure SeekCall where
  seek   : Seek
  offset : Nat
  lt     : offset < 2 ^ 64

-- Every call moves the handle to where the cursor is, and returns that.
def Follows (size : Nat) (fl : Ptr) : Nat → Vfs → List SeekCall → Prop
  | _,   _, []         => True
  | old, s, c :: calls =>
    ∃ s', fileSeek fl c.offset c.seek.value s = .ok (c.seek.target size old c.offset, s') ∧
      (s'.handle fl).map VFile.fileOffset = some (c.seek.target size old c.offset) ∧
      c.seek.target size old c.offset ≤ size ∧ Follows size fl (c.seek.target size old c.offset) s' calls

def LandsAll (size : Nat) : Nat → List SeekCall → Prop
  | _,   []         => True
  | old, c :: calls =>
    c.seek.Lands size old c.offset ∧ LandsAll size (c.seek.target size old c.offset) calls

-- A handle that is at `offset` of a file.
structure At (s : Vfs) (fl : Ptr) (size offset : Nat) : Prop where
  handle : ∃ handle file, s.handle fl = some handle ∧ s.files handle.file = some file ∧
    file.size = size ∧ handle.fileOffset = offset

theorem At.fileSeek (h : At s fl size old) (offset : Nat) (seek : Seek) :
    ∃ o s', fileSeek fl offset seek.value s = .ok (o, s') ∧ At s' fl size o ∧
      seekOffset size old offset seek.value = some o := by
  obtain ⟨handle, file, hh, hf, rfl, rfl⟩ := h.handle
  obtain ⟨o, ho⟩ := seekOffset_value file.size handle.fileOffset offset seek
  let handle' := { handle with fileOffset := o }
  refine ⟨o, s.setHandle fl handle', ?_, ⟨handle', file, handle_setHandle hh, hf, rfl, rfl⟩, ho⟩
  rw [Vfs.fileSeek]
  simp only [hh, hf, ho, handle']

theorem At.fileOffset (h : At s fl size old) : (s.handle fl).map VFile.fileOffset = some old := by
  obtain ⟨handle, _, hh, _, _, ho⟩ := h.handle
  rw [hh, Option.map_some, ho]

theorem At.follows_iff {calls : List SeekCall} (hs : size < 2 ^ 32) (hold : old ≤ size) (h : At s fl size old) :
    Follows size fl old s calls ↔ LandsAll size old calls := by
  induction calls generalizing old s
  case nil => exact ⟨fun _ => trivial, fun _ => trivial⟩
  case cons c calls hi =>
    obtain ⟨o, s', hseek, hat, ho⟩ := h.fileSeek c.offset c.seek
    have hlands := seekOffset_eq_iff c.seek hs hold c.lt
    rw [ho, Option.some_inj] at hlands
    constructor
    case mp =>
      rintro ⟨s'', he, _, hle, hrest⟩
      obtain ⟨rfl, rfl⟩ := Prod.mk.inj (Except.ok.inj (hseek.symm.trans he))
      exact ⟨hlands.mp rfl, (hi hle hat).mp hrest⟩
    case mpr =>
      rintro ⟨hl, hrest⟩
      obtain rfl := hlands.mpr hl
      exact ⟨s', hseek, hat.fileOffset, Seek.target_le, (hi Seek.target_le hat).mpr hrest⟩

-- The first call starts at the beginning of the file.
theorem fileSeek_follows_iff {handle : VFile} (calls : List SeekCall) (hh : s.handle fl = some handle)
    (hf : s.files handle.file = some file) (hs : file.size < 2 ^ 32) (h0 : handle.fileOffset = 0) :
    Follows file.size fl 0 s calls ↔ LandsAll file.size 0 calls :=
  At.follows_iff hs (Nat.zero_le _) ⟨handle, file, hh, hf, rfl, h0⟩

end Run

section Examples

theorem oneHandle_handle : oneHandle.handle 104 = some ⟨103, some 100, 0⟩ := by rfl

-- One byte on, to the last byte, and to an offset behind the end, which stops at the end.
theorem fileSeek_follows_back :
    Follows 3 104 0 oneHandle [⟨.cur, 1, by decide⟩, ⟨.fromEnd, 1, by decide⟩, ⟨.set, 5, by decide⟩] := by
  have hf : oneHandle.files 103 = some exampleFile := by rfl
  refine (fileSeek_follows_iff _ oneHandle_handle hf (by decide) rfl).mpr ⟨?_, ?_, ?_, trivial⟩
  · exact ⟨by decide, .inr rfl⟩
  · exact .inl (by decide)
  · exact .inr ⟨by decide, by decide⟩

-- A file of 3 bytes: from the offset 2, the beginning is not reached again.
theorem fileSeek_not_rewound : ¬∀ (s : Vfs) (fl : Ptr) (handle : VFile) (file : VfsFile) (calls : List SeekCall),
    s.handle fl = some handle → s.files handle.file = some file → file.size < 2 ^ 32 → handle.fileOffset = 0 →
    Follows file.size fl 0 s calls := by
  intro h
  have hf : oneHandle.files 103 = some exampleFile := by rfl
  have hfollows := h _ _ _ _ [⟨.set, 2, by decide⟩, ⟨.set, 1, by decide⟩] oneHandle_handle hf (by decide) rfl
  have hat : At oneHandle 104 3 0 := ⟨_, _, oneHandle_handle, hf, rfl, rfl⟩
  obtain ⟨_, hlands, _⟩ := (hat.follows_iff (by decide) (by decide)).mp hfollows
  simp [Seek.Lands, Seek.target] at hlands

end Examples

end RoverOS.Vfs
