import RoverOS.Ramdisk.Basic

-- What `addFile` and `main` write.

namespace RoverOS.Ramdisk

open Bytes (bytesOf)

variable {file : File} {files : List File} {fp name disk : List Byte} {sl n : Nat}

theorem getD_separator {i : Nat} (h : IsSeparator (fp.getD i 0)) : i < fp.length := by
  by_contra hi
  rw [List.getD_eq_getElem?_getD, List.getElem?_eq_none (by omega)] at h
  exact absurd h (by decide)

-- The separator that is found is the last one.
theorem findSeparator_last (h : findSeparator fp n = .ok sl) :
    IsSeparator (fp.getD sl 0) ∧ ∀ i, sl < i → i ≤ n → ¬IsSeparator (fp.getD i 0) := by
  induction n
  case zero =>
    simp only [findSeparator] at h
    split at h <;> cases h
    case isTrue hs => exact ⟨hs, fun i hi hn => absurd hn (by omega)⟩
  case succ n hi =>
    simp only [findSeparator] at h
    split at h
    case isTrue hs =>
      cases h
      exact ⟨hs, fun i hi hn => absurd hn (by omega)⟩
    case isFalse hs =>
      refine ⟨(hi h).left, fun i hl hn => ?_⟩
      rcases Nat.lt_or_ge n i with hn' | hn'
      · rwa [(by omega : i = n + 1)]
      · exact (hi h).right i hl hn'

theorem findSeparator_finds {i : Nat} (hi : i ≤ n) (hs : IsSeparator (fp.getD i 0)) :
    ∃ sl, findSeparator fp n = .ok sl := by
  induction n
  case zero =>
    have h0 : i = 0 := by omega
    subst h0
    exact ⟨0, if_pos hs⟩
  case succ n hn =>
    simp only [findSeparator]
    split
    case isTrue => exact ⟨_, rfl⟩
    case isFalse ht =>
      refine hn (Nat.le_of_lt_succ (Nat.lt_of_le_of_ne hi ?_))
      rintro rfl
      exact ht hs

theorem path_length : file.path.length = file.dir.length + 1 + file.name.length := by
  simp [File.path]
  omega

theorem path_slash : file.path.getD file.dir.length 0 = slash := by
  simp [File.path]

theorem path_name (i : Nat) : file.path.getD (file.dir.length + 1 + i) 0 = file.name.getD i 0 := by
  simp [File.path, List.getElem?_append_right, Nat.add_assoc, Nat.add_comm 1]

theorem path_drop : file.path.drop (file.dir.length + 1) = file.name := by
  simp [File.path, List.drop_append]

theorem name_separator {i : Nat} (h : IsSeparator (file.name.getD i 0)) :
    backslash ∈ file.name := by
  have hi := getD_separator h
  rw [List.getD_eq_getElem _ _ hi] at h
  rcases h with h | h
  · exact h ▸ List.getElem_mem hi
  · exact absurd (h ▸ List.getElem_mem hi) file.noSlash

-- The name that is written is the base name, but for a `\` in it.
theorem drop_eq_name_iff (h : findSeparator file.path file.path.length = .ok sl) :
    file.path.drop (sl + 1) = file.name ↔ sl = file.dir.length := by
  have hs := getD_separator (findSeparator_last h).left
  constructor
  · intro hn
    have hl := congrArg List.length hn
    rw [List.length_drop] at hl
    have hp := @path_length file
    omega
  · rintro rfl
    exact path_drop

theorem separator_eq_iff (h : findSeparator file.path file.path.length = .ok sl) :
    sl = file.dir.length ↔ backslash ∉ file.name := by
  have hl := findSeparator_last h
  have hp := @path_length file
  constructor
  · rintro rfl hb
    obtain ⟨i, hi, hb⟩ := List.getElem_of_mem hb
    refine hl.right (file.dir.length + 1 + i) (by omega) (by omega) ?_
    rw [path_name, List.getD_eq_getElem _ _ hi]
    exact .inl hb
  · intro hb
    rcases Nat.lt_trichotomy sl file.dir.length with hd | hd | hd
    · exact absurd (.inr path_slash) (hl.right file.dir.length hd (by omega))
    · exact hd
    · obtain ⟨i, rfl⟩ := Nat.exists_eq_add_of_lt hd
      have hs := hl.left
      rw [(by omega : file.dir.length + i + 1 = file.dir.length + 1 + i), path_name] at hs
      exact absurd (name_separator hs) hb

-- `name` is what `addFile` writes as the file's name, and it has room in the buffer.
def Writes (file : File) (name : List Byte) : Prop :=
  ∃ sl, findSeparator file.path file.path.length = .ok sl ∧ name = file.path.drop (sl + 1) ∧
    name.length ≤ sl + 1

-- A file whose name is written in full.
structure Plain (file : File) : Prop where
  noBackslash : backslash ∉ file.name
  fits        : file.name.length ≤ file.dir.length + 1
  short       : file.name.length < 2 ^ 32

theorem Writes.noNul (h : Writes file name) : 0#8 ∉ name := by
  obtain ⟨sl, _, rfl, _⟩ := h
  exact fun hn => file.noNul (List.mem_of_mem_drop hn)

theorem Plain.writes (h : Plain file) : Writes file file.name := by
  obtain ⟨sl, hs⟩ := @findSeparator_finds file.path file.path.length file.dir.length
    (by rw [path_length]; omega) (.inr path_slash)
  have hl := (separator_eq_iff hs).mpr h.noBackslash
  subst hl
  exact ⟨_, hs, path_drop.symm, h.fits⟩

theorem Writes.plain (h : Writes file file.name) (hn : file.name.length < 2 ^ 32) : Plain file := by
  obtain ⟨sl, hs, hd, hl⟩ := h
  have hsl := (drop_eq_name_iff hs).mp hd.symm
  exact ⟨(separator_eq_iff hs).mp hsl, hsl ▸ hl, hn⟩

theorem Writes.unique {name' : List Byte} (h : Writes file name) (h' : Writes file name') :
    name = name' := by
  obtain ⟨sl, hs, hn, _⟩ := h
  obtain ⟨sl', hs', hn', _⟩ := h'
  cases Except.ok.inj (hs.symm.trans hs')
  rw [hn, hn']

-- The records of the files on the disk.
inductive Records : List File → List Byte → Prop
  | nil : Records [] []
  | cons {file : File} {files : List File} {name disk : List Byte} :
    Writes file name → Records files disk →
    Records (file :: files) (record name file.contents ++ disk)

theorem records_of_plain (h : ∀ f ∈ files, Plain f) : ∃ disk, Records files disk := by
  induction files
  case nil => exact ⟨[], .nil⟩
  case cons f files hi =>
    obtain ⟨hf, h⟩ := List.forall_mem_cons.mp h
    obtain ⟨disk, hr⟩ := hi h
    exact ⟨_, .cons hf.writes hr⟩

theorem addFile_ok_iff {w w' : Writer} : addFile w file = .ok w' ↔
    ∃ name, Writes file name ∧
      w' = { files := u16 (w.files + 1), disk := w.disk ++ record name file.contents } := by
  simp only [addFile, Except.bind_ok_iff]
  constructor
  · rintro ⟨sl, hs, h⟩
    split at h
    case isTrue => cases h
    case isFalse hf =>
      cases h
      exact ⟨_, ⟨sl, hs, rfl, by omega⟩, rfl⟩
  · rintro ⟨name, ⟨sl, hs, rfl, hf⟩, rfl⟩
    refine ⟨sl, hs, if_neg ?_⟩
    omega

theorem addFiles_ok_iff {w w' : Writer} (hn : w.files + files.length < 2 ^ 16) :
    files.foldlM addFile w = .ok w' ↔ ∃ disk, Records files disk ∧
      w' = { files := w.files + files.length, disk := w.disk ++ disk } := by
  induction files generalizing w
  case nil =>
    constructor
    · intro h
      cases h
      exact ⟨[], .nil, by simp⟩
    · rintro ⟨disk, hr, rfl⟩
      cases hr
      simp [pure, Except.pure]
  case cons file files hi =>
    simp only [List.length_cons] at hn
    have hu : u16 (w.files + 1) = w.files + 1 := u16_of_lt (by omega)
    simp only [List.foldlM_cons, Except.bind_ok_iff, addFile_ok_iff]
    constructor
    · rintro ⟨_, ⟨name, hw, rfl⟩, h⟩
      obtain ⟨disk, hr, rfl⟩ := (hi (by simp only [hu]; omega)).mp h
      refine ⟨_, .cons hw hr, ?_⟩
      simp [hu, Nat.add_assoc, Nat.add_comm 1]
    · rintro ⟨_, hr, rfl⟩
      cases hr
      case cons name disk hw hr =>
        refine ⟨_, ⟨name, hw, rfl⟩, (hi (by simp only [hu]; omega)).mpr ⟨disk, hr, ?_⟩⟩
        simp [hu, Nat.add_assoc, Nat.add_comm 1]

theorem length_headerBytes {magic files : Nat} : (headerBytes magic files).length = sizeofHeader := by
  simp [headerBytes, sizeofHeader]

theorem main_ok_iff {image : List Byte} (hn : files.length < 2 ^ 16) :
    main files = .ok image ↔ ∃ disk, Records files disk ∧
      image = headerBytes rdHeaderMagic files.length ++ disk := by
  have hw (w : Writer) := @addFiles_ok_iff files { files := 0, disk := headerBytes 0 0 } w (by simpa using hn)
  simp only [main, Except.bind_ok_iff, hw]
  constructor
  · rintro ⟨_, ⟨disk, hr, rfl⟩, h⟩
    cases h
    refine ⟨disk, hr, ?_⟩
    simp [← @length_headerBytes 0 0]
  · rintro ⟨disk, hr, rfl⟩
    refine ⟨_, ⟨disk, hr, rfl⟩, ?_⟩
    simp [← @length_headerBytes 0 0, pure, Except.pure]

theorem length_record {contents : List Byte} :
    (record name contents).length = sizeofFile + name.length + 1 + contents.length := by
  simp [record, sizeofFile]
  omega

end RoverOS.Ramdisk
