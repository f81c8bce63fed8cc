import RoverOS.Ramdisk.Theorems.RoundTrip
import RoverOS.Ramdisk.Theorems.Request

-- What is read of the files of an image, from the tool that writes it to the driver.

open Bytes (Memory Has bytesOf has_append)

namespace RoverOS.Ramdisk

variable {m : Memory} {file : File} {files : List File} {image disk : List Byte}
variable {fuel mount rdptr virtPtr pos s : Nat}

-- Where the contents of the file are whose record is at `pos`.
def contentsAt (pos : Nat) (file : File) : Nat := pos + sizeofFile + file.name.length + 1

-- The bytes that are read of a file, from `offset` on, when `s` is the size of the first file.
def window (m : Memory) (virtPtr s pos : Nat) (file : File) (offset : Nat) : List Byte :=
  readLoop m (sub64 (virtPtr + contentsAt pos file + offset + file.size) s) 0 (file.size - offset)

-- The file is added by its name and with its size. The driver reads as many bytes as there are in the file, whatever
-- is requested, but so far behind the contents as the file is larger than the first one.
structure Serves (m : Memory) (image : List Byte) (rdptr virtPtr s pos : Nat) (file : File) (call : AddCall) :
    Prop where
  name      : HasString m call.name file.name
  size      : call.size = file.size
  stored    : (image.drop (contentsAt pos file)).take file.size = file.contents
  reads     : ∀ fl : VfsFile, fl.phys = call.phys → fl.size = call.size → ∀ sz offset,
    ramdiskReadFile m rdptr virtPtr sz fl offset = (file.size - offset, window m virtPtr s pos file offset)
  right_iff : (∀ fl : VfsFile, fl.phys = call.phys → fl.size = call.size → ∀ sz offset,
    (ramdiskReadFile m rdptr virtPtr sz fl offset).2 = file.contents.drop offset) ↔
      window m virtPtr s pos file 0 = file.contents
  own       : file.size = s → window m virtPtr s pos file 0 = file.contents

inductive ServesAll (m : Memory) (image : List Byte) (rdptr virtPtr s : Nat) :
    Nat → List File → List AddCall → Prop
  | nil {pos : Nat} : ServesAll m image rdptr virtPtr s pos [] []
  | cons {pos : Nat} {file : File} {files : List File} {call : AddCall} {calls : List AddCall} :
    Serves m image rdptr virtPtr s pos file call →
    ServesAll m image rdptr virtPtr s (pos + (record file.name file.contents).length) files calls →
    ServesAll m image rdptr virtPtr s pos (file :: files) (call :: calls)

section Window

-- What is read from an offset on is the rest of what is read from the start on.
theorem window_drop (m : Memory) (virtPtr pos : Nat) (file : File) (offset : Nat) (hs : s < 2 ^ 32) :
    window m virtPtr s pos file offset = (window m virtPtr s pos file 0).drop offset := by
  apply List.ext_getElem?
  intro k
  rw [List.getElem?_drop]
  by_cases hk : k < file.size - offset
  case neg =>
    have hl (o : Nat) : (window m virtPtr s pos file o).length = file.size - o := readLoop_length
    rw [List.getElem?_eq_none (by rw [hl]; omega), List.getElem?_eq_none (by rw [hl]; omega)]
  case pos =>
    rw [window, window, readLoop_get hk, readLoop_get (by omega)]
    congr 2
    simp only [sub64, u64]
    omega

-- With the first file's size, the window is where the contents are.
theorem window_own (hm : Has m (virtPtr + contentsAt pos file) file.contents)
    (hv : virtPtr + contentsAt pos file + file.size ≤ 2 ^ 64) (hz : file.size = s) :
    window m virtPtr s pos file 0 = file.contents := by
  by_cases he : file.size = 0
  case pos =>
    rw [window, he]
    exact (List.eq_nil_of_length_eq_zero he).symm
  case neg =>
    have ha : sub64 (virtPtr + contentsAt pos file + 0 + file.size) s = virtPtr + contentsAt pos file := by
      rw [sub64_eq (by omega) (by omega)]
      omega
    rw [window, ha]
    exact readLoop_eq hm hv (Nat.add_zero _)

end Window

section Record

variable {p physPtr : Nat}

-- Where the driver reads from `offset` on, when the file's address is off.
theorem driver_address {fl : VfsFile} {size : Nat} (hs : s < 2 ^ 32) (hr : rdptr < 2 ^ 64) (hz : size < 2 ^ 32)
    (hphys : (fl.phys + s) % 2 ^ 64 = (rdptr + pos + size) % 2 ^ 64) (hl : fl.phys < 2 ^ 64) (offset : Nat) :
    u64 (sub64 fl.phys rdptr + virtPtr + offset) = sub64 (virtPtr + pos + offset + size) s := by
  simp only [sub64, u64]
  omega

theorem serves_of_recorded (mount : Nat) (hp : Plain file)
    (hrec : Recorded m (virtPtr + pos) file.name file.contents disk)
    (hm : Has m (virtPtr + pos) (record file.name file.contents ++ disk))
    (hd : image.drop pos = record file.name file.contents ++ disk) (hs : s < 2 ^ 32) (hr : rdptr < 2 ^ 64)
    (hv : virtPtr + pos + (record file.name file.contents).length ≤ 2 ^ 64)
    (hc : (physPtr + s) % 2 ^ 64 = (rdptr + pos + file.size) % 2 ^ 64) :
    Serves m image rdptr virtPtr s pos file
      (callOf mount (virtPtr + pos) physPtr file.name.length file.contents.length) := by
  have hz := file.size_lt
  rw [length_record] at hv
  have hname : rdFileName (virtPtr + pos) = virtPtr + pos + sizeofFile := u64_of_lt (by omega)
  have hreads (fl : VfsFile) (hphys : fl.phys = rdFileData physPtr (u32 file.name.length))
      (hsize : fl.size = u32 file.contents.length) (sz offset : Nat) :
      ramdiskReadFile m rdptr virtPtr sz fl offset = (file.size - offset, window m virtPtr s pos file offset) := by
    have hlt : fl.phys < 2 ^ 64 := hphys ▸ Nat.mod_lt _ (by decide)
    have hend : (fl.phys + s) % 2 ^ 64 = (rdptr + contentsAt pos file + file.size) % 2 ^ 64 := by
      rw [hphys, rdFileData, u32_of_lt hp.short, u64, contentsAt]
      omega
    have hfl : fl.size = file.size := hsize.trans (u32_of_lt hz)
    simp only [ramdiskReadFile, hfl, readLoop_length, driver_address hs hr hz hend hlt offset]
    rfl
  have hown : Has m (virtPtr + contentsAt pos file) file.contents := by
    obtain ⟨_, hcontents⟩ := has_append.mp (has_append.mp hm).left
    have hlen : virtPtr + contentsAt pos file = virtPtr + pos +
        (bytesOf rdFileMagic 4 ++ bytesOf file.contents.length 8 ++ (file.name ++ [0#8])).length := by
      simp [contentsAt, sizeofFile]
      omega
    exact hlen ▸ hcontents
  refine ⟨?_, u32_of_lt hz, ?_, hreads, ?_, fun he => window_own hown ?_ he⟩
  case refine_1 => simpa only [callOf, hname] using hrec.string
  case refine_2 =>
    rw [contentsAt, Nat.add_assoc, Nat.add_assoc, ← List.drop_drop, hd]
    rw [record, List.append_assoc, List.drop_left' (by simp [sizeofFile]; omega)]
    exact List.take_left' rfl
  case refine_3 =>
    constructor
    case mp =>
      intro h
      have h₀ := h ⟨⟨0, 0, 0⟩, 0, _, _, 0⟩ rfl rfl 0 0
      rwa [hreads _ rfl rfl] at h₀
    case mpr =>
      intro h fl hphys hsize sz offset
      rw [hreads fl hphys hsize, window_drop m virtPtr pos file offset hs, h]
  case refine_4 =>
    rw [contentsAt]
    have hl : file.size = file.contents.length := rfl
    omega

end Record

section Run

variable {p physPtr : Nat}

theorem readFiles_serves (mount : Nat) (hr : Records files disk) (hp : ∀ f ∈ files, Plain f)
    (hd : image.drop pos = disk) (hm : Has m (virtPtr + pos) disk) (hv : virtPtr + pos + disk.length ≤ 2 ^ 64) (hlt : rdptr < 2 ^ 64)
    (hs : s < 2 ^ 32) (hf : 2 ^ 32 ≤ fuel) (hc : Cursors files rdptr virtPtr pos s p physPtr) :
    ∃ calls, readFiles m fuel mount p physPtr files.length = .ok calls ∧
      ServesAll m image rdptr virtPtr s pos files calls := by
  induction files generalizing disk pos p physPtr
  case nil => exact ⟨[], rfl, .nil⟩
  case cons f files hi =>
    have ⟨hpf, hp⟩ := List.forall_mem_cons.mp hp
    have ⟨name, disk', hw, hr', he, hrec⟩ := hr.recorded hm
    cases hw.unique hpf.writes
    subst he
    have hlen := @length_record f.name f.contents
    rw [List.length_append] at hv
    have hp₀ : p = virtPtr + pos := by rw [hc.file, u64_of_lt (by omega)]
    subst hp₀
    have hd' : image.drop (pos + (record f.name f.contents).length) = disk' := by
      rw [← List.drop_drop, hd, List.drop_left]
    have hm' : Has m (virtPtr + (pos + (record f.name f.contents).length)) disk' := by
      rw [← Nat.add_assoc]
      exact hrec.next
    have ⟨calls, hread, hall⟩ := hi hr' hp hd' hm' (by omega) (hc.next hr' hrec hpf.short (by omega))
    have hserves := serves_of_recorded mount hpf hrec hm hd hs hlt (by omega) (hc.phys f rfl)
    have hfuel := Nat.lt_of_lt_of_le hpf.short hf
    exact ⟨_, readFiles_cons_ok hrec hw.noNul (by omega) hfuel hread, .cons hserves hall⟩

-- Every file of an image with plain names can be read under its name, but what is read of it stands as far behind its
-- contents as the file is larger than the first one. It is right where the bytes there happen to be the same.
theorem ramdisk_serves (hn : files.length ≤ 65535) (hl : Loaded files m rdptr virtPtr) (hm : mount ≠ 0)
    (hf : 2 ^ 32 ≤ fuel) (hp : ∀ f ∈ files, Plain f) :
    ∃ image calls, main files = .ok image ∧ initRamdisk m fuel rdptr virtPtr mount = .ok calls ∧
      ServesAll m image rdptr virtPtr (firstSize files) sizeofHeader files calls := by
  obtain ⟨disk, hr⟩ := records_of_plain hp
  have hi : main files = .ok (headerBytes rdHeaderMagic files.length ++ disk) :=
    (main_ok_iff (by omega)).mpr ⟨disk, hr, rfl⟩
  obtain ⟨hmap, hv, hlt⟩ := hl.mapped hi
  rw [List.length_append, length_headerBytes] at hv hlt
  obtain ⟨hmagic, hfiles, hdisk⟩ := headerBytes_has hmap (by decide) (by omega)
  have hd : (headerBytes rdHeaderMagic files.length ++ disk).drop sizeofHeader = disk :=
    List.drop_left' length_headerBytes
  have hc : Cursors files rdptr virtPtr sizeofHeader (firstSize files) (u64 (virtPtr + sizeofHeader))
      (u64 (rdptr + sizeofHeader)) := by
    refine ⟨rfl, fun f hh => ?_⟩
    have hs : firstSize files = f.size := by simp [firstSize, Option.mem_def.mp hh]
    rw [hs, u64]
    omega
  obtain ⟨calls, hread, hall⟩ := readFiles_serves mount hr hp hd hdisk (by omega) (by omega) firstSize_lt hf hc
  refine ⟨_, calls, hi, ?_, hall⟩
  simpa only [initRamdisk, if_neg hl.ne_zero, hmagic, ne_eq, not_true, if_false, if_neg hm, hfiles] using hread

end Run

section Example

-- The second file is larger than the first one.
theorem ramdisk_serves_larger : ∃ image calls, main [fileA, fileC] = .ok image ∧
    initRamdisk (imageAt 0x1000 (imageOf [fileA, fileC])) (2 ^ 32) 0x100000 0x1000 1 = .ok calls ∧
      ServesAll (imageAt 0x1000 (imageOf [fileA, fileC])) image 0x100000 0x1000 1 sizeofHeader [fileA, fileC]
        calls := by
  have ha : Plain fileA := ⟨by decide, by decide, by decide⟩
  have hc : Plain fileC := ⟨by decide, by decide, by decide⟩
  apply ramdisk_serves (by decide) (loaded_imageAt (by decide) (by decide) (by decide)) (by decide) (Nat.le_refl _)
  exact List.forall_mem_cons.mpr ⟨ha, List.forall_mem_singleton.mpr hc⟩

end Example

end RoverOS.Ramdisk
