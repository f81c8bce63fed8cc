import RoverOS.Ramdisk.Theorems.Writer

-- What `initRamdisk` makes of an image that `main` has written.

open Bytes (Memory load bytesOf Has has_append)
open RoverOS.Libc (strlen)

namespace RoverOS.Ramdisk

variable {m : Memory} {file : File} {files : List File} {name image disk : List Byte}
variable {fuel mount rdptr virtPtr pos s : Nat}

-- The string at an address.
def HasString (m : Memory) (str : Nat) (l : List Byte) : Prop :=
  Has m str (l ++ [0#8])

-- The call adds the file whose record is at `pos` in the image.
structure Adds (m : Memory) (image : List Byte) (rdptr mount pos : Nat) (file : File)
    (call : AddCall) : Prop where
  parent : call.parent = mount
  name   : HasString m call.name file.name
  size   : call.size = file.size
  phys   : sub64 call.phys rdptr = pos + sizeofFile + file.name.length + 1
  stored : (image.drop (pos + sizeofFile + file.name.length + 1)).take file.size = file.contents

-- One call for each file, in order.
inductive AddsAll (m : Memory) (image : List Byte) (rdptr mount : Nat) :
    Nat → List File → List AddCall → Prop
  | nil {pos : Nat} : AddsAll m image rdptr mount pos [] []
  | cons {pos : Nat} {file : File} {files : List File} {call : AddCall} {calls : List AddCall} :
    Adds m image rdptr mount pos file call →
    AddsAll m image rdptr mount (pos + (record file.name file.contents).length) files calls →
    AddsAll m image rdptr mount pos (file :: files) (call :: calls)

def RoundTrip (files : List File) (m : Memory) (fuel rdptr virtPtr mount : Nat) : Prop :=
  ∃ image calls, main files = .ok image ∧ initRamdisk m fuel rdptr virtPtr mount = .ok calls ∧
    AddsAll m image rdptr mount sizeofHeader files calls

-- The image, when it is written, is in memory at `rdptr` and mapped at `virtPtr`.
structure Loaded (files : List File) (m : Memory) (rdptr virtPtr : Nat) : Prop where
  ne_zero : virtPtr ≠ 0
  mapped {image : List Byte} : main files = .ok image →
    Has m virtPtr image ∧ virtPtr + image.length ≤ 2 ^ 64 ∧ rdptr + image.length < 2 ^ 64

-- Each name is written in full, and all files have the size `s`.
def Uniform (s : Nat) (files : List File) : Prop :=
  ∀ file ∈ files, Plain file ∧ file.size = s

section Strings

variable {str n : Nat} {l l' : List Byte}

theorem HasString.unique (h : HasString m str l) (h' : HasString m str l') (hl : 0#8 ∉ l)
    (hl' : 0#8 ∉ l') : l = l' := by
  induction l generalizing str l'
  case nil =>
    cases l'
    case nil       => rfl
    case cons b l' => exact absurd (h.left.symm.trans h'.left ▸ List.mem_cons_self) hl'
  case cons b l hi =>
    cases l'
    case nil => exact absurd (h'.left.symm.trans h.left ▸ List.mem_cons_self) hl
    case cons b' l' =>
      simp only [List.mem_cons, not_or] at hl hl'
      rw [h.left.symm.trans h'.left, hi h.right h'.right hl.right hl'.right]

theorem strlen_ok (h : HasString m str l) (hl : 0#8 ∉ l) (ha : str + l.length < 2 ^ 64)
    (hs : strlen m fuel str = .ok n) : n = l.length := by
  induction l generalizing str fuel n <;> cases fuel
  case nil.zero | cons.zero => cases hs
  case nil.succ fuel =>
    rw [strlen, if_pos h.left] at hs
    exact (Except.ok.inj hs).symm
  case cons.succ b l hi fuel =>
    simp only [List.mem_cons, not_or, List.length_cons] at hl ha
    rw [strlen, if_neg (h.left ▸ Ne.symm hl.left), u64_of_lt (by omega), Except.bind_ok_iff] at hs
    obtain ⟨i, hs, hn⟩ := hs
    have he := hi h.right hl.right (by omega) hs
    cases hn
    rw [he, List.length_cons]

theorem strlen_eq (h : HasString m str l) (hl : 0#8 ∉ l) (ha : str + l.length < 2 ^ 64)
    (hf : l.length < fuel) : strlen m fuel str = .ok l.length := by
  induction l generalizing str fuel <;> obtain ⟨fuel, rfl⟩ := Nat.exists_eq_add_of_lt hf
  case nil => exact if_pos h.left
  case cons b l hi =>
    simp only [List.mem_cons, not_or, List.length_cons] at hl ha
    rw [strlen, if_neg (h.left ▸ Ne.symm hl.left), u64_of_lt (by omega),
      hi h.right hl.right (by omega) (by simp; omega)]
    rfl

end Strings

-- A record in memory, with other records behind it.
structure Recorded (m : Memory) (p : Nat) (name contents disk : List Byte) : Prop where
  magic  : magic m p = rdFileMagic
  size   : size m p = contents.length
  string : HasString m (p + sizeofFile) name
  next   : Has m (p + (record name contents).length) disk

theorem recorded_of_has {p : Nat} {contents : List Byte} (hs : contents.length < 2 ^ 32)
    (h : Has m p (record name contents ++ disk)) : Recorded m p name contents disk := by
  obtain ⟨h, hd⟩ := has_append.mp h
  obtain ⟨⟨⟨hm, hz⟩, hn⟩, _⟩ := by simpa only [record, has_append] using h
  simp only [Bytes.length_bytesOf, List.length_append] at hz hn
  exact ⟨hm.load_eq (by decide), hz.load_eq (by omega), has_append.mpr hn, hd⟩

theorem Records.recorded (h : Records (file :: files) disk) {p : Nat} (hm : Has m p disk) :
    ∃ name disk', Writes file name ∧ Records files disk' ∧
      disk = record name file.contents ++ disk' ∧ Recorded m p name file.contents disk' := by
  cases h
  case cons name disk' hw hr => exact ⟨name, disk', hw, hr, rfl, recorded_of_has file.size_lt hm⟩

section Step

variable {p physPtr n : Nat} {contents : List Byte} {calls : List AddCall}

-- The call for a record at `p`, when its name has `len` bytes.
def callOf (mount p physPtr len size : Nat) : AddCall where
  parent := mount
  name   := rdFileName p
  phys   := rdFileData physPtr (u32 len)
  size   := u32 size
  flags  := vfsFlagNoUnload

-- Where the reader goes on behind this record.
def nextFile (p len size : Nat) : Nat := rdNextFile p size (u32 len)
def nextPhys (m : Memory) (p physPtr len size : Nat) : Nat :=
  rdNextFile physPtr (Ramdisk.size m (nextFile p len size)) (u32 len)

theorem readFiles_cons (h : Recorded m p name contents disk) (hn : 0#8 ∉ name)
    (hp : p + sizeofFile + name.length < 2 ^ 64)
    (hr : readFiles m fuel mount p physPtr (n + 1) = .ok calls) :
    ∃ calls', readFiles m fuel mount (nextFile p name.length contents.length)
      (nextPhys m p physPtr name.length contents.length) n = .ok calls' ∧
      calls = callOf mount p physPtr name.length contents.length :: calls' := by
  have hname : rdFileName p = p + sizeofFile := u64_of_lt (by omega)
  rw [readFiles, if_neg (not_not.mpr h.magic), Except.bind_ok_iff] at hr
  obtain ⟨len, hs, hr⟩ := hr
  rw [hname] at hs
  cases strlen_ok h.string hn hp hs
  simp only [h.size, Except.bind_ok_iff] at hr
  obtain ⟨calls', hr, hc⟩ := hr
  cases hc
  exact ⟨calls', hr, rfl⟩

theorem readFiles_cons_ok (h : Recorded m p name contents disk) (hn : 0#8 ∉ name)
    (hp : p + sizeofFile + name.length < 2 ^ 64) (hf : name.length < fuel)
    (hr : readFiles m fuel mount (nextFile p name.length contents.length)
      (nextPhys m p physPtr name.length contents.length) n = .ok calls) :
    readFiles m fuel mount p physPtr (n + 1) =
      .ok (callOf mount p physPtr name.length contents.length :: calls) := by
  have hname : rdFileName p = p + sizeofFile := u64_of_lt (by omega)
  simp only [readFiles, if_neg (not_not.mpr h.magic), hname, strlen_eq h.string hn hp hf, h.size]
  simp only [nextFile, nextPhys, callOf, hname] at hr ⊢
  rw [Except.bind_ok_iff]
  exact ⟨_, rfl, Except.bind_ok_iff.mpr ⟨calls, hr, rfl⟩⟩

end Step

-- The cursors are at the record of the first of the files that are left, but `physPtr` is off by
-- what this file is larger than `s`.
structure Cursors (files : List File) (rdptr virtPtr pos s p physPtr : Nat) : Prop where
  file : p = u64 (virtPtr + pos)
  phys : ∀ f ∈ files.head?, (physPtr + s) % 2 ^ 64 = (rdptr + pos + f.size) % 2 ^ 64

-- The difference of two sizes cannot make up for the bits of a length that `uint32_t` loses.
theorem phys_eq_iff {physPtr rdptr pos nl sz s : Nat} (hz : sz < 2 ^ 32) (hs : s < 2 ^ 32)
    (hp : rdptr + pos + (12 + nl + 1 + sz) < 2 ^ 64)
    (hc : (physPtr + s) % 2 ^ 64 = (rdptr + pos + sz) % 2 ^ 64) :
    sub64 (u64 (physPtr + 12 + u32 nl + 1)) rdptr = pos + 12 + nl + 1 ↔ nl < 2 ^ 32 ∧ sz = s := by
  have hn : nl = u32 nl + 2 ^ 32 * (nl / 2 ^ 32) := (Nat.mod_add_div nl _).symm
  have hl : u32 nl < 2 ^ 32 := u32_lt nl
  have hd : sub64 (u64 (physPtr + 12 + u32 nl + 1)) rdptr = pos + 12 + nl + 1 ↔
      (physPtr + 12 + u32 nl + 1) % 2 ^ 64 = (rdptr + (pos + 12 + nl + 1)) % 2 ^ 64 := by
    simp only [sub64, u64]
    omega
  have he : (physPtr + 12 + u32 nl + 1) % 2 ^ 64 = (rdptr + (pos + 12 + nl + 1)) % 2 ^ 64 ↔
      sz % 2 ^ 64 = (s + 2 ^ 32 * (nl / 2 ^ 32)) % 2 ^ 64 := by
    clear hd
    generalize u32 nl = u at *
    generalize nl / 2 ^ 32 = q at *
    subst hn
    omega
  rw [hd, he, Nat.mod_eq_of_lt (by omega), Nat.mod_eq_of_lt (by omega)]
  omega

theorem adds_iff {p physPtr : Nat} (hw : Writes file name)
    (hrec : Recorded m p name file.contents disk)
    (hd : image.drop pos = record name file.contents ++ disk) (hs : s < 2 ^ 32)
    (hv : p + (record name file.contents).length ≤ 2 ^ 64)
    (hp : rdptr + pos + (record name file.contents).length < 2 ^ 64)
    (hc : (physPtr + s) % 2 ^ 64 = (rdptr + pos + file.size) % 2 ^ 64) :
    Adds m image rdptr mount pos file (callOf mount p physPtr name.length file.contents.length) ↔
      Plain file ∧ file.size = s := by
  have hname : rdFileName p = p + sizeofFile := u64_of_lt (by rw [length_record] at hv; omega)
  have hz := file.size_lt
  rw [length_record] at hv hp
  have hphys : sub64 (rdFileData physPtr (u32 name.length)) rdptr =
      pos + sizeofFile + name.length + 1 ↔ name.length < 2 ^ 32 ∧ file.size = s :=
    phys_eq_iff hz hs hp hc
  constructor
  · intro h
    have hn := h.name
    simp only [callOf, hname] at hn
    have he := hrec.string.unique hn hw.noNul fun hf => file.noNul (by simp [hf])
    subst he
    obtain ⟨hl, hs⟩ := hphys.mp h.phys
    exact ⟨hw.plain hl, hs⟩
  · rintro ⟨hf, hs⟩
    cases hw.unique hf.writes
    refine ⟨rfl, ?_, u32_of_lt hz, hphys.mpr ⟨hf.short, hs⟩, ?_⟩
    · simpa only [callOf, hname] using hrec.string
    · rw [Nat.add_assoc, Nat.add_assoc, ← List.drop_drop, hd]
      rw [record, List.append_assoc, List.drop_left' (by simp [sizeofFile]; omega)]
      exact List.take_left' rfl

-- Both cursors go on to the next record, and `physPtr` is off again by the difference of that file's size.
theorem Cursors.next {physPtr : Nat} {disk' : List Byte}
    (hc : Cursors (file :: files) rdptr virtPtr pos s (virtPtr + pos) physPtr)
    (hr : Records files disk') (hrec : Recorded m (virtPtr + pos) name file.contents disk')
    (hl : name.length < 2 ^ 32) (hv : virtPtr + pos + (record name file.contents).length + disk'.length ≤ 2 ^ 64) :
    Cursors files rdptr virtPtr (pos + (record name file.contents).length) s
      (nextFile (virtPtr + pos) name.length file.contents.length)
      (nextPhys m (virtPtr + pos) physPtr name.length file.contents.length) := by
  have hlen := @length_record name file.contents
  have hfile : nextFile (virtPtr + pos) name.length file.contents.length =
      u64 (virtPtr + (pos + (record name file.contents).length)) := by
    simp only [nextFile, rdNextFile, u32_of_lt hl, hlen]
    congr 1
    omega
  refine ⟨hfile, fun f' hf' => ?_⟩
  cases files
  case nil => cases hf'
  case cons f files =>
    cases hf'
    obtain ⟨name', disk'', _, _, he, hrec'⟩ := hr.recorded hrec.next
    have hlen' := @length_record name' f'.contents
    rw [he, List.length_append] at hv
    have hsize : size m (nextFile (virtPtr + pos) name.length file.contents.length) = f'.size := by
      rw [hfile, u64_of_lt (by omega), ← Nat.add_assoc]
      exact hrec'.size
    have hphys := hc.phys file rfl
    simp only [nextPhys, hsize, rdNextFile, u32_of_lt hl, u64, hlen, File.size] at hphys ⊢
    omega

-- The calls that the reader makes of the records from `pos` on are right exactly when the files
-- have the size `s`, and names that are written in full.
theorem readFiles_iff {p physPtr : Nat} (hr : Records files disk) (hd : image.drop pos = disk)
    (hm : Has m (virtPtr + pos) disk) (hv : virtPtr + pos + disk.length ≤ 2 ^ 64)
    (hp : rdptr + pos + disk.length < 2 ^ 64) (hs : s < 2 ^ 32) (hf : 2 ^ 32 ≤ fuel)
    (hc : Cursors files rdptr virtPtr pos s p physPtr) :
    (∃ calls, readFiles m fuel mount p physPtr files.length = .ok calls ∧
      AddsAll m image rdptr mount pos files calls) ↔ Uniform s files := by
  induction files generalizing disk pos p physPtr
  case nil =>
    apply iff_of_true ⟨[], rfl, .nil⟩
    simp [Uniform]
  case cons f files hi =>
    obtain ⟨name, disk', hw, hr', rfl, hrec⟩ := hr.recorded hm
    have hlen := @length_record name f.contents
    rw [List.length_append] at hv hp
    have hp0 : p = virtPtr + pos := by rw [hc.file, u64_of_lt (by omega)]
    subst hp0
    have ha := @adds_iff _ _ _ _ _ mount _ _ _ _ _ hw hrec hd hs (by omega) (by omega) (hc.phys f rfl)
    have hpos : virtPtr + pos + sizeofFile + name.length < 2 ^ 64 := by omega
    have hnextDisk : image.drop (pos + (record name f.contents).length) = disk' := by
      rw [← List.drop_drop, hd, List.drop_left]
    have ih (hl : name.length < 2 ^ 32) := hi hr' hnextDisk (by rw [← Nat.add_assoc]; exact hrec.next)
      (by omega) (by omega) (hc.next hr' hrec hl (by omega))
    constructor
    · rintro ⟨calls, hrd, hall⟩
      obtain ⟨calls', hrd', rfl⟩ := readFiles_cons hrec hw.noNul hpos hrd
      cases hall
      case cons h hall =>
        have hf := ha.mp h
        cases hw.unique hf.left.writes
        exact List.forall_mem_cons.mpr ⟨hf, (ih hf.left.short).mp ⟨calls', hrd', hall⟩⟩
    · intro hu
      obtain ⟨hf, hu⟩ := List.forall_mem_cons.mp hu
      cases hw.unique hf.left.writes
      obtain ⟨calls, hrd, hall⟩ := (ih hf.left.short).mpr hu
      have hfuel := Nat.lt_of_lt_of_le hf.left.short ‹2 ^ 32 ≤ fuel›
      exact ⟨_, readFiles_cons_ok hrec hw.noNul hpos hfuel hrd, .cons (ha.mpr hf) hall⟩

section RoundTrip

theorem headerBytes_has {a magic n : Nat} (h : Has m a (headerBytes magic n ++ disk))
    (hm : magic < 2 ^ 32) (hn : n < 2 ^ 16) :
    load m a 4 = magic ∧ load m (a + 4) 2 = n ∧ Has m (a + sizeofHeader) disk := by
  obtain ⟨h, hd⟩ := has_append.mp h
  obtain ⟨hmagic, hfiles⟩ := has_append.mp h
  rw [Bytes.length_bytesOf] at hfiles
  rw [length_headerBytes] at hd
  exact ⟨hmagic.load_eq hm, hfiles.load_eq hn, hd⟩

-- The first file's size is the one that all the others must have.
def firstSize (files : List File) : Nat :=
  (files.head?.map File.size).getD 0

theorem firstSize_lt : firstSize files < 2 ^ 32 := by
  cases files
  case nil       => decide
  case cons f fs => exact f.size_lt

theorem roundTrip_iff_uniform (hn : files.length < 2 ^ 16) (hl : Loaded files m rdptr virtPtr)
    (hm : mount ≠ 0) (hf : 2 ^ 32 ≤ fuel) :
    RoundTrip files m fuel rdptr virtPtr mount ↔ Uniform (firstSize files) files := by
  have hread {image : List Byte} {disk : List Byte} (hr : Records files disk)
      (hi : image = headerBytes rdHeaderMagic files.length ++ disk) :
      (∃ calls, initRamdisk m fuel rdptr virtPtr mount = .ok calls ∧
        AddsAll m image rdptr mount sizeofHeader files calls) ↔
      Uniform (firstSize files) files := by
    obtain ⟨hmap, hv, hp⟩ := hl.mapped ((main_ok_iff hn).mpr ⟨disk, hr, hi⟩)
    subst hi
    rw [List.length_append, length_headerBytes] at hv hp
    obtain ⟨hmagic, hfiles, hdisk⟩ := headerBytes_has hmap (by decide) hn
    simp only [initRamdisk, if_neg hl.ne_zero, hmagic, ne_eq, not_true, if_false, if_neg hm, hfiles]
    have hd : (headerBytes rdHeaderMagic files.length ++ disk).drop sizeofHeader = disk :=
      List.drop_left' length_headerBytes
    apply readFiles_iff hr hd hdisk (by omega) (by omega) firstSize_lt hf
    refine ⟨rfl, fun f hh => ?_⟩
    have hs : firstSize files = f.size := by simp [firstSize, Option.mem_def.mp hh]
    rw [hs, u64]
    omega
  constructor
  · rintro ⟨image, calls, hi, h⟩
    obtain ⟨disk, hr, hi⟩ := (main_ok_iff hn).mp hi
    exact (hread hr hi).mp ⟨calls, h⟩
  · intro hu
    obtain ⟨disk, hr⟩ := records_of_plain fun f hf => (hu f hf).left
    obtain ⟨calls, h⟩ := (hread hr rfl).mpr hu
    exact ⟨_, calls, (main_ok_iff hn).mpr ⟨disk, hr, rfl⟩, h⟩

theorem uniform_firstSize_iff : Uniform (firstSize files) files ↔
    (∀ f ∈ files, Plain f) ∧ ∀ f ∈ files, ∀ g ∈ files, f.size = g.size := by
  constructor
  · intro h
    exact ⟨fun f hf => (h f hf).left, fun f hf g hg => (h f hf).right.trans (h g hg).right.symm⟩
  · rintro ⟨hp, hs⟩ f hf
    refine ⟨hp f hf, ?_⟩
    cases files
    case nil        => cases hf
    case cons g gs => exact hs f hf g List.mem_cons_self

-- The image comes back as it was written exactly when all names are written in full and all the
-- files are of one size.
theorem ramdisk_roundTrip_iff (hn : files.length ≤ 65535) (hl : Loaded files m rdptr virtPtr)
    (hm : mount ≠ 0) (hf : 2 ^ 32 ≤ fuel) :
    RoundTrip files m fuel rdptr virtPtr mount ↔
      (∀ f ∈ files, Plain f) ∧ ∀ f ∈ files, ∀ g ∈ files, f.size = g.size := by
  rw [← uniform_firstSize_iff]
  exact roundTrip_iff_uniform (by omega) hl hm hf

def fileA : File where
  dir      := [0x64]
  name     := [0x61]
  contents := [1]
  noNul    := by decide
  noSlash  := by decide
  size_lt  := by decide

def fileB : File :=
  { fileA with name := [0x62], contents := [2], noNul := by decide, noSlash := by decide, size_lt := by decide }

def fileC : File :=
  { fileA with name := [0x63], contents := [3, 4], noNul := by decide, noSlash := by decide, size_lt := by decide }

def imageOf (files : List File) : List Byte :=
  ((main files).toOption).getD []

-- A memory that contains the image and is zero elsewhere.
def imageAt (virtPtr : Nat) (image : List Byte) : Memory :=
  fun a => image.getD (a - virtPtr) 0

theorem loaded_imageAt (hv : virtPtr ≠ 0) (hb : virtPtr + (imageOf files).length ≤ 2 ^ 64)
    (hp : rdptr + (imageOf files).length < 2 ^ 64) :
    Loaded files (imageAt virtPtr (imageOf files)) rdptr virtPtr := by
  refine ⟨hv, fun {image} h => ?_⟩
  have hi : imageOf files = image := by rw [imageOf, h]; rfl
  rw [hi] at hb hp ⊢
  refine ⟨Bytes.has_iff.mpr fun i hi => ?_, hb, hp⟩
  rw [imageAt, Nat.add_sub_cancel_left, List.getD_eq_getElem _ _ hi]

theorem ramdisk_roundTrip_twoFiles :
    RoundTrip [fileA, fileB] (imageAt 0x1000 (imageOf [fileA, fileB])) (2 ^ 32) 0x100000 0x1000 1 := by
  apply (ramdisk_roundTrip_iff (by decide) (loaded_imageAt (by decide) (by decide) (by decide))
    (by decide) (Nat.le_refl _)).mpr
  have ha : Plain fileA := ⟨by decide, by decide, by decide⟩
  have hb : Plain fileB := ⟨by decide, by decide, by decide⟩
  exact ⟨List.forall_mem_cons.mpr ⟨ha, List.forall_mem_singleton.mpr hb⟩, by decide⟩

-- The second file is one byte larger than the first.
theorem ramdisk_shifts_second : ¬∀ (files : List File) (m : Memory) (fuel rdptr virtPtr mount : Nat),
    files.length ≤ 65535 → Loaded files m rdptr virtPtr → mount ≠ 0 → 2 ^ 32 ≤ fuel →
    RoundTrip files m fuel rdptr virtPtr mount := by
  intro h
  have hl : Loaded [fileA, fileC] (imageAt 0x1000 (imageOf [fileA, fileC])) 0x100000 0x1000 :=
    loaded_imageAt (by decide) (by decide) (by decide)
  have hr := h _ _ (2 ^ 32) _ _ 1 (by decide) hl (by decide) (Nat.le_refl _)
  have hu := (roundTrip_iff_uniform (by decide) hl (by decide) (Nat.le_refl _)).mp hr
  exact absurd (hu fileC (by simp)).right (by decide)

end RoundTrip

end RoverOS.Ramdisk
