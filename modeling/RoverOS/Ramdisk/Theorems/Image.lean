import RoverOS.Ramdisk.Reads
import RoverOS.Ramdisk.Theorems.RoundTrip

-- Which images `initRamdisk` reads without leaving them.

open Bytes (Memory load)

namespace RoverOS.Ramdisk

-- `rdsz` bytes at `rdptr` that are mapped at `virtPtr`.
structure Image where
  mem     : Memory
  rdptr   : Nat
  virtPtr : Nat
  rdsz    : Nat
  ne_zero : virtPtr ≠ 0
  mapped  : virtPtr + rdsz ≤ 2 ^ 64

namespace Image

variable {img : Image} {a n fuel str len mount file physPtr v : Nat} {calls : List AddCall}

def read (img : Image) : Read :=
  readImage img.mem img.virtPtr img.rdsz

-- The `n` bytes from `a` on are in the image.
abbrev Within (img : Image) (a n : Nat) : Prop :=
  img.virtPtr ≤ a ∧ a + n ≤ img.virtPtr + img.rdsz

-- The data of the file that is registered is in the image.
def Holds (img : Image) (c : AddCall) : Prop :=
  img.rdptr ≤ c.phys ∧ c.phys + c.size ≤ img.rdptr + img.rdsz

-- The parser returns, reads in the image alone, and registers no file that leaves it.
def Stays (img : Image) (mount : Nat) : Prop :=
  ∃ fuel calls, initRamdiskWith img.read fuel img.rdptr img.virtPtr mount = .ok calls ∧ ∀ c ∈ calls, img.Holds c

-- A name of `len` bytes, which ends in the image.
structure NameAt (img : Image) (str len : Nat) : Prop where
  within : img.Within str (len + 1)
  chars  : ∀ i < len, img.mem (str + i) ≠ 0#8
  nul    : img.mem (str + len) = 0#8

-- What is read of `n` records from `file` on, with the addresses that the code gives them. The size
-- behind a record is read even when it is the last one, and the next data is looked for with it.
inductive Readable (img : Image) : Nat → Nat → Nat → Prop
  | done {file physPtr : Nat} : Readable img 0 file physPtr
  | stop {n file physPtr : Nat} :
    img.Within file 4 → magic img.mem file ≠ rdFileMagic → Readable img (n + 1) file physPtr
  | file {n file physPtr len : Nat} :
    img.Within file 12 → magic img.mem file = rdFileMagic → img.NameAt (rdFileName file) len →
    img.rdptr ≤ rdFileData physPtr (u32 len) →
    rdFileData physPtr (u32 len) + u32 (size img.mem file) ≤ img.rdptr + img.rdsz →
    img.Within (nextFile file len (size img.mem file) + 4) 8 →
    Readable img n (nextFile file len (size img.mem file)) (nextPhys img.mem file physPtr len (size img.mem file)) →
    Readable img (n + 1) file physPtr

structure Sound (img : Image) : Prop where
  magic : 4 ≤ img.rdsz
  files : load img.mem img.virtPtr 4 = rdHeaderMagic → sizeofHeader ≤ img.rdsz ∧
    img.Readable (load img.mem (img.virtPtr + 4) 2) (u64 (img.virtPtr + sizeofHeader)) (u64 (img.rdptr + sizeofHeader))

section Read

theorem read_ok {b : Byte} (h : img.read a = .ok b) : img.Within a 1 ∧ b = img.mem a := by
  simp only [read, readImage] at h
  split at h
  case isTrue hw =>
    cases h
    exact ⟨hw, rfl⟩
  case isFalse => cases h

theorem read_within (h : img.Within a 1) : img.read a = .ok (img.mem a) :=
  if_pos h

theorem loadWith_ok (h : loadWith img.read a n = .ok v) (hn : 0 < n) : img.Within a n ∧ load img.mem a n = v := by
  induction n generalizing a v
  case zero => exact absurd hn (Nat.lt_irrefl 0)
  case succ n hi =>
    obtain ⟨b, hb, h⟩ := Except.bind_ok_iff.mp h
    obtain ⟨w, hw, h⟩ := Except.bind_ok_iff.mp h
    obtain ⟨hwithin, rfl⟩ := read_ok hb
    cases h
    rcases Nat.eq_zero_or_pos n with rfl | hpos
    · cases hw
      exact ⟨hwithin, rfl⟩
    · obtain ⟨hrest, rfl⟩ := hi hw hpos
      refine ⟨⟨hwithin.left, ?_⟩, rfl⟩
      have := hrest.right
      omega

theorem loadWith_within (h : img.Within a n) : loadWith img.read a n = .ok (load img.mem a n) := by
  induction n generalizing a
  case zero => rfl
  case succ n hi =>
    have hfirst : img.Within a 1 := ⟨h.left, by have := h.right; omega⟩
    have hrest : img.Within (a + 1) n := ⟨Nat.le_succ_of_le h.left, by have := h.right; omega⟩
    rw [loadWith, read_within hfirst, hi hrest]
    rfl

-- A string at the end of memory would go on at 0, which is not in the image.
theorem strlenWith_ok (h : strlenWith img.read fuel str = .ok len) : img.NameAt str len := by
  induction fuel generalizing str len
  case zero => cases h
  case succ fuel hi =>
    obtain ⟨b, hb, h⟩ := Except.bind_ok_iff.mp h
    obtain ⟨hwithin, rfl⟩ := read_ok hb
    split at h
    case isTrue h0 =>
      cases h
      exact ⟨hwithin, fun i hi => absurd hi (Nat.not_lt_zero i), h0⟩
    case isFalse h0 =>
      obtain ⟨i, hs, h⟩ := Except.bind_ok_iff.mp h
      cases h
      have hname := hi hs
      have hlt : str + 1 < 2 ^ 64 := by
        by_contra hge
        have hlow := hwithin.right
        have hmapped := img.mapped
        have hz : u64 (str + 1) = 0 := by
          rw [(by omega : str + 1 = 2 ^ 64)]
          rfl
        rw [hz] at hname
        exact img.ne_zero (Nat.le_zero.mp hname.within.left)
      rw [u64_of_lt hlt] at hname
      refine ⟨⟨hwithin.left, ?_⟩, fun j hj => ?_, ?_⟩
      · have := hname.within.right
        omega
      · cases j
        case zero   => exact h0
        case succ j =>
          rw [(by omega : str + (j + 1) = str + 1 + j)]
          exact hname.chars j (by omega)
      · rw [(by omega : str + (i + 1) = str + 1 + i)]
        exact hname.nul

theorem NameAt.strlenWith (h : img.NameAt str len) (hf : len < fuel) : strlenWith img.read fuel str = .ok len := by
  induction len generalizing str fuel <;> obtain ⟨fuel, rfl⟩ := Nat.exists_eq_add_of_lt hf
  case zero =>
    rw [Ramdisk.strlenWith, read_within h.within]
    exact if_pos h.nul
  case succ len hi =>
    have hfirst : img.Within str 1 := ⟨h.within.left, by have := h.within.right; omega⟩
    have hlt : str + 1 < 2 ^ 64 := by
      have := h.within.right
      have := img.mapped
      omega
    have hrest : img.NameAt (str + 1) len := by
      refine ⟨⟨Nat.le_succ_of_le h.within.left, by have := h.within.right; omega⟩, fun i hi => ?_, ?_⟩
      · rw [(by omega : str + 1 + i = str + (i + 1))]
        exact h.chars (i + 1) (by omega)
      · rw [(by omega : str + 1 + len = str + (len + 1))]
        exact h.nul
    rw [Ramdisk.strlenWith, read_within hfirst]
    have h0 : img.mem str ≠ 0#8 := h.chars 0 (Nat.succ_pos len)
    have hlen : len < len + 1 + fuel := by omega
    simp [bind, Except.bind, h0, u64_of_lt hlt, hi hrest hlen, pure, Except.pure]

end Read

section Files

theorem readFilesWith_readable (h : readFilesWith img.read fuel mount file physPtr n = .ok calls)
    (hc : ∀ c ∈ calls, img.Holds c) : img.Readable n file physPtr := by
  induction n generalizing file physPtr calls
  case zero => exact .done
  case succ n hi =>
    obtain ⟨magic, hm, h⟩ := Except.bind_ok_iff.mp h
    obtain ⟨hmagic, rfl⟩ := loadWith_ok hm (by decide)
    split at h
    case isTrue hne => exact .stop hmagic hne
    case isFalse he =>
      obtain ⟨len, hs, h⟩ := Except.bind_ok_iff.mp h
      obtain ⟨sz, hz, h⟩ := Except.bind_ok_iff.mp h
      obtain ⟨next, hx, h⟩ := Except.bind_ok_iff.mp h
      obtain ⟨rest, hr, h⟩ := Except.bind_ok_iff.mp h
      cases h
      obtain ⟨hsize, rfl⟩ := loadWith_ok hz (by decide)
      obtain ⟨hnext, rfl⟩ := loadWith_ok hx (by decide)
      obtain ⟨hlo, hhi⟩ := hc _ List.mem_cons_self
      refine .file ⟨hmagic.left, ?_⟩ (not_not.mp he) (strlenWith_ok hs) hlo hhi hnext ?_
      · have := hsize.right
        omega
      · exact hi hr fun c hm => hc c (List.mem_cons_of_mem _ hm)

theorem Readable.readFilesWith (h : img.Readable n file physPtr) (mount : Nat) (hf : img.rdsz < fuel) :
    ∃ calls, readFilesWith img.read fuel mount file physPtr n = .ok calls ∧ ∀ c ∈ calls, img.Holds c := by
  induction h
  case done => exact ⟨[], rfl, fun _ hc => by cases hc⟩
  case stop hmagic hne =>
    refine ⟨[], ?_, fun _ hc => by cases hc⟩
    rw [Ramdisk.readFilesWith, loadWith_within hmagic]
    exact if_pos hne
  case file n file physPtr len hw he hname hlo hhi hnext _ hi =>
    obtain ⟨calls, hcalls, hc⟩ := hi
    have hmagic : img.Within file 4 := ⟨hw.left, by have := hw.right; omega⟩
    have hsize : img.Within (file + 4) 8 := ⟨Nat.le_add_right_of_le hw.left, by have := hw.right; omega⟩
    have hlen : len < fuel := by
      have := hname.within
      simp only [Within] at this
      omega
    refine ⟨callOf mount file physPtr len (size img.mem file) :: calls, ?_, fun c hm => ?_⟩
    · simp only [Ramdisk.readFilesWith, Except.bind_ok_iff]
      refine ⟨_, loadWith_within hmagic, ?_⟩
      have hne : ¬load img.mem file 4 ≠ rdFileMagic := not_not.mpr he
      rw [if_neg hne]
      simp only [Except.bind_ok_iff]
      exact ⟨len, hname.strlenWith hlen, _, loadWith_within hsize, _, loadWith_within hnext, calls, hcalls, rfl⟩
    · rcases List.mem_cons.mp hm with rfl | hm
      · exact ⟨hlo, hhi⟩
      · exact hc c hm

theorem Sound.stays (h : img.Sound) (hm : mount ≠ 0) : img.Stays mount := by
  have hmagic : img.Within img.virtPtr 4 := ⟨Nat.le_refl _, Nat.add_le_add_left h.magic _⟩
  have hhead : initRamdiskWith img.read (img.rdsz + 1) img.rdptr img.virtPtr mount =
      if load img.mem img.virtPtr 4 ≠ rdHeaderMagic then .ok []
      else loadWith img.read (img.virtPtr + 4) 2 >>=
        readFilesWith img.read (img.rdsz + 1) mount (u64 (img.virtPtr + sizeofHeader)) (u64 (img.rdptr + sizeofHeader)) := by
    rw [initRamdiskWith, if_neg img.ne_zero, loadWith_within hmagic]
    simp [bind, Except.bind, hm, pure, Except.pure]
  by_cases he : load img.mem img.virtPtr 4 = rdHeaderMagic
  case neg =>
    rw [if_pos he] at hhead
    exact ⟨_, _, hhead, fun _ hc => by cases hc⟩
  case pos =>
    obtain ⟨hsize, hr⟩ := h.files he
    have hfiles : img.Within (img.virtPtr + 4) 2 := ⟨Nat.le_add_right _ _, by simp only [sizeofHeader] at hsize; omega⟩
    obtain ⟨calls, hcalls, hc⟩ := hr.readFilesWith mount (Nat.lt_succ_self img.rdsz)
    rw [if_neg (not_not.mpr he), loadWith_within hfiles] at hhead
    exact ⟨_, calls, hhead.trans hcalls, hc⟩

theorem Stays.sound (h : img.Stays mount) (hm : mount ≠ 0) : img.Sound := by
  obtain ⟨fuel, calls, h, hc⟩ := h
  rw [initRamdiskWith, if_neg img.ne_zero] at h
  obtain ⟨magic, hl, h⟩ := Except.bind_ok_iff.mp h
  obtain ⟨hmagic, rfl⟩ := loadWith_ok hl (by decide)
  refine ⟨by have := hmagic.right; omega, fun he => ?_⟩
  rw [if_neg (not_not.mpr he), if_neg hm] at h
  obtain ⟨files, hl, h⟩ := Except.bind_ok_iff.mp h
  obtain ⟨hfiles, rfl⟩ := loadWith_ok hl (by decide)
  refine ⟨?_, readFilesWith_readable h hc⟩
  have := hfiles.right
  simp only [sizeofHeader]
  omega

end Files

-- `mountVFS` gives a mount, or the parser ends behind the header.
theorem initRamdisk_stays_iff (img : Image) (hm : mount ≠ 0) : img.Stays mount ↔ img.Sound :=
  ⟨fun h => h.sound hm, fun h => h.stays hm⟩

section Examples

theorem start_ne_zero : 0x1000 ≠ 0 := by decide

theorem start_mapped {size : Nat} (h : size ≤ 2 ^ 32) : 0x1000 + size ≤ 2 ^ 64 := by omega

-- An image at 0x100000 that is mapped at 0x1000.
def ofBytes (bytes : List Byte) (h : bytes.length ≤ 2 ^ 32) : Image where
  mem     := imageAt 0x1000 bytes
  rdptr   := 0x100000
  virtPtr := 0x1000
  rdsz    := bytes.length
  ne_zero := start_ne_zero
  mapped  := start_mapped h

-- One file, with 12 more bytes behind it.
def padded : Image :=
  ofBytes (imageOf [fileA] ++ List.replicate 12 0) (by decide)

theorem initRamdisk_stays_padded : padded.Stays 1 := by
  refine (initRamdisk_stays_iff padded (by decide)).mpr ⟨by decide, fun _ => ⟨by decide, ?_⟩⟩
  have hname : padded.NameAt (rdFileName 0x1006) 1 := ⟨by decide, by decide, by decide⟩
  exact Readable.file (by decide) (by decide) hname (by decide) (by decide) (by decide) .done

-- The image that is written for one file: the size behind it is outside.
theorem written_image_left : ¬∀ (img : Image) (mount : Nat), mount ≠ 0 → img.Stays mount := by
  intro h
  let img := ofBytes (imageOf [fileA]) (by decide)
  have hs : img.Sound := (h img 1 (by decide)).sound (by decide)
  obtain ⟨_, hr⟩ := hs.files (by decide)
  have hfiles : load img.mem (img.virtPtr + 4) 2 = 1 := by decide
  rw [hfiles] at hr
  cases hr
  case stop hne => exact absurd (by decide) hne
  case file len _ _ hname hnext _ _ _ =>
    have hlen : len = 1 := by
      rcases Nat.lt_trichotomy len 1 with hlt | rfl | hgt
      · have h0 : len = 0 := by omega
        subst h0
        exact absurd hname.nul (by decide)
      · rfl
      · exact absurd (hname.chars 1 hgt) (by decide)
    subst hlen
    exact absurd hnext (by decide)

end Examples

end Image
end RoverOS.Ramdisk
