import RoverOS.Vfs.Basic

-- The ramdisk as a driver of the file system.

open Bytes (Memory Has)
open Function (update)

namespace RoverOS.Ramdisk

-- The loop, with `n` bytes left in the file.
def readLoop (m : Memory) (s rin : Nat) : Nat → List (BitVec 8)
  | 0     => []
  | n + 1 => m (u64 (s + rin)) :: readLoop m s (rin + 1) n

-- It reads up to the end of the file, whatever was requested.
def ramdiskReadFile (m : Memory) (ramdiskPbase ramdiskVbase : Nat) : Vfs.Driver :=
  fun _ fl offset =>
    let flptr := u64 (sub64 fl.phys ramdiskPbase + ramdiskVbase + offset)
    let d := readLoop m flptr 0 (fl.size - offset)
    (d.length, d)

-- The loop on the memory that it writes to, with `n` bytes left in the file.
def copyLoop (s d rin : Nat) : Nat → Memory → Memory
  | 0,     m => m
  | n + 1, m => copyLoop s d (rin + 1) n (update m (u64 (d + rin)) (m (u64 (s + rin))))

-- The same function with its destination, from where the file may be read.
def ramdiskReadFileTo (ramdiskPbase ramdiskVbase _sz : Nat) (fl : VfsFile) (offset dst : Nat) (m : Memory) :
    Nat × Memory :=
  let flptr := u64 (sub64 fl.phys ramdiskPbase + ramdiskVbase + offset)
  let rin := fl.size - offset
  (rin, copyLoop flptr dst 0 rin m)

variable {m : Memory} {s rin p n : Nat} {contents : List (BitVec 8)} {file : VfsFile}
variable {ramdiskPbase ramdiskVbase : Nat}

theorem readLoop_eq (h : Has m p contents) (hp : p + contents.length ≤ 2 ^ 64) (hs : s + rin = p) :
    readLoop m s rin contents.length = contents := by
  induction contents generalizing p rin
  case nil => rfl
  case cons b contents hi =>
    rw [List.length_cons] at hp
    rw [List.length_cons, readLoop, hs, u64_of_lt (by omega), h.left, hi h.right (by omega) (by omega)]

theorem Has.drop (h : Has m p contents) (hn : n ≤ contents.length) : Has m (p + n) (contents.drop n) := by
  have ht := Bytes.has_append.mp (contents.take_append_drop n ▸ h)
  rw [List.length_take, Nat.min_eq_left hn] at ht
  exact ht.right

-- The ramdisk's function reads a file whose contents are mapped where the file's address says.
theorem ramdiskReadFile_reads (hs : file.size = contents.length) (hlt : contents.length < 2 ^ 32)
    (hp : u64 (sub64 file.phys ramdiskPbase + ramdiskVbase) = p) (hm : Has m p contents)
    (hle : p + contents.length ≤ 2 ^ 64) :
    (ramdiskReadFile m ramdiskPbase ramdiskVbase).Reads file contents := by
  refine ⟨hs, hlt, fun _ _ => rfl, fun sz offset => ?_⟩
  simp only [ramdiskReadFile, hs]
  rcases Nat.lt_or_ge offset contents.length with ho | ho
  · have hd := Has.drop hm (Nat.le_of_lt ho)
    have hl : (contents.drop offset).length = contents.length - offset := List.length_drop
    have hptr : u64 (sub64 file.phys ramdiskPbase + ramdiskVbase + offset) = p + offset := by
      simp only [u64] at hp ⊢
      omega
    rw [hptr, ← hl, readLoop_eq hd (by omega) (Nat.add_zero _)]
  · rw [Nat.sub_eq_zero_of_le ho]
    exact List.nil_prefix

end RoverOS.Ramdisk
