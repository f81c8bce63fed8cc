import RoverOS.Ramdisk.Driver

-- What `ramdiskReadFile` does with the length that is requested.

open Bytes (Memory)
open Function (update_self update_of_ne)

namespace RoverOS.Ramdisk

variable {m : Memory} {s d i j k n sz offset dst a : Nat} {fl : VfsFile} {ramdiskPbase ramdiskVbase : Nat}

section Copy

theorem copyLoop_succ {rin : Nat} : copyLoop s d rin (n + 1) m =
    Function.update (copyLoop s d rin n m) (u64 (d + (rin + n))) (copyLoop s d rin n m (u64 (s + (rin + n)))) := by
  induction n generalizing rin m
  case zero => rfl
  case succ n hi =>
    rw [copyLoop, hi, copyLoop, (by omega : rin + 1 + n = rin + (n + 1))]

theorem offset_inj (hi : i < n) (hj : j < n) (hn : n ≤ 2 ^ 64) (h : u64 (d + i) = u64 (d + j)) : i = j := by
  simp only [u64] at h
  omega

-- What no step has stored is as it was.
theorem copyLoop_other (h : ∀ i < n, a ≠ u64 (d + i)) : copyLoop s d 0 n m a = m a := by
  induction n
  case zero => rfl
  case succ n hi =>
    rw [copyLoop_succ, update_of_ne (by simpa using h n (Nat.lt_succ_self n))]
    exact hi fun i hlt => h i (Nat.lt_succ_of_lt hlt)

-- What a step has stored stays.
theorem copyLoop_stored (hk : i < k) (hkn : k ≤ n) (hn : n ≤ 2 ^ 64) :
    copyLoop s d 0 n m (u64 (d + i)) = copyLoop s d 0 k m (u64 (d + i)) := by
  induction n, hkn using Nat.le_induction
  case base => rfl
  case succ n hle hi =>
    rw [copyLoop_succ, Nat.zero_add, update_of_ne, hi (by omega)]
    intro he
    have := offset_inj (n := n + 1) (by omega) (by omega) hn he
    omega

-- A byte that is stored before it is read, is read as what is stored there.
def Consistent (m : Memory) (s d n : Nat) : Prop :=
  ∀ i j, i < j → j < n → u64 (d + i) = u64 (s + j) → m (u64 (s + i)) = m (u64 (s + j))

def Copied (m m' : Memory) (s d n : Nat) : Prop :=
  ∀ i < n, m' (u64 (d + i)) = m (u64 (s + i))

theorem Copied.take (hc : Copied m (copyLoop s d 0 n m) s d n) (hk : k ≤ n) (hn : n ≤ 2 ^ 64) :
    Copied m (copyLoop s d 0 k m) s d k := by
  intro i hi
  rw [← copyLoop_stored hi hk hn]
  exact hc i (by omega)

theorem Consistent.copied (hc : Consistent m s d n) (hk : k ≤ n) (hn : n ≤ 2 ^ 64) :
    Copied m (copyLoop s d 0 k m) s d k := by
  induction k
  case zero => exact fun i hi => absurd hi (Nat.not_lt_zero i)
  case succ k ih =>
    have hprev := ih (by omega)
    intro i hi
    rcases Nat.lt_succ_iff_lt_or_eq.mp hi with hlt | rfl
    · rw [copyLoop_stored hlt (Nat.le_succ k) (by omega)]
      exact hprev i hlt
    · rw [copyLoop_succ, Nat.zero_add, update_self]
      by_cases hs : ∃ j < i, u64 (d + j) = u64 (s + i)
      case pos =>
        obtain ⟨j, hj, he⟩ := hs
        have hstored := hprev j hj
        rw [he] at hstored
        exact hstored.trans (hc j i hj (by omega) he)
      case neg =>
        apply copyLoop_other
        exact fun j hj he => hs ⟨j, hj, he.symm⟩

theorem copied_iff (hn : n ≤ 2 ^ 64) : Copied m (copyLoop s d 0 n m) s d n ↔ Consistent m s d n := by
  constructor
  case mp =>
    intro hc i j hij hj he
    -- At step `j` the byte is read where step `i` has stored it.
    have hread := hc.take (Nat.succ_le_of_lt hj) hn j (Nat.lt_succ_self j)
    rw [copyLoop_succ, Nat.zero_add, update_self] at hread
    have hstored := hc.take (Nat.le_of_lt hj) hn i hij
    rw [he] at hstored
    exact hstored.symm.trans hread
  case mpr =>
    exact fun hc => hc.copied (Nat.le_refl n) hn

end Copy

-- The address of the file's bytes from `offset` on.
def fileBytes (ramdiskPbase ramdiskVbase : Nat) (fl : VfsFile) (offset : Nat) : Nat :=
  u64 (sub64 fl.phys ramdiskPbase + ramdiskVbase + offset)

-- `want` bytes are copied from `src` to `dst`, nothing else is written, and `want` is returned.
structure Reads (src dst want : Nat) (m : Memory) (r : Nat × Memory) : Prop where
  count  : r.1 = want
  copied : Copied m r.2 src dst want
  frame  : ∀ a, (∀ i < want, a ≠ u64 (dst + i)) → r.2 a = m a

theorem readLoop_length : (readLoop m s i n).length = n := by
  induction n generalizing i
  case zero => rfl
  case succ n hi => rw [readLoop, List.length_cons, hi]

theorem readLoop_get (hk : k < n) : (readLoop m s i n)[k]? = some (m (u64 (s + (i + k)))) := by
  induction n generalizing i k
  case zero => exact absurd hk (Nat.not_lt_zero k)
  case succ n hi =>
    rw [readLoop]
    cases k
    case zero   => rfl
    case succ k => rw [List.getElem?_cons_succ, hi (by omega), (by omega : i + 1 + k = i + (k + 1))]

-- With a destination apart from the file, the bytes there are those that the driver reads.
theorem ramdiskReadFileTo_driver (hs : fl.size < 2 ^ 32)
    (ha : ∀ i < fl.size - offset, ∀ j < fl.size - offset,
      u64 (dst + i) ≠ u64 (fileBytes ramdiskPbase ramdiskVbase fl offset + j)) :
    (ramdiskReadFileTo ramdiskPbase ramdiskVbase sz fl offset dst m).1 =
        (ramdiskReadFile m ramdiskPbase ramdiskVbase sz fl offset).1 ∧
      ∀ i < fl.size - offset, (ramdiskReadFile m ramdiskPbase ramdiskVbase sz fl offset).2[i]? =
        some ((ramdiskReadFileTo ramdiskPbase ramdiskVbase sz fl offset dst m).2 (u64 (dst + i))) := by
  have hn : fl.size - offset ≤ 2 ^ 64 := by omega
  have hc : Consistent m (fileBytes ramdiskPbase ramdiskVbase fl offset) dst (fl.size - offset) :=
    fun i j hij hj he => absurd he (ha i (by omega) j hj)
  constructor
  case left => exact readLoop_length.symm
  case right =>
    intro i hi
    rw [ramdiskReadFile, readLoop_get hi, Nat.zero_add]
    exact congrArg some (hc.copied (Nat.le_refl _) hn i hi).symm

-- The rest of the file must not be longer than what is requested, and a destination that overlaps it
-- must leave it as it is until it has been read.
theorem ramdiskReadFileTo_reads_iff (hs : fl.size < 2 ^ 32) (ho : offset ≤ fl.size) :
    Reads (fileBytes ramdiskPbase ramdiskVbase fl offset) dst (min sz (fl.size - offset)) m
        (ramdiskReadFileTo ramdiskPbase ramdiskVbase sz fl offset dst m) ↔
      fl.size - offset ≤ sz ∧
        Consistent m (fileBytes ramdiskPbase ramdiskVbase fl offset) dst (fl.size - offset) := by
  have hn : fl.size - offset ≤ 2 ^ 64 := by omega
  constructor
  case mp =>
    intro hr
    have hle : fl.size - offset ≤ sz := by
      have hc : fl.size - offset = min sz (fl.size - offset) := hr.count
      omega
    refine ⟨hle, (copied_iff hn).mp ?_⟩
    have hcopied := hr.copied
    rwa [Nat.min_eq_right hle] at hcopied
  case mpr =>
    rintro ⟨hle, hc⟩
    rw [Nat.min_eq_right hle]
    exact ⟨rfl, (copied_iff hn).mpr hc, fun a ha => copyLoop_other ha⟩

section Examples

-- A file of the 9 bytes 1 to 9 at 0x1000, in memory that is zero elsewhere.
def nineBytes : VfsFile where
  header     := { type := Vfs.vfsTypeFile, flags := 0, length := Vfs.sizeofVfsFile }
  name       := 1
  phys       := 0x1000
  size       := 9
  references := 1

def nineMemory : Memory :=
  fun a => if 0x1000 ≤ a ∧ a < 0x1009 then BitVec.ofNat 8 (a - 0xFFF) else 0

-- The 6 bytes from offset 3 on are moved down by one, within the file.
theorem ramdiskReadFileTo_reads_nine :
    Reads (fileBytes 0 0 nineBytes 3) 0x1002 (min 8 6) nineMemory
      (ramdiskReadFileTo 0 0 8 nineBytes 3 0x1002 nineMemory) := by
  refine (ramdiskReadFileTo_reads_iff (by decide) (by decide)).mpr ⟨by decide, fun i j hij hj he => ?_⟩
  have hj : j < 6 := hj
  have hsrc : fileBytes 0 0 nineBytes 3 = 0x1003 := by decide
  rw [hsrc, u64, u64] at he
  omega

-- The 8 bytes of a signature are requested, as `checkPNG` does, and 9 are written.
theorem ramdiskReadFileTo_overflows : ¬∀ (ramdiskPbase ramdiskVbase sz : Nat) (fl : VfsFile) (offset dst : Nat)
    (m : Memory), fl.size < 2 ^ 32 → offset ≤ fl.size →
    Reads (fileBytes ramdiskPbase ramdiskVbase fl offset) dst (min sz (fl.size - offset)) m
      (ramdiskReadFileTo ramdiskPbase ramdiskVbase sz fl offset dst m) := by
  intro h
  have hc : 9 = 8 := (h 0 0 8 nineBytes 0 0x2000 nineMemory (by decide) (by decide)).count
  exact absurd hc (by decide)

end Examples

end RoverOS.Ramdisk
