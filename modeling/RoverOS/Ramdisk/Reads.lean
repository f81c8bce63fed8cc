import RoverOS.Ramdisk.Basic

-- `initRamdisk` with the way in which it reads memory left open.

open Bytes (Memory load)
open RoverOS.Libc (strlen)

namespace RoverOS.Ramdisk

abbrev Read := Nat → Except Exit Byte

section With

variable (read : Read)

def loadWith (a : Nat) : Nat → Except Exit Nat
  | 0     => .ok 0
  | n + 1 => do
    let b ← read a
    let v ← loadWith (a + 1) n
    return b.toNat + 256 * v

def strlenWith : Nat → Nat → Except Exit Nat
  | 0,        _   => .error .halt
  | fuel + 1, str => do
    let b ← read str
    if b = 0#8 then return 0
    let i ← strlenWith fuel (u64 (str + 1))
    return i + 1

def readFilesWith (fuel mount file physPtr : Nat) : Nat → Except Exit (List AddCall)
  | 0     => .ok []
  | n + 1 => do
    let magic ← loadWith read file 4
    if magic ≠ rdFileMagic then return []
    let name := rdFileName file
    let len := u32 (← strlenWith read fuel name)
    let size ← loadWith read (file + 4) 8
    let call : AddCall := {
      parent := mount, name, phys := rdFileData physPtr len, size := u32 size, flags := vfsFlagNoUnload }
    let file := rdNextFile file size len
    let next ← loadWith read (file + 4) 8
    let calls ← readFilesWith fuel mount file (rdNextFile physPtr next len) n
    return call :: calls

def initRamdiskWith (fuel rdptr virtPtr mount : Nat) : Except Exit (List AddCall) :=
  if virtPtr = 0 then .error .halt
  else do
    let magic ← loadWith read virtPtr 4
    if magic ≠ rdHeaderMagic then return []
    if mount = 0 then return []
    let files ← loadWith read (virtPtr + 4) 2
    readFilesWith read fuel mount (u64 (virtPtr + sizeofHeader)) (u64 (rdptr + sizeofHeader)) files

end With

-- All memory is there.
def readAny (m : Memory) : Read :=
  fun a => .ok (m a)

-- A read outside of the `rdsz` bytes from `virtPtr` on is one outside of the image.
def readImage (m : Memory) (virtPtr rdsz : Nat) : Read :=
  fun a => if virtPtr ≤ a ∧ a < virtPtr + rdsz then .ok (m a) else .error .fault

section Agree

variable {m : Memory} {fuel a n mount file physPtr rdptr virtPtr : Nat}

theorem loadWith_readAny : loadWith (readAny m) a n = .ok (load m a n) := by
  induction n generalizing a
  case zero => rfl
  case succ n hi => simp [loadWith, readAny, hi, load, bind, Except.bind, pure, Except.pure]

theorem strlenWith_readAny : strlenWith (readAny m) fuel a = strlen m fuel a := by
  induction fuel generalizing a
  case zero => rfl
  case succ fuel hi =>
    rw [strlenWith, strlen, hi]
    rfl

theorem readFilesWith_readAny :
    readFilesWith (readAny m) fuel mount file physPtr n = readFiles m fuel mount file physPtr n := by
  induction n generalizing file physPtr
  case zero => rfl
  case succ n hi =>
    simp only [readFilesWith, readFiles, loadWith_readAny, strlenWith_readAny, hi]
    rfl

-- `initRamdisk` reads whatever is in memory.
theorem initRamdiskWith_readAny :
    initRamdiskWith (readAny m) fuel rdptr virtPtr mount = initRamdisk m fuel rdptr virtPtr mount := by
  simp only [initRamdiskWith, initRamdisk, loadWith_readAny, readFilesWith_readAny]
  rfl

end Agree

end RoverOS.Ramdisk
