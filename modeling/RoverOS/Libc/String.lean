import RoverOS.Kmalloc.Interface

-- `memcpy.c` and `strlen.c` of the kernel's C library.

open Function (update update_apply)

namespace RoverOS.Libc

open Kmalloc

-- The loop counts down to 1, and writes the byte at the count itself.
def memcpy (dest src : Bytes) : Nat → Bytes
  | 0       => dest
  | len + 1 => memcpy (update dest (len + 1) (src (len + 1))) src len

-- The length of the string at `str`. `misc.asm` counts in the same way.
def strlen (m : Nat → BitVec 8) : Nat → Nat → Except Exit Nat
  | 0,        _   => .error .halt
  | fuel + 1, str =>
    if m str = 0#8 then .ok 0 else do
      let i ← strlen m fuel (u64 (str + 1))
      return i + 1

variable {dest src : Bytes} {len i : Nat}

theorem memcpy_apply : memcpy dest src len i = if 1 ≤ i ∧ i ≤ len then src i else dest i := by
  induction len generalizing dest
  case zero =>
    rw [memcpy, if_neg (by omega)]
  case succ len hi =>
    rw [memcpy, hi, update_apply]
    grind

end RoverOS.Libc
