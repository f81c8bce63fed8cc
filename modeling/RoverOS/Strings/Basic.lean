import RoverOS.Basic

-- The two string libraries: `libc/string`, written in C, and `misc.asm`. Both are called through the
-- prototypes of `string.h`, with the arguments in `rdi`, `rsi` and `rdx` in this order.

open Function (update)

namespace RoverOS.Strings

abbrev Byte := BitVec 8

-- The bytes of the memory, and the addresses that were written, the last one first.
structure Mem where
  bytes   : Word → Byte
  written : List Word

def Mem.store (m : Mem) (a : Word) (b : Byte) : Mem where
  bytes   := update m.bytes a b
  written := a :: m.written

def Mem.storeAll (m : Mem) (a : Word) : List Byte → Mem
  | []     => m
  | b :: l => (m.store a b).storeAll (a + 1) l

-- `p+i`
def offset (p : Word) (i : Nat) : Word :=
  p + BitVec.ofNat 64 i

def lowByte (c : BitVec 32) : Byte :=
  c.extractLsb' 0 8

-- An `int` in memory.
def intBytes (c : BitVec 32) : List Byte :=
  [c.extractLsb' 0 8, c.extractLsb' 8 8, c.extractLsb' 16 8, c.extractLsb' 24 8]

namespace C

-- The loop counts `len` down to 1.
def memcpy (dest src : Word) : Nat → Mem → Mem
  | 0,       m => m
  | len + 1, m => memcpy dest src len (m.store (offset dest (len + 1)) (m.bytes (offset src (len + 1))))

def memsetInts (ptr : Word) (c : BitVec 32) (i : Nat) : Nat → Mem → Mem
  | 0,     m => m
  | n + 1, m => memsetInts ptr c (i + 1) n (m.storeAll (offset ptr (4 * i)) (intBytes c))

-- `dest` is an array of `int`.
def memset (ptr : Word) (c : BitVec 32) (bytes : Nat) (m : Mem) : Mem :=
  memsetInts ptr c 0 (bytes / 4) m

def strcpy : Nat → Word → Word → Mem → Except Exit (Word × Mem)
  | 0,        _,  _,  _ => .error .halt
  | fuel + 1, s1, s2, m =>
    if m.bytes s2 = 0 then .ok (s1, m) else strcpy fuel (s1 + 1) (s2 + 1) (m.store s1 (m.bytes s2))

-- The overflow of `int i` is undefined.
def strcmp (s1 s2 : Word) (bytes : Word → Byte) : Nat → Nat → Except Exit Int
  | 0,        _ => .error .halt
  | fuel + 1, i =>
    if 2 ^ 31 ≤ i then .error .fault
    else if bytes (offset s1 i) ≠ bytes (offset s2 i) then .ok i
    else if bytes (offset s1 i) = 0 then .ok 0
    else strcmp s1 s2 bytes fuel (i + 1)

end C

namespace Asm

-- `loop` decrements `rcx` and jumps while it is not 0, so that a body comes first.
def loop {σ : Type} (body : σ → σ) (rcx : Word) (s : σ) : σ :=
  if rcx - 1 = 0 then body s else loop body (rcx - 1) (body s)
termination_by (rcx - 1).toNat
decreasing_by bv_omega

structure Copy where
  rdi : Word
  rdx : Word
  mem : Mem

def Copy.lp (s : Copy) : Copy :=
  let al := s.mem.bytes s.rdx
  { rdi := s.rdi + 1, rdx := s.rdx + 1, mem := s.mem.store s.rdi al }

-- The count is taken from `rsi` and the source from `rdx`.
def memcpy (rdi rsi rdx : Word) (m : Mem) : Mem :=
  (loop Copy.lp rsi { rdi, rdx, mem := m }).mem

structure Fill where
  rdi : Word
  mem : Mem

def Fill.lp (sil : Byte) (s : Fill) : Fill where
  rdi := s.rdi + 1
  mem := s.mem.store s.rdi sil

def memset (rdi : Word) (esi : BitVec 32) (rdx : Word) (m : Mem) : Mem :=
  (loop (Fill.lp (lowByte esi)) rdx { rdi, mem := m }).mem

-- `movsb` behind the loop copies the terminator.
def strcpyLoop : Nat → Word → Word → Mem → Except Exit Mem
  | 0,        _,   _,   _ => .error .halt
  | fuel + 1, rdi, rsi, m =>
    if m.bytes rsi = 0 then .ok (m.store rdi (m.bytes rsi))
    else strcpyLoop fuel (rdi + 1) (rsi + 1) (m.store rdi (m.bytes rsi))

def strcpy (fuel : Nat) (rdi rsi : Word) (m : Mem) : Except Exit (Word × Mem) := do
  let m ← strcpyLoop fuel rdi rsi m
  return (rdi, m)

-- The bytes that the loop ends with.
def scmpLoop (bytes : Word → Byte) : Nat → Word → Word → Except Exit (Byte × Byte)
  | 0,        _,   _   => .error .halt
  | fuel + 1, rdi, rsi =>
    let al := bytes rdi
    let cl := bytes rsi
    if al ≠ cl then .ok (al, cl)
    else if al ≠ 0 then scmpLoop bytes fuel (rdi + 1) (rsi + 1)
    else .ok (al, cl)

-- `jc` is taken when `al` is less than `cl`.
def strcmp (rdi rsi : Word) (bytes : Word → Byte) (fuel : Nat) : Except Exit Int := do
  let (al, cl) ← scmpLoop bytes fuel rdi rsi
  if al < cl then return (cl.toNat - al.toNat : Nat) else return (al.toNat - cl.toNat : Nat)

end Asm
end RoverOS.Strings
