import RoverOS.Ksym.Basic
import RoverOS.Library.Bytes
import RoverOS.Strings.Basic

-- `initKsym`: where the symbols, their names and the debug sections are in the symbol file.

namespace RoverOS.Ksym

open Bytes (Memory load)
open Strings (Byte)

def SHT_PROGBITS : Nat := 1
def SHT_SYMTAB   : Nat := 2
def SHT_STRTAB   : Nat := 3

-- `ident` has 12 bytes, and its alignment puts the fields from `entry` on where they belong.
structure ELF64Header where
  shoff    : Word
  shnum    : Nat
  shstrndx : Nat

-- `link` is not read by the kernel.
structure ELF64Section where
  name   : Nat
  type   : Nat
  offset : Word
  size   : Nat
  link   : Nat
  deriving DecidableEq, Repr

def sizeofELF64Section : Nat := 64
def sizeofELF64Sym : Nat := 24

def ELF64Header.read (m : Memory) (ptr : Nat) : ELF64Header where
  shoff    := BitVec.ofNat 64 (load m (ptr + 40) 8)
  shnum    := load m (ptr + 60) 2
  shstrndx := load m (ptr + 62) 2

def ELF64Section.read (m : Memory) (ptr : Nat) : ELF64Section where
  name   := load m ptr 4
  type   := load m (ptr + 4) 4
  offset := BitVec.ofNat 64 (load m (ptr + 24) 8)
  size   := load m (ptr + 32) 8
  link   := load m (ptr + 40) 4

-- `section[i]` for the `i` below `shnum`. An `ELF64_Half` counts to any `shnum`.
def sections (m : Memory) (ksym : Word) : List ELF64Section :=
  let header := ELF64Header.read m ksym.toNat
  (List.range header.shnum).map fun i =>
    .read m ((ksym + header.shoff).toNat + sizeofELF64Section * i)

-- The addresses of the names that are searched for.
structure Literals where
  debugInfo : Word
  debugLine : Word
  debugStr  : Word

-- The globals. The file is never written, so that a pointer to a section is the section.
structure Globals where
  symStart   : Word
  symn       : Nat
  strBase    : Word
  secstrBase : Word
  dbgInfo    : Option ELF64Section
  dbgLine    : Option ELF64Section
  dbgStr     : Option ELF64Section

def Globals.start : Globals where
  symStart   := 0
  symn       := 0
  strBase    := 0
  secstrBase := 0
  dbgInfo    := none
  dbgLine    := none
  dbgStr     := none

-- What the first loop assigns.
structure Tables where
  symn       : Nat
  secstrBase : Word
  sym        : Option ELF64Section
  str        : Option ELF64Section

def Tables.checkSymtab (t : Tables) (sec : ELF64Section) : Tables :=
  if sec.type = SHT_SYMTAB then { t with symn := sec.size, sym := some sec } else t

-- The bigger string section is most likely for symbols.
def Tables.checkStrtab (ksym : Word) (t : Tables) (sec : ELF64Section) : Tables :=
  if sec.type = SHT_STRTAB then
    match t.str with
    | none     => { t with str := some sec }
    | some str =>
      if sec.size < str.size then { t with secstrBase := ksym + sec.offset }
      else { t with secstrBase := ksym + str.offset, str := some sec }
  else t

def Tables.check (ksym : Word) (t : Tables) (sec : ELF64Section) : Tables :=
  (t.checkSymtab sec).checkStrtab ksym sec

section Init

variable (lit : Literals) (m : Memory) (fuel : Nat)

def bytesAt (a : Word) : Byte := m a.toNat

-- The kernel is linked with the `strcmp` of `misc.asm`.
def checkSection (secstrBase secName : Word) (sec : ELF64Section) : Except Exit Bool := do
  let v ← Strings.Asm.strcmp secName (secstrBase + BitVec.ofNat 64 sec.name) (bytesAt m) fuel
  return v = 0

def bindSection (k : Globals) (sec : ELF64Section) : Except Exit Globals :=
  if sec.type ≠ SHT_PROGBITS then return k
  else do
    let isInfo ← checkSection m fuel k.secstrBase lit.debugInfo sec
    if isInfo then return { k with dbgInfo := some sec }
    else do
      let isLine ← checkSection m fuel k.secstrBase lit.debugLine sec
      if isLine then return { k with dbgLine := some sec }
      else do
        let isStr ← checkSection m fuel k.secstrBase lit.debugStr sec
        if isStr then return { k with dbgStr := some sec } else return k

def initKsym (ksym : Word) (k : Globals) : Except Exit Globals :=
  let t := (sections m ksym).foldl (Tables.check ksym) ⟨k.symn, k.secstrBase, none, none⟩
  match t.sym, t.str with
  | some sym, some str =>
    (sections m ksym).foldlM (bindSection lit m fuel) { k with
      symStart   := ksym + sym.offset
      symn       := t.symn / sizeofELF64Sym
      strBase    := ksym + str.offset
      secstrBase := t.secstrBase }
  | _, _ => .error .halt

-- `sym->name+strBase`
def symbolToName (k : Globals) (sym : Word) : Word :=
  BitVec.ofNat 64 (load m sym.toNat 4) + k.strBase

end Init

end RoverOS.Ksym
