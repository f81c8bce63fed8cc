import RoverOS.Bootloader.Mem
import RoverOS.Library.Bytes

-- `elf.c`: the loader of ELF files, with the part of `file.c` that it uses.

namespace RoverOS.Bootloader

open Bytes (Memory load)

-- `load` gets the fields that are read. `phentsize` is not one of them.
structure Elf64Header where
  magic     : Memory
  elfClass  : Nat
  entry     : Word
  phoff     : Nat
  phnum     : Nat

structure Elf64ProgramHeader where
  type   : Nat
  flags  : Nat
  offset : Nat
  vaddr  : Word
  filesz : Nat
  memsz  : Nat
  deriving DecidableEq

def sizeofElf64Header : Nat := 64
def sizeofElf64ProgramHeader : Nat := 56

def elfClass64 : Nat := 2
def ptLoad : Nat := 1

-- `"\177ELF"`
def elfMagic : Memory := fun i => [0x7F#8, 0x45#8, 0x4C#8, 0x46#8].getD i 0

-- `ident` has 12 bytes, and its alignment puts the fields from `entry` on where they belong.
def readHeader (file : Memory) (pos : Nat) : Elf64Header where
  magic i  := file (pos + i)
  elfClass := load file (pos + 4) 1
  entry    := BitVec.ofNat 64 (load file (pos + 24) 8)
  phoff    := load file (pos + 32) 8
  phnum    := load file (pos + 56) 2

def readProgramHeader (file : Memory) (pos : Nat) : Elf64ProgramHeader where
  type   := load file pos 4
  flags  := load file (pos + 4) 4
  offset := load file (pos + 8) 8
  vaddr  := BitVec.ofNat 64 (load file (pos + 16) 8)
  filesz := load file (pos + 32) 8
  memsz  := load file (pos + 40) 8

-- Where a section has been loaded to.
structure Section where
  load : Word
  prog : Elf64ProgramHeader

-- The state of the loader, with the bytes in memory outside of the tables, the position in the file, and
-- the sections that it has said it has mapped.
structure Loader where
  boot     : Boot
  mem      : Memory
  pos      : Nat
  sections : List Section

-- The loop goes on as long as the file's magic has no `F`. The fourth byte ends it in any case.
def checkMagic (s magic : Memory) : Nat → Nat → Except Exit Bool
  | 0,        _ => .error .halt
  | fuel + 1, i =>
    if magic i = 0x46#8 then .ok true
    else if s i ≠ magic i then .ok false
    else checkMagic s magic fuel (i + 1)

section Load

-- What `clearMem(ptr,sz)` does to the bytes is a parameter, as it is for the tables.
variable (clearMem : ClearMem) (clearBytes : Nat → Nat → Memory → Memory) (file : Memory)

-- The firmware reads all of the bytes.
def readFile (dest bytes : Nat) (s : Loader) : Loader :=
  { s with
    mem := fun a => if dest ≤ a ∧ a < dest + bytes then file (s.pos + (a - dest)) else s.mem a
    pos := s.pos + bytes }

-- The body of the loop, for a section that is loaded.
def loadSection (type : Nat) (prog : Elf64ProgramHeader) (s : Loader) : Except Exit Loader := do
  let (load, boot) ← allocMem clearMem prog.memsz prog.vaddr type false true true s.boot
  let s := { s with boot, mem := clearBytes load.toNat (u64 (prog.memsz + 0x1000)) s.mem }
  let s :=
    if prog.filesz = 0 then s
    else
      let save := s.pos
      let s := readFile file load.toNat prog.filesz { s with pos := prog.offset }
      { s with pos := save }
  let boot ← mapPages clearMem load prog.vaddr (u32 (prog.memsz / 0x1000 + 1)) (prog.flags.testBit 1)
    (prog.flags.testBit 0) s.boot
  return { s with boot, sections := { load, prog } :: s.sections }

def loadSections (type : Nat) : Nat → Loader → Except Exit Loader
  | 0,     s => .ok s
  | n + 1, s => do
    let prog := readProgramHeader file s.pos
    let s := { s with pos := s.pos + sizeofElf64ProgramHeader }
    if prog.type ≠ ptLoad then loadSections type n s
    else
      let s ← loadSection clearMem clearBytes file type prog s
      loadSections type n s

-- The entry point, or 0 for a file that is not accepted.
def loadELF (kernel : Bool) (s : Loader) : Except Exit (Word × Loader) := do
  let header := readHeader file 0
  let s := { s with pos := sizeofElf64Header }
  let magic ← checkMagic elfMagic header.magic 4 0
  if magic ≠ true then return (0, s)
  if header.elfClass ≠ elfClass64 then return (0, s)
  let s := { s with pos := header.phoff }
  let type := if kernel then MmapEntry.typeKernel else MmapEntry.typeElf
  let s ← loadSections clearMem clearBytes file type header.phnum s
  return (header.entry, s)

end Load

-- The byte that is reached from a virtual address through `pml`.
def Loader.byteAt (s : Loader) (virt : Word) : Option (BitVec 8) :=
  (testPath s.boot virt).map fun t => s.mem ((Paging.tableBase t.pte).toNat + virt.toNat % 0x1000)

end RoverOS.Bootloader
