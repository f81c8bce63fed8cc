import RoverOS.Basic
import RoverOS.Libc.String
import RoverOS.Library.Bytes

-- The ramdisk. `Ramdisk/ramdisk.c` writes its image, and the kernel's `initRamdisk` reads it.

open Bytes (Memory load bytesOf)
open RoverOS.Libc (strlen)

namespace RoverOS.Ramdisk

abbrev Byte := BitVec 8

def rdFileMagic : Nat := 0x5244464C
def rdHeaderMagic : Nat := 0x52444852

-- `sizeof(struct ramdiskHeader)` and `sizeof(struct ramdiskFile)`, which are packed.
def sizeofHeader : Nat := 6
def sizeofFile : Nat := 12

def slash : Byte := 0x2F
def backslash : Byte := 0x5C

-- A file below the base path. Its path is a string, and `/` only separates names.
structure File where
  dir      : List Byte
  name     : List Byte
  contents : List Byte
  noNul    : 0#8 ∉ dir ++ slash :: name
  noSlash  : slash ∉ name
  size_lt  : contents.length < 2 ^ 32

def File.path (file : File) : List Byte :=
  file.dir ++ slash :: file.name

def File.size (file : File) : Nat :=
  file.contents.length

section Writer

-- `header.files` and what is on the disk.
structure Writer where
  files : Nat -- `uint16_t`
  disk  : List Byte

def headerBytes (magic files : Nat) : List Byte :=
  bytesOf magic 4 ++ bytesOf files 2

abbrev IsSeparator (b : Byte) : Prop := b = backslash ∨ b = slash

-- The loop goes down from the end of the string, and stops at nothing but a separator.
def findSeparator (fp : List Byte) : Nat → Except Exit Nat
  | 0      => if IsSeparator (fp.getD 0 0) then .ok 0 else .error .fault
  | sl + 1 => if IsSeparator (fp.getD (sl + 1) 0) then .ok (sl + 1) else findSeparator fp sl

def record (name contents : List Byte) : List Byte :=
  bytesOf rdFileMagic 4 ++ bytesOf contents.length 8 ++ (name ++ [0#8]) ++ contents

-- The buffer for the name has as many bytes as there are before the name, and one more.
def addFile (w : Writer) (file : File) : Except Exit Writer := do
  let fp := file.path
  let sl ← findSeparator fp fp.length
  let sl := sl + 1
  let name := fp.drop sl
  if name.length + 1 > sl + 1 then .error .fault else
    return { files := u16 (w.files + 1), disk := w.disk ++ record name file.contents }

-- The header is written twice, and the second time over the first one.
def main (files : List File) : Except Exit (List Byte) := do
  let w ← files.foldlM addFile { files := 0, disk := headerBytes 0 0 }
  return headerBytes rdHeaderMagic w.files ++ w.disk.drop sizeofHeader

end Writer

section Reader

-- A call of `addVFSFile`, with the addresses of the parent and of the name.
structure AddCall where
  parent : Nat
  name   : Nat
  phys   : Nat
  size   : Nat -- `uint32_t`
  flags  : Nat

def vfsFlagNoUnload : Nat := 1 <<< 2

def rdFileData (fl nlen : Nat) : Nat := u64 (fl + sizeofFile + nlen + 1)
def rdFileName (fl : Nat) : Nat := u64 (fl + sizeofFile)
def rdNextFile (fl fsz nlen : Nat) : Nat := u64 (fl + fsz + nlen + 1 + sizeofFile)

def magic (m : Memory) (file : Nat) : Nat := load m file 4
def size (m : Memory) (file : Nat) : Nat := load m (file + 4) 8

-- `physPtr` goes on by the size of the file behind: `file` is there already.
def readFiles (m : Memory) (fuel mount file physPtr : Nat) : Nat → Except Exit (List AddCall)
  | 0     => .ok []
  | n + 1 =>
    if magic m file ≠ rdFileMagic then .ok [] else do
      let name := rdFileName file
      let len := u32 (← strlen m fuel name)
      let call : AddCall := {
        parent := mount, name, phys := rdFileData physPtr len, size := u32 (size m file),
        flags := vfsFlagNoUnload }
      let file := rdNextFile file (size m file) len
      let physPtr := rdNextFile physPtr (size m file) len
      let calls ← readFiles m fuel mount file physPtr n
      return call :: calls

-- The calls of `addVFSFile`, when `vmallocPhys` gives `virtPtr` and `mountVFS` gives `mount`.
def initRamdisk (m : Memory) (fuel rdptr virtPtr mount : Nat) : Except Exit (List AddCall) :=
  if virtPtr = 0 then .error .halt
  else if load m virtPtr 4 ≠ rdHeaderMagic then .ok []
  else if mount = 0 then .ok []
  else readFiles m fuel mount (u64 (virtPtr + sizeofHeader)) (u64 (rdptr + sizeofHeader))
    (load m (virtPtr + 4) 2)

end Reader

end RoverOS.Ramdisk
