import RoverOS.Hashtable.Basic
import RoverOS.Libc.String
import RoverOS.Library.Bytes

-- The virtual file system, `vfs.c`. The structures are kept by their address; what `kmalloc` leaves
-- in a field that is never set is read from the heap.

open Function (update)
open Bytes (load)

namespace RoverOS

open Kmalloc

structure VfsHeader where
  type   : Nat -- all are `uint16_t`
  flags  : Nat
  length : Nat

structure VfsMountpoint where
  header     : VfsHeader
  type       : Nat
  childCount : Nat
  table      : Hashtable
  letter     : BitVec 8
  references : Nat -- `uint16_t`
  mfread     : Word

structure VfsFile where
  header     : VfsHeader
  name       : Ptr
  phys       : Nat
  size       : Nat -- `uint32_t`
  references : Nat -- `uint16_t`

-- `vFILE`
structure VFile where
  file       : Ptr
  mount      : Option Ptr
  fileOffset : Nat

-- `root.children` and all that is reached from there, and the handles that are open.
structure Vfs where
  heap     : Kmalloc.Heap
  children : Hashtable
  mounts   : Ptr → Option VfsMountpoint
  files    : Ptr → Option VfsFile
  handles  : List (Ptr × VFile)

-- `references += 1` and `references -= 1`
def VfsFile.retain (file : VfsFile) : VfsFile :=
  { file with references := u16 (file.references + 1) }

def VfsFile.release (file : VfsFile) : VfsFile :=
  { file with references := u16 (file.references + (2 ^ 16 - 1)) }

def VfsMountpoint.retain (mnt : VfsMountpoint) : VfsMountpoint :=
  { mnt with references := u16 (mnt.references + 1) }

namespace Vfs

def vfsTypeMount : Nat := 0
def vfsTypeFile : Nat := 1

def sizeofMountpoint : Nat := 40
def sizeofVfsFile : Nat := 32
def sizeofVFile : Nat := 24

-- The offsets of the fields that are not set.
def offsetReferences : Nat := 26
def offsetMfread : Nat := 32
def offsetFileOffset : Nat := 16

def slash : BitVec 8 := 0x2F

-- `((struct vfsHeader*)p)->type`
def headerType (s : Vfs) (p : Ptr) : Except Exit Nat :=
  match s.mounts p, s.files p with
  | some mnt, _       => .ok mnt.header.type
  | none,     some fl => .ok fl.header.type
  | none,     none    => .error .fault

section Mount

variable (leftover : Bytes → Nat → Hashtable.Bucket) (memcpy : Memcpy) (fuel : Nat)

-- `letter` is the address of the parameter. `mnt->mfread;` has no effect, so the driver is not used.
def mountVFS (type childCount : Nat) (letter : Ptr) (flags : Nat) (_mfread : Word) (s : Vfs) :
    Except Exit (Ptr × Vfs) := do
  let (mnt, heap) ← kmalloc sizeofMountpoint s.heap
  match mnt with
  | none     => .error .fault
  | some mnt =>
    let garbage := heap.mem mnt
    let ((_, _, table), heap) ←
      Hashtable.hashtableCreate leftover (if childCount = 0 then 1 else childCount) heap
    let mountpoint : VfsMountpoint := {
      header     := { type := vfsTypeMount, flags, length := sizeofMountpoint }
      type, table
      childCount := 0
      letter     := heap.mem letter 0
      references := load garbage offsetReferences 2
      mfread     := BitVec.ofNat 64 (load garbage offsetMfread 8) }
    let (children, heap) ←
      Hashtable.hashtableInsert memcpy s.children (BitVec.ofNat 64 mnt) letter 1 0 heap
    return (mnt, { s with heap, children, mounts := update s.mounts mnt (some mountpoint) })

-- The file is allocated whatever the parent is.
def addVFSFile (parent name : Ptr) (phys size flags : Nat) (s : Vfs) : Except Exit (Bool × Vfs) := do
  let (fl, heap) ← kmalloc sizeofVfsFile s.heap
  match fl with
  | none    => .error .fault
  | some fl =>
    let file : VfsFile := {
      header := { type := vfsTypeFile, flags, length := sizeofVfsFile }
      name, phys
      size       := u32 size
      references := 0 }
    let type ← s.headerType parent
    let s := { s with heap, files := update s.files fl (some file) }
    if type = vfsTypeMount then
      match s.mounts parent with
      | none     => .error .fault
      | some mnt =>
        let bytes ← Libc.strlen (s.heap.mem name) fuel 0
        let (table, heap) ←
          Hashtable.hashtableInsert memcpy mnt.table (BitVec.ofNat 64 fl) name bytes 0 s.heap
        return (true, { s with heap, mounts := update s.mounts parent (some { mnt with table }) })
    else return (false, s)

end Mount

section Path

variable (fuel : Nat)

-- `base` is a `uint32_t`.
def pathNameLength (str : Bytes) : Nat → Nat → Except Exit Nat
  | 0,        _    => .error .halt
  | fuel + 1, base =>
    if str base = 0#8 then .ok 0
    else if str base = slash then .ok 0
    else do
      let i ← pathNameLength str fuel (u32 (base + 1))
      return u32 (i + 1)

-- The loop from `nxt` on. The result is the structure at the end of the path, with `*mnt`.
def parseFrom (path : Nat → Ptr) (s : Vfs) :
    Nat → Ptr → Option Ptr → Nat → Except Exit (Option Ptr × Option Ptr)
  | 0,         _,      _,   _    => .error .halt
  | rounds + 1, header, mnt, base => do
    let slen ← pathNameLength (s.heap.mem (path 0)) fuel base
    if slen = 0 then return (some header, mnt)
    let type ← s.headerType header
    if type ≠ vfsTypeMount then return (none, mnt)
    match s.mounts header with
    | none            => .error .fault
    | some mountpoint =>
      match ← Hashtable.hashtableFetch mountpoint.table (path base) slen s.heap with
      | none      => return (none, some header)
      | some data =>
        let type ← s.headerType data.toNat
        if type = vfsTypeFile then return (some data.toNat, some header)
        parseFrom path s rounds data.toNat (some header) (u32 (base + (slen + 1)))

-- `path` gives the addresses of the string's bytes. `*mnt` is only read when it has been set.
def parsePath (path : Nat → Ptr) (s : Vfs) : Except Exit (Option Ptr × Option Ptr) := do
  let slen ← pathNameLength (s.heap.mem (path 0)) fuel 1
  match ← Hashtable.hashtableFetch s.children (path 1) slen s.heap with
  | none      => return (none, none)
  | some data =>
    if data = 0 then return (none, none)
    let type ← s.headerType data.toNat
    if type = vfsTypeFile then return (some data.toNat, none)
    parseFrom fuel path s fuel data.toNat none (u32 (1 + (slen + 1)))

end Path

section Handles

-- `none` for `NULL`
def openFile (fuel : Nat) (path : Nat → Ptr) (s : Vfs) : Except Exit (Option Ptr × Vfs) := do
  let (header, mnt) ← parsePath fuel path s
  match header with
  | none        => return (none, s)
  | some header =>
    let type ← s.headerType header
    if type ≠ vfsTypeFile then return (none, s)
    let (fl, heap) ← kmalloc sizeofVFile s.heap
    match fl, s.files header with
    | some fl, some file =>
      let handle : VFile := {
        file := header, mount := mnt, fileOffset := load (heap.mem fl) offsetFileOffset 8 }
      let s := { s with
        heap
        files   := update s.files header (some file.retain)
        handles := (fl, handle) :: s.handles }
      match mnt with
      | none     => return (some fl, s)
      | some mnt =>
        match s.mounts mnt with
        | none            => .error .fault
        | some mountpoint =>
          return (some fl, { s with mounts := update s.mounts mnt (some mountpoint.retain) })
    | _, _ => .error .fault

def handle (s : Vfs) (fl : Ptr) : Option VFile :=
  (s.handles.find? (·.1 = fl)).map Prod.snd

def dropHandle (s : Vfs) (fl : Ptr) : List (Ptr × VFile) :=
  s.handles.eraseP (·.1 = fl)

-- The references of the mount stay as they are.
def closeFile (fl : Option Ptr) (s : Vfs) : Except Exit Vfs :=
  match fl with
  | none    => .ok s
  | some fl =>
    match s.handle fl with
    | none        => .error .fault
    | some handle =>
      match s.files handle.file with
      | none      => .error .fault
      | some file => do
        let heap ← kfree (some fl) s.heap
        return { s with
          heap, files := update s.files handle.file (some file.release), handles := s.dropHandle fl }

end Handles

section Read

-- A driver's function, for the bytes requested, the file and the offset. It returns a number, and
-- has written the bytes to the destination.
abbrev Driver := Nat → VfsFile → Nat → Nat × List (BitVec 8)

-- What `vfs.h` asks of a driver for a file: it returns the number of the bytes that it has read in,
-- and these are the file's bytes from the offset on.
structure Driver.Reads (driver : Driver) (file : VfsFile) (contents : List (BitVec 8)) : Prop where
  size_eq : file.size = contents.length
  size_lt : contents.length < 2 ^ 32
  count (sz offset : Nat) : (driver sz file offset).1 = (driver sz file offset).2.length
  bytes (sz offset : Nat) : (driver sz file offset).2 <+: contents.drop offset

-- A call of a driver: the address that is called, the offset, what it returned and what it wrote.
structure Reading where
  called : Word
  offset : Nat
  count  : Nat
  bytes  : List (BitVec 8)

def replaceHandle (fl : Ptr) (handle : VFile) : List (Ptr × VFile) → List (Ptr × VFile)
  | []           => []
  | h :: handles => if h.1 = fl then (fl, handle) :: handles else h :: replaceHandle fl handle handles

def setHandle (s : Vfs) (fl : Ptr) (handle : VFile) : Vfs :=
  { s with handles := replaceHandle fl handle s.handles }

-- `code` gives the functions in memory. Without a mount nothing is read.
def readFile (code : Word → Option Driver) (fl : Ptr) (sz : Nat) (s : Vfs) :
    Except Exit (Option Reading × Vfs) :=
  match s.handle fl with
  | none        => .error .fault
  | some handle =>
    match handle.mount with
    | none     => .ok (none, s)
    | some mnt =>
      match s.mounts mnt, s.files handle.file with
      | some mountpoint, some file =>
        match code mountpoint.mfread with
        | none        => .error .fault
        | some driver =>
          let (count, bytes) := driver sz file handle.fileOffset
          let reading := { called := mountpoint.mfread, offset := handle.fileOffset, count, bytes }
          .ok (some reading, s.setHandle fl { handle with fileOffset := u64 (handle.fileOffset + count) })
      | _, _ => .error .fault

end Read

section Seek

-- `VFS_SEEK_SET`, `VFS_SEEK_END` and `VFS_SEEK_CUR`
def vfsSeekSet : Nat := 0
def vfsSeekEnd : Nat := 1
def vfsSeekCur : Nat := 2

-- The three modes have the same test, and in none of them the offset is added to the old one.
def seekOffset (size fileOffset offset seek : Nat) : Option Nat :=
  let behind : Bool := u64 (offset + fileOffset) ≥ size
  if seek = vfsSeekCur then some (if behind then size else offset)
  else if seek = vfsSeekEnd then some (if behind then 0 else sub64 size offset)
  else if seek = vfsSeekSet then some (if behind then size else offset)
  else none

-- The result is the number that is returned. For an unknown mode it is `!offset`.
def fileSeek (fl : Ptr) (offset seek : Nat) (s : Vfs) : Except Exit (Nat × Vfs) :=
  match s.handle fl with
  | none        => .error .fault
  | some handle =>
    match s.files handle.file with
    | none      => .error .fault
    | some file =>
      match seekOffset file.size handle.fileOffset offset seek with
      | none            => .ok (if offset = 0 then 1 else 0, s)
      | some fileOffset => .ok (fileOffset, s.setHandle fl { handle with fileOffset })

end Seek

end Vfs
end RoverOS
