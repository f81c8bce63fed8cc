import RoverOS.Vfs.Basic

-- The globals of `vfs.c`: the file system, and the array of the mounted devices.

namespace RoverOS

open Kmalloc

-- `mount` is the array's address. Its elements are written in one place, and nothing reads them.
structure VfsGlobals where
  vfs     : Vfs
  mount   : Option Ptr
  slots   : Nat -- all are `uint32_t`
  devices : Nat

namespace VfsGlobals

-- `sizeof(struct vfsMountpoint*)`
def sizeofPointer : Nat := 8

-- `initRamdisk`, which comes last, calls `mountVFS` and `addVFSFile`.
def initVFS (leftover : Bytes → Nat → Hashtable.Bucket) (g : VfsGlobals) : Except Exit VfsGlobals := do
  let (mount, heap) ← kmalloc (sizeofPointer * 2) g.vfs.heap
  let ((_, _, children), heap) ← Hashtable.hashtableCreate leftover 200 heap
  return { vfs := { g.vfs with heap, children }, mount, devices := 0, slots := 1 }

-- `&mount[i]` is `element i`, and `tables` gives the addresses of a mount's table and its buckets.
def unmountVFS (element : Nat → Ptr) (tables : Ptr → Option Ptr × Option Ptr) (mnt : Ptr) (g : VfsGlobals) :
    Except Exit (Bool × VfsGlobals) :=
  if (List.range g.devices).any (element · = mnt) then
    match g.vfs.mounts mnt with
    | none            => .error .fault
    | some mountpoint => do
      let (table, buckets) := tables mnt
      let heap ← Hashtable.hashtableDestroy table buckets mountpoint.table g.vfs.heap
      return (true, { g with vfs := { g.vfs with heap }, devices := u32 (g.devices + (2 ^ 32 - 1)) })
  else .ok (false, g)

end VfsGlobals
end RoverOS
