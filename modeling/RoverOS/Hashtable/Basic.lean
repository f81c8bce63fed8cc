import RoverOS.Kmalloc.Interface

-- The kernel's hash table, `hashtable.c`. A key is a pointer and a number of bytes.

open Function (update)

namespace RoverOS

open Kmalloc

-- An entry is unused when its `hash` is `NULL`.
structure Hashbucket where
  hash    : Option Ptr
  hashLen : Nat
  flags   : BitVec 8
  data    : Word

-- The entry in the table itself, and the nodes on the heap that are chained to it.
structure Hashtable.Bucket where
  head  : Hashbucket
  chain : List (Ptr × Hashbucket)

structure Hashtable where
  bucketCount : Nat -- `uint16_t`
  buckets     : Nat → Hashtable.Bucket

namespace Hashtable

def flagCopy : BitVec 8 := 1 <<< 0

abbrev HasCopy (flags : BitVec 8) : Prop := flags &&& flagCopy ≠ 0#8

-- `sizeof(hashbucket)` and `sizeof(hashtable)`
def sizeofHashbucket : Nat := 40
def sizeofHashtable : Nat := 16

-- The table with the addresses of itself and of its buckets. Nobody clears the buckets: `leftover`
-- reads them from the memory that there was.
def hashtableCreate (leftover : Bytes → Nat → Bucket) (buckets : Nat) (h : Kmalloc.Heap) :
    Except Exit ((Ptr × Ptr × Hashtable) × Kmalloc.Heap) := do
  let (table, h) ← kmalloc sizeofHashtable h
  match table with
  | none       => .error .halt
  | some table =>
    let (array, h) ← kmalloc (sizeofHashbucket * u16 buckets) h
    match array with
    | none       => .error .halt
    | some array =>
      return ((table, array, { bucketCount := u16 buckets, buckets := leftover (h.mem array) }), h)

def readKey (hash : Bytes) (bytes : Nat) : List (BitVec 8) :=
  (List.range bytes).map hash

-- `n = (n<<5)+n+(h[i])`
def djb2 (key : List (BitVec 8)) : Word :=
  key.foldl (fun n b => (n <<< 5) + n + b.setWidth 64) 0#64

def hashData (hash : Bytes) (bytes buckets : Nat) : Nat :=
  (djb2 (readKey hash bytes)).toNat % buckets

-- Where `findKey` finds an entry.
inductive Slot
  | head
  | node (i : Nat)

structure Place where
  ent  : Nat
  slot : Slot

def Bucket.set (bucket : Bucket) (key : Hashbucket) : Slot → Bucket
  | .head   => { bucket with head := key }
  | .node i => { bucket with chain := bucket.chain.modify i fun (node, _) => (node, key) }

def setBucket (table : Hashtable) (ent : Nat) (bucket : Bucket) : Hashtable :=
  { table with buckets := update table.buckets ent bucket }

def set (table : Hashtable) (place : Place) (key : Hashbucket) : Hashtable :=
  table.setBucket place.ent ((table.buckets place.ent).set key place.slot)

-- The loop over the bytes counts in 32 bits, and does not end when `bytes` is out of reach.
def matchKey (mem : Ptr → Bytes) (hash : Bytes) (bytes : Nat) (test : Hashbucket) :
    Except Exit Bool :=
  if test.hashLen ≠ bytes then .ok false else
    match test.hash with
    | none   => if bytes = 0 then .ok true else .error .fault
    | some p =>
      if ∀ i < min bytes (2 ^ 32), hash i = mem p i then
        if bytes < 2 ^ 32 then .ok true else .error .halt
      else .ok false

def searchChain (mem : Ptr → Bytes) (hash : Bytes) (bytes : Nat) :
    List (Ptr × Hashbucket) → Except Exit (Option (Nat × Hashbucket))
  | []                 => .ok none
  | (_, test) :: chain => do
    if ← matchKey mem hash bytes test then return some (0, test)
    let key ← searchChain mem hash bytes chain
    return key.map fun (i, key) => (i + 1, key)

-- `*prev` is set to `NULL` and to nothing else.
def findKey (table : Hashtable) (hash : Ptr) (bytes : Nat) (h : Kmalloc.Heap) :
    Except Exit (Option (Place × Hashbucket)) :=
  let ent := hashData (h.mem hash) bytes table.bucketCount
  let bucket := table.buckets ent
  if bucket.head.hash = none then .ok none else
    match bucket.chain with
    | []    => .ok (some (⟨ent, .head⟩, bucket.head))
    | chain => do
      let key ← searchChain h.mem (h.mem hash) bytes chain
      return key.map fun (i, key) => (⟨ent, .node i⟩, key)

-- `kmalloc` and `memcpy` of a key. Of no bytes, the copy is `NULL`.
def copyKey (memcpy : Memcpy) (hash : Ptr) (bytes : Nat) (h : Kmalloc.Heap) :
    Except Exit (Option Ptr × Kmalloc.Heap) := do
  let (ptr, h) ← kmalloc bytes h
  match ptr with
  | none   => return (none, h)
  | some p => return (ptr, { h with mem := update h.mem p (memcpy (h.mem p) (h.mem hash) bytes) })

-- `thsh`
def copyHash (memcpy : Memcpy) (hash : Ptr) (bytes : Nat) (flags : BitVec 8) (h : Kmalloc.Heap) :
    Except Exit (Option Ptr × Kmalloc.Heap) :=
  if HasCopy flags then copyKey memcpy hash bytes h else .ok (some hash, h)

-- The first unused node that is not the last one gets the entry, and becomes the last one.
def reuseNode (key : Hashbucket) : List (Ptr × Hashbucket) → Option (List (Ptr × Hashbucket))
  | (node, test) :: next :: chain =>
    if test.hash = none then some [(node, key)]
    else (reuseNode key (next :: chain)).map ((node, test) :: ·)
  | _ => none

-- `kmalloc` of a new node behind the chain.
def appendNode (key : Hashbucket) (chain : List (Ptr × Hashbucket)) (h : Kmalloc.Heap) :
    Except Exit (List (Ptr × Hashbucket) × Kmalloc.Heap) := do
  let (node, h) ← kmalloc sizeofHashbucket h
  match node with
  | none      => .error .fault
  | some node => return (chain ++ [(node, key)], h)

def hashtableInsert (memcpy : Memcpy) (table : Hashtable) (data : Word) (hash : Ptr) (bytes : Nat)
    (flags : BitVec 8) (h : Kmalloc.Heap) : Except Exit (Hashtable × Kmalloc.Heap) := do
  let ent := hashData (h.mem hash) bytes table.bucketCount
  let (thsh, h) ← copyHash memcpy hash bytes flags h
  let key : Hashbucket := { hash := thsh, hashLen := bytes, flags, data }
  let bucket := table.buckets ent
  if bucket.head.hash = none then
    return (table.setBucket ent { head := key, chain := [] }, h)
  match reuseNode key bucket.chain with
  | some chain => return (table.setBucket ent { bucket with chain }, h)
  | none       =>
    let (chain, h) ← appendNode key bucket.chain h
    return (table.setBucket ent { bucket with chain }, h)

-- Nothing is unlinked: `prev` is `NULL` whenever a key is found.
def hashtableRemove (table : Hashtable) (hash : Ptr) (bytes : Nat) (h : Kmalloc.Heap) :
    Except Exit (Hashtable × Kmalloc.Heap) := do
  match ← findKey table hash bytes h with
  | none              => return (table, h)
  | some (place, key) =>
    let h ← if HasCopy key.flags then kfree key.hash h else .ok h
    return (table.set place { key with hash := none, data := 0 }, h)

-- `none` for `false`, and the data that is written for `true`.
def hashtableFetch (table : Hashtable) (hash : Ptr) (bytes : Nat) (h : Kmalloc.Heap) :
    Except Exit (Option Word) := do
  let key ← findKey table hash bytes h
  return key.map fun (_, key) => key.data

def updateHash (memcpy : Memcpy) (key : Hashbucket) (hash : Ptr) (bytes : Nat) (flags : BitVec 8)
    (h : Kmalloc.Heap) : Except Exit (Option Ptr × Kmalloc.Heap) :=
  if HasCopy key.flags then
    if HasCopy flags then krealloc memcpy key.hash bytes h
    else do
      let h ← kfree key.hash h
      return (some hash, h)
  else
    if HasCopy flags then copyKey memcpy hash bytes h
    else .ok (key.hash, h)

def hashtableUpdate (memcpy : Memcpy) (table : Hashtable) (data : Word) (hash : Ptr) (bytes : Nat)
    (flags : BitVec 8) (h : Kmalloc.Heap) : Except Exit (Bool × Hashtable × Kmalloc.Heap) := do
  match ← findKey table hash bytes h with
  | none              => return (false, table, h)
  | some (place, key) =>
    let (khash, h) ← updateHash memcpy key hash bytes flags h
    return (true, table.set place { hash := khash, hashLen := bytes, flags, data }, h)

section Destroy

def freeHash (key : Hashbucket) (h : Kmalloc.Heap) : Except Exit Kmalloc.Heap :=
  if HasCopy key.flags then kfree key.hash h else .ok h

-- The entry in the table is no block of its own.
def freeKey (bucket : Bucket) (h : Kmalloc.Heap) : Except Exit Kmalloc.Heap := do
  let h ← freeHash bucket.head h
  bucket.chain.foldlM (fun h (node, key) => do kfree (some node) (← freeHash key h)) h

-- `array` is the address of the buckets.
def hashtableDestroy (ptr array : Option Ptr) (table : Hashtable) (h : Kmalloc.Heap) :
    Except Exit Kmalloc.Heap := do
  if ptr = none then return h
  if array = none then kfree ptr h else do
    let h ← (List.range table.bucketCount).foldlM (fun h i => freeKey (table.buckets i) h) h
    let h ← kfree array h
    kfree ptr h

end Destroy

end Hashtable
end RoverOS
