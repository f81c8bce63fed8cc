import RoverOS.Hashtable.Theorems.Ops
import RoverOS.Libc.String
import RoverOS.Library.Run

-- The table is a map, as long as no key is looked up or inserted past the wrong entry.

open Function (update)

namespace RoverOS.Hashtable

open Kmalloc

-- A table, the heap it lives on, and the map it stands for.
structure Tracked where
  table : Hashtable
  heap  : Kmalloc.Heap
  map   : Key → Option Word

def Tracked.key (s : Tracked) (hash : Ptr) (bytes : Nat) : Key :=
  readKey (s.heap.mem hash) bytes

def Tracked.bucket (s : Tracked) (key : Key) : Bucket :=
  s.table.buckets (index s.table.bucketCount key)

-- `other` is what the rest of the kernel does to the memory.
inductive Op
  | insert (data : Word) (hash : Ptr) (bytes : Nat) (flags : BitVec 8)
  | remove (hash : Ptr) (bytes : Nat)
  | update (data : Word) (hash : Ptr) (bytes : Nat) (flags : BitVec 8)
  | fetch (hash : Ptr) (bytes : Nat)
  | other (heap : Kmalloc.Heap)

inductive Step (memcpy : Memcpy) : Tracked → Op → Tracked → Prop
  | insert {s : Tracked} {data hash bytes flags table heap} :
    hashtableInsert memcpy s.table data hash bytes flags s.heap = .ok (table, heap) →
    Step memcpy s (.insert data hash bytes flags)
      ⟨table, heap, update s.map (s.key hash bytes) (some data)⟩
  | remove {s : Tracked} {hash bytes table heap} :
    hashtableRemove s.table hash bytes s.heap = .ok (table, heap) →
    Step memcpy s (.remove hash bytes) ⟨table, heap, update s.map (s.key hash bytes) none⟩
  | update {s : Tracked} {data hash bytes flags found table heap} :
    hashtableUpdate memcpy s.table data hash bytes flags s.heap = .ok (found, table, heap) →
    Step memcpy s (.update data hash bytes flags) ⟨table, heap,
      if (s.map (s.key hash bytes)).isSome then update s.map (s.key hash bytes) (some data)
      else s.map⟩
  | fetch {s : Tracked} {hash bytes} : Step memcpy s (.fetch hash bytes) s
  | other {s : Tracked} {heap} : Step memcpy s (.other heap) { s with heap }

-- A key is looked up where it is findable, and the heap is used when its lock is free. The memory
-- of the keys in the table stays as it is.
def Allowed (memcpy : Memcpy) (s : Tracked) : Op → Prop
  | .insert _ hash bytes flags =>
    s.map (s.key hash bytes) = none ∧ s.heap.lock = false ∧ hash < s.heap.next ∧
      (HasCopy flags → Copyable memcpy s.heap hash bytes) ∧
      Reusable (s.bucket (s.key hash bytes)).chain
  | .remove hash bytes =>
    s.heap.lock = false ∧ Findable s.heap.mem (s.key hash bytes) (s.bucket (s.key hash bytes))
  | .update _ hash bytes flags =>
    s.heap.lock = false ∧ hash < s.heap.next ∧
      Findable s.heap.mem (s.key hash bytes) (s.bucket (s.key hash bytes)) ∧
      ∀ i, ∀ e ∈ s.table.entries i, keyOf s.heap.mem e = s.key hash bytes → ¬HasCopy e.flags →
        HasCopy flags → Copyable memcpy s.heap hash bytes
  | .fetch hash bytes => Findable s.heap.mem (s.key hash bytes) (s.bucket (s.key hash bytes))
  | .other heap =>
    s.heap.next ≤ heap.next ∧ ∀ i, ∀ e ∈ s.table.entries i, ∀ p, e.hash = some p →
      heap.mem p = s.heap.mem p ∧ (HasCopy e.flags → heap.blocks p = s.heap.blocks p)

-- The function returns, and its result is the one of the map.
def Answers (memcpy : Memcpy) (s : Tracked) : Op → Prop
  | .insert data hash bytes flags =>
    ∃ r, hashtableInsert memcpy s.table data hash bytes flags s.heap = .ok r
  | .remove hash bytes => ∃ r, hashtableRemove s.table hash bytes s.heap = .ok r
  | .update data hash bytes flags =>
    ∃ r, hashtableUpdate memcpy s.table data hash bytes flags s.heap =
      .ok ((s.map (s.key hash bytes)).isSome, r)
  | .fetch hash bytes =>
    hashtableFetch s.table hash bytes s.heap = .ok (s.map (s.key hash bytes))
  | .other _ => True

variable {table : Hashtable} {h : Kmalloc.Heap} {memcpy : Memcpy} {s s' : Tracked} {op : Op}

theorem Inv.step (inv : Inv s.table s.heap s.map) (ha : Allowed memcpy s op)
    (h : Step memcpy s op s') : Inv s'.table s'.heap s'.map := by
  cases h
  case insert data _ _ _ _ _ h =>
    have ⟨hm, hl, hn, hc, hu⟩ := ha
    have ⟨_, _, h', inv'⟩ := inv.insert_spec data hl rfl hn hm hc hu
    cases h.symm.trans h'
    exact inv'
  case remove h =>
    have ⟨hl, hf⟩ := ha
    have ⟨_, _, h', inv'⟩ := inv.remove_spec hl rfl hf
    cases h.symm.trans h'
    exact inv'
  case update data _ _ _ _ _ _ h =>
    have ⟨hl, hn, hf, hc⟩ := ha
    have ⟨_, _, h', inv'⟩ := inv.update_spec hl rfl hn data hf hc
    cases h.symm.trans h'
    exact inv'
  case fetch => exact inv
  case other heap =>
    have ⟨hn, hk⟩ := ha
    exact inv.other hn hk

theorem Inv.answers (inv : Inv s.table s.heap s.map) (ha : Allowed memcpy s op) :
    Answers memcpy s op := by
  cases op
  case insert data _ _ _ =>
    have ⟨hm, hl, hn, hc, hu⟩ := ha
    have ⟨_, _, h', _⟩ := inv.insert_spec data hl rfl hn hm hc hu
    exact ⟨_, h'⟩
  case remove =>
    have ⟨hl, hf⟩ := ha
    have ⟨_, _, h', _⟩ := inv.remove_spec hl rfl hf
    exact ⟨_, h'⟩
  case update data _ _ _ =>
    have ⟨hl, hn, hf, hc⟩ := ha
    have ⟨_, _, h', _⟩ := inv.update_spec hl rfl hn data hf hc
    exact ⟨_, h'⟩
  case fetch => exact inv.fetch_spec rfl ha
  case other => trivial

-- In every run that starts with an empty table, every call returns what the map does.
theorem hashtable_isMap (hc : 0 < table.bucketCount)
    (he : ∀ i < table.bucketCount, Empty (table.buckets i))
    (run : Run.Steps (Step memcpy) (Allowed memcpy) ⟨table, h, fun _ => none⟩ s)
    (ha : Allowed memcpy s op) : Answers memcpy s op := by
  have inv : Inv s.table s.heap s.map := by
    refine run.invariant (I := fun s => Inv s.table s.heap s.map) (inv_empty hc he) ?_
    exact fun inv ha h => inv.step ha h
  exact inv.answers ha

section Example

-- A bucket for all keys, and the keys `a` and `b` in memory.
def oneBucket : Hashtable where
  bucketCount := 1
  buckets _   := { head := { hash := none, hashLen := 0, flags := 0, data := 0 }, chain := [] }

def twoKeys : Kmalloc.Heap where
  mem p _  := if p = 1 then 0x61 else 0x62
  blocks _ := none
  free _   := 0
  next     := 3
  lock     := false

theorem empty_oneBucket : ∀ i < oneBucket.bucketCount, Empty (oneBucket.buckets i) :=
  fun _ _ => ⟨rfl, rfl⟩

-- The table without a key, with the key `a`, and then with both.
def noEntry : Tracked :=
  ⟨oneBucket, twoKeys, fun _ => none⟩

def oneEntry : Tracked where
  table := oneBucket.setBucket 0 ⟨⟨some 1, 1, 0, 7⟩, []⟩
  heap  := twoKeys
  map   := update (fun _ => none) [0x61] (some 7)

def twoEntries : Tracked where
  table := oneEntry.table.setBucket 0 ⟨⟨some 1, 1, 0, 7⟩, [(3, ⟨some 2, 1, 0, 8⟩)]⟩
  heap  := twoKeys.grow sizeofHashbucket
  map   := update oneEntry.map [0x62] (some 8)

-- The second key is chained to the first one, and found there.
theorem hashtable_isMap_twoEntries :
    Run.Steps (Step Libc.memcpy) (Allowed Libc.memcpy) noEntry twoEntries ∧
      hashtableFetch twoEntries.table 2 1 twoEntries.heap = .ok (some 8) := by
  have allowed₁ : Allowed Libc.memcpy noEntry (.insert 7 1 1 0) :=
    ⟨rfl, rfl, by decide, fun h => absurd rfl h, trivial⟩
  have allowed₂ : Allowed Libc.memcpy oneEntry (.insert 8 2 1 0) :=
    ⟨rfl, rfl, by decide, fun h => absurd rfl h, trivial⟩
  have step₁ : Step Libc.memcpy noEntry (.insert 7 1 1 0) oneEntry := .insert rfl
  have step₂ : Step Libc.memcpy oneEntry (.insert 8 2 1 0) twoEntries := .insert rfl
  have steps := Run.Steps.step (.step (.refl _) allowed₁ step₁) allowed₂ step₂
  have findable : Allowed Libc.memcpy twoEntries (.fetch 2 1) :=
    (by decide : Findable twoEntries.heap.mem (twoEntries.key 2 1)
      (twoEntries.bucket (twoEntries.key 2 1)))
  exact ⟨steps, hashtable_isMap (by decide) empty_oneBucket steps findable⟩

-- What the table is meant to be used for: any sequence of calls, in which no key is inserted twice.
def Intended (s : Tracked) : Op → Prop
  | .insert _ hash bytes _ => s.map (s.key hash bytes) = none
  | .other heap            => ∀ i, ∀ e ∈ s.table.entries i, ∀ p, e.hash = some p →
    heap.mem p = s.heap.mem p
  | _                      => True

-- With one key in its only bucket, the table has every key.
theorem hashtable_fetches_absent :
    ¬∀ (memcpy : Memcpy) (table : Hashtable) (h : Kmalloc.Heap) (s : Tracked) (hash : Ptr)
      (bytes : Nat) (r : Option Word), 0 < table.bucketCount → table.bucketCount < 2 ^ 16 →
      (∀ i < table.bucketCount, Empty (table.buckets i)) →
      Run.Steps (Step memcpy) Intended ⟨table, h, fun _ => none⟩ s →
      hashtableFetch s.table hash bytes s.heap = .ok r → r = s.map (s.key hash bytes) := by
  intro hc
  have step₁ : Step Libc.memcpy noEntry (.insert 7 1 1 0) oneEntry := .insert rfl
  have intended : Intended noEntry (.insert 7 1 1 0) := rfl
  have steps : Run.Steps (Step Libc.memcpy) Intended noEntry oneEntry :=
    .step (.refl _) intended step₁
  have h : some 7 = oneEntry.map (oneEntry.key 2 1) :=
    hc Libc.memcpy oneBucket twoKeys oneEntry 2 1 (some 7) (by decide) (by decide) empty_oneBucket
      steps rfl
  exact absurd h (by decide)

end Example

end RoverOS.Hashtable
