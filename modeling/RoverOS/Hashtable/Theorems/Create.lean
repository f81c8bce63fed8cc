import RoverOS.Hashtable.Theorems.Cases
import RoverOS.Library.Bytes

-- What a new table contains: nobody clears the memory that `kmalloc` gives for its buckets.

open Function (update_self update_of_ne)
open Bytes (load load_congr)

namespace RoverOS.Hashtable

open Kmalloc

-- `NULL` is the pointer 0.
def readPtr (n : Nat) : Option Ptr :=
  if n = 0 then none else some n

-- A bucket as its bytes are read. `nodes` are those that a pointer to a chain leads to.
def readBucket (nodes : Ptr → List (Ptr × Hashbucket)) (mem : Bytes) (ent : Nat) : Bucket :=
  let bucket := sizeofHashbucket * ent
  { head := {
      hash    := readPtr (load mem bucket 8)
      hashLen := load mem (bucket + 8) 8
      flags   := BitVec.ofNat 8 (load mem (bucket + 16) 1)
      data    := BitVec.ofNat 64 (load mem (bucket + 24) 8) }
    chain := ((readPtr (load mem (bucket + 32) 8)).map nodes).getD [] }

-- Whatever is fetched is not there, and whatever is inserted goes to the head of its bucket.
structure StartsEmpty (table : Hashtable) : Prop where
  absent : ∀ (hash : Ptr) (bytes : Nat) (h : Kmalloc.Heap), hashtableFetch table hash bytes h = .ok none
  first  : ∀ {memcpy : Memcpy} {data : Word} {hash : Ptr} {bytes : Nat} {flags : BitVec 8}
    {h h' : Kmalloc.Heap} {table' : Hashtable},
    hashtableInsert memcpy table data hash bytes flags h = .ok (table', h') →
    ∃ thsh, copyHash memcpy hash bytes flags h = .ok (thsh, h') ∧
      table'.buckets (hashData (h.mem hash) bytes table.bucketCount) =
        { head := { hash := thsh, hashLen := bytes, flags, data }, chain := [] }

variable {h h' : Kmalloc.Heap} {table table' : Hashtable} {buckets ent n bytes : Nat} {hash : Ptr}
variable {nodes : Ptr → List (Ptr × Hashbucket)} {e : Hashbucket} {chain chain' : List (Ptr × Hashbucket)}
variable {memcpy : Memcpy} {data : Word} {flags : BitVec 8}

section Hash

theorem djb2_concat (key : Key) (b : BitVec 8) :
    djb2 (key ++ [b]) = (djb2 key <<< 5) + djb2 key + b.setWidth 64 := by
  simp [djb2]

-- The digits of a number to the base 33 are a key with that hash.
theorem exists_djb2 (n : Nat) : ∃ key, djb2 key = BitVec.ofNat 64 n := by
  induction n using Nat.strong_induction_on
  case h n hi =>
    by_cases hn : n = 0
    case pos => exact ⟨[], by rw [hn]; rfl⟩
    case neg =>
      obtain ⟨key, hk⟩ := hi (n / 33) (by omega)
      refine ⟨key ++ [BitVec.ofNat 8 (n % 33)], ?_⟩
      rw [djb2_concat, hk]
      apply BitVec.eq_of_toNat_eq
      have hm : n % 33 < 256 := by omega
      simp only [BitVec.toNat_add, BitVec.toNat_shiftLeft, BitVec.toNat_ofNat, BitVec.toNat_setWidth,
        Nat.shiftLeft_eq, Nat.mod_eq_of_lt hm]
      omega

-- Every bucket has a key.
theorem exists_hashData (he : ent < n) (hn : n ≤ 2 ^ 64) :
    ∃ (hash : Bytes) (bytes : Nat), hashData hash bytes n = ent := by
  obtain ⟨key, hk⟩ := exists_djb2 ent
  refine ⟨fun i => key.getD i 0, key.length, ?_⟩
  have hr : readKey (fun i => key.getD i 0) key.length = key := by
    apply List.ext_getElem
    case hl => simp [readKey]
    case h =>
      intro i h₁ h₂
      simp [readKey, h₂]
  rw [hashData, hr, hk, BitVec.toNat_ofNat, Nat.mod_eq_of_lt (by omega : ent < 2 ^ 64), Nat.mod_eq_of_lt he]

end Hash

section Insert

theorem reuseNode_ne (h : reuseNode e chain = some chain') : chain' ≠ [] := by
  induction chain generalizing chain'
  case nil => cases h
  case cons node chain hi =>
    cases chain
    case nil => cases h
    case cons next chain =>
      rw [reuseNode] at h
      split at h
      case isTrue => cases h; exact List.cons_ne_nil _ _
      case isFalse =>
        obtain ⟨_, _, rfl⟩ := Option.map_eq_some_iff.mp h
        exact List.cons_ne_nil _ _

theorem hashtableFetch_unused
    (hn : (table.buckets (hashData (h.mem hash) bytes table.bucketCount)).head.hash = none) :
    hashtableFetch table hash bytes h = .ok none := by
  simp only [hashtableFetch, findKey, if_pos hn]
  rfl

theorem hashtableInsert_unused
    (hn : (table.buckets (hashData (h.mem hash) bytes table.bucketCount)).head.hash = none)
    (hi : hashtableInsert memcpy table data hash bytes flags h = .ok (table', h')) :
    ∃ thsh, copyHash memcpy hash bytes flags h = .ok (thsh, h') ∧
      table'.buckets (hashData (h.mem hash) bytes table.bucketCount) =
        { head := { hash := thsh, hashLen := bytes, flags, data }, chain := [] } := by
  obtain ⟨⟨thsh, h₁⟩, hc, hi⟩ := Except.bind_ok_iff.mp hi
  dsimp only at hi
  rw [if_pos hn] at hi
  cases hi
  exact ⟨thsh, hc, update_self ..⟩

-- When the head is in use, the entry goes to the chain.
theorem hashtableInsert_used (hl : h.lock = false)
    (hn : (table.buckets (hashData (h.mem hash) bytes table.bucketCount)).head.hash ≠ none) :
    ∃ table' h', hashtableInsert memcpy table data hash bytes 0 h = .ok (table', h') ∧
      (table'.buckets (hashData (h.mem hash) bytes table.bucketCount)).chain ≠ [] := by
  have hc : copyHash memcpy hash bytes 0 h = .ok (some hash, h) := if_neg (by decide)
  simp only [hashtableInsert, hc, bind, Except.bind, if_neg hn]
  split
  case h_1 chain hr =>
    refine ⟨_, _, rfl, ?_⟩
    simp only [setBucket, update_self]
    exact reuseNode_ne hr
  case h_2 =>
    have hk : kmalloc sizeofHashbucket h = .ok (some h.next, h.grow sizeofHashbucket) :=
      kmalloc_ok hl (by decide) (by decide)
    simp only [appendNode, hk, bind, Except.bind]
    refine ⟨_, _, rfl, ?_⟩
    simp only [setBucket, update_self]
    exact List.append_ne_nil_of_right_ne_nil _ (List.cons_ne_nil _ _)

end Insert

theorem StartsEmpty.unused (he : StartsEmpty table) (hn : table.bucketCount ≤ 2 ^ 64)
    (hlt : ent < table.bucketCount) : (table.buckets ent).head.hash = none := by
  by_contra hu
  obtain ⟨key, bytes, hk⟩ := exists_hashData hlt hn
  let h : Kmalloc.Heap := { mem := fun _ => key, blocks := fun _ => none, free := 0, next := 1, lock := false }
  have hused : (table.buckets (hashData (h.mem 0) bytes table.bucketCount)).head.hash ≠ none := hk ▸ hu
  obtain ⟨table', h', hi, hc⟩ : ∃ table' h', hashtableInsert (fun m _ _ => m) table 0 0 bytes 0 h = .ok (table', h') ∧
      (table'.buckets (hashData (h.mem 0) bytes table.bucketCount)).chain ≠ [] := hashtableInsert_used rfl hused
  obtain ⟨_, _, hf⟩ := he.first hi
  rw [hf] at hc
  exact hc rfl

theorem StartsEmpty.iff (h₀ : 0 < table.bucketCount) (hn : table.bucketCount ≤ 2 ^ 64) :
    StartsEmpty table ↔ ∀ ent < table.bucketCount, (table.buckets ent).head.hash = none := by
  constructor
  case mp => exact fun he _ hlt => he.unused hn hlt
  case mpr =>
    intro hu
    exact {
      absent := fun _ _ _ => hashtableFetch_unused (hu _ (Nat.mod_lt _ h₀))
      first  := hashtableInsert_unused (hu _ (Nat.mod_lt _ h₀))
    }

-- What is read of the buckets is what was in the memory: the redzone is behind them.
theorem load_setRedzone {b : Bytes} (h : ent < n) :
    load (setRedzone b (sizeofHashbucket * n)) (sizeofHashbucket * ent) 8 = load b (sizeofHashbucket * ent) 8 := by
  refine load_congr fun i _ hi => if_neg fun ⟨hle, _⟩ => ?_
  have hm : sizeofHashbucket * (ent + 1) ≤ sizeofHashbucket * n := Nat.mul_le_mul_left _ h
  rw [Nat.mul_succ] at hm
  have hs : 8 ≤ sizeofHashbucket := by decide
  omega

theorem hashtableCreate_buckets {leftover : Bytes → Nat → Bucket} {t array : Ptr}
    (hlt : buckets < 2 ^ 16) (hc : hashtableCreate leftover buckets h = .ok ((t, array, table), h')) :
    table.bucketCount = buckets ∧
      table.buckets = leftover (setRedzone (h.mem (h.next + 1)) (sizeofHashbucket * buckets)) := by
  have hu : u16 buckets = buckets := Nat.mod_eq_of_lt hlt
  obtain ⟨⟨t, h₁⟩, hk, hc⟩ := Except.bind_ok_iff.mp hc
  cases t
  case none => cases hc
  case some t =>
    obtain ⟨⟨array, h₂⟩, hk', hc⟩ := Except.bind_ok_iff.mp hc
    cases array
    case none => cases hc
    case some array =>
      cases hc
      obtain ⟨rfl, rfl⟩ := kmalloc_some hk
      obtain ⟨rfl, rfl⟩ := kmalloc_some hk'
      have hb : (h.grow sizeofHashtable).mem (h.grow sizeofHashtable).next = h.mem (h.next + 1) :=
        update_of_ne (Nat.succ_ne_self _) _ _
      refine ⟨hu, ?_⟩
      simp only [Heap.grow, update_self] at hb ⊢
      rw [hb, hu]

-- `hashtableCreate` leaves the table empty when every `hash` that was left over is `NULL`.
theorem hashtableCreate_empty_iff {t array : Ptr} (h₁ : 1 ≤ buckets) (hlt : buckets < 2 ^ 16)
    (hc : hashtableCreate (readBucket nodes) buckets h = .ok ((t, array, table), h')) :
    StartsEmpty table ↔
      ∀ ent < buckets, load (h.mem (h.next + 1)) (sizeofHashbucket * ent) 8 = 0 := by
  obtain ⟨hn, hb⟩ := hashtableCreate_buckets hlt hc
  rw [StartsEmpty.iff (by omega) (by omega), hn, hb]
  refine forall₂_congr fun ent he => ?_
  simp only [readBucket, load_setRedzone he, readPtr]
  split
  case isTrue hz => simp [hz]
  case isFalse hz => simp [hz]

section Example

-- The heap whose second block is given.
def secondBlock (b : Bytes) : Kmalloc.Heap where
  mem ptr  := if ptr = 2 then b else fun _ => 0
  blocks _ := none
  free _   := 0
  next     := 1
  lock     := false

abbrev noNodes : Ptr → List (Ptr × Hashbucket) := fun _ => []

theorem hashtableCreate_empty_zero : ∃ t array table h',
    hashtableCreate (readBucket noNodes) 3 (secondBlock fun _ => 0) = .ok ((t, array, table), h') ∧
      StartsEmpty table := by
  refine ⟨1, 2, _, _, rfl, ?_⟩
  have hz : ∀ ent < 3, load ((secondBlock fun _ => 0).mem 2) (sizeofHashbucket * ent) 8 = 0 := by decide
  exact (@hashtableCreate_empty_iff _ _ _ 3 noNodes 1 2 (by decide) (by decide) rfl).mpr hz

-- A pointer that was left over makes the head look used: whatever is fetched from it is there.
theorem hashtableCreate_leftover : ¬∀ (nodes : Ptr → List (Ptr × Hashbucket)) (buckets : Nat) (h h' : Kmalloc.Heap)
    (t array : Ptr) (table : Hashtable), 1 ≤ buckets → buckets < 2 ^ 16 →
    hashtableCreate (readBucket nodes) buckets h = .ok ((t, array, table), h') → StartsEmpty table := by
  intro hc
  let h := secondBlock fun i => if i = 0 then 1 else 0
  have he := hc noNodes 1 h _ 1 2 _ (by decide) (by decide) rfl
  have hu := he.unused (by decide) (show 0 < 1 by decide)
  exact absurd hu (by decide)

end Example

end RoverOS.Hashtable
