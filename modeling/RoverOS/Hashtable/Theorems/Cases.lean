import RoverOS.Hashtable.Theorems.Ops

-- All that a call of a function of the table can do when it returns.

open Function (update)

namespace RoverOS.Kmalloc

variable {h h' : Heap} {sz : Nat} {r : Option Ptr} {p : Ptr} {memcpy : Memcpy}

-- A new block, with whatever is in it.
structure Grown (h : Heap) (sz : Nat) (h' : Heap) : Prop where
  free   : h.lock = false
  pos    : 0 < sz
  lt     : sz < maxRequest
  blocks : h'.blocks = update h.blocks h.next (some sz)
  next   : h'.next = h.next + 1
  lock   : h'.lock = h.lock

theorem kmalloc_cases (hk : kmalloc sz h = .ok (r, h')) :
    (h.lock = false ∧ sz = 0 ∧ r = none ∧ h' = h) ∨ (r = some h.next ∧ Grown h sz h') := by
  have ⟨_, hl, hk⟩ := Except.bind_ok_iff.mp hk
  have hl := getLock_ok hl
  split at hk
  case isTrue hz =>
    cases hk
    exact .inl ⟨hl, hz, rfl, rfl⟩
  case isFalse hz =>
    split at hk
    case isTrue => cases hk
    case isFalse hm =>
      cases hk
      exact .inr ⟨rfl, hl, Nat.pos_of_ne_zero hz, Nat.lt_of_not_le hm, rfl, rfl, rfl⟩

theorem kfree_cases (hk : kfree r h = .ok h') : h.lock = false ∧ ∃ p sz, r = some p ∧
    h.blocks p = some sz ∧ Intact (h.mem p) sz ∧ h' = { h with blocks := update h.blocks p none } := by
  have ⟨_, hl, hk⟩ := Except.bind_ok_iff.mp hk
  have ⟨⟨p, sz⟩, hc, hk⟩ := Except.bind_ok_iff.mp hk
  cases hk
  refine ⟨getLock_ok hl, p, sz, ?_⟩
  unfold checkBlock at hc
  split at hc
  case h_1 => cases hc
  case h_2 q =>
    split at hc
    case h_1 => cases hc
    case h_2 k hb =>
      split at hc
      case isFalse => cases hc
      case isTrue hi =>
        cases hc
        exact ⟨rfl, hb, hi, rfl⟩

end RoverOS.Kmalloc

namespace RoverOS.Hashtable

open Kmalloc

variable {memcpy : Memcpy} {table table' : Hashtable} {h h' : Kmalloc.Heap} {hash : Ptr} {bytes : Nat}
variable {flags : BitVec 8} {data : Word} {thsh : Option Ptr} {place : Place} {e : Hashbucket}
variable {chain : List (Ptr × Hashbucket)} {i : Nat}

-- The bucket of a key.
def entOf (table : Hashtable) (h : Kmalloc.Heap) (hash : Ptr) (bytes : Nat) : Nat :=
  hashData (h.mem hash) bytes table.bucketCount

theorem entOf_lt (hc : 0 < table.bucketCount) : entOf table h hash bytes < table.bucketCount :=
  Nat.mod_lt _ hc

-- The pointer that an entry gets.
inductive CopyHash (hash : Ptr) (bytes : Nat) (flags : BitVec 8) (h : Kmalloc.Heap) :
    Option Ptr → Kmalloc.Heap → Prop
  | given : ¬HasCopy flags → CopyHash hash bytes flags h (some hash) h
  | null  : HasCopy flags → h.lock = false → bytes = 0 → CopyHash hash bytes flags h none h
  | copy {h' : Kmalloc.Heap} : HasCopy flags → Grown h bytes h' →
    CopyHash hash bytes flags h (some h.next) h'

theorem copyKey_cases (hk : copyKey memcpy hash bytes h = .ok (thsh, h')) :
    (h.lock = false ∧ bytes = 0 ∧ thsh = none ∧ h' = h) ∨ (thsh = some h.next ∧ Grown h bytes h') := by
  have ⟨⟨ptr, h₁⟩, h₁k, hk⟩ := Except.bind_ok_iff.mp hk
  cases ptr
  case none =>
    have ⟨ht, hh⟩ := Prod.mk.inj (Except.ok.inj hk)
    rcases kmalloc_cases h₁k with ⟨hl, hz, _, he⟩ | ⟨hn, _⟩
    · exact .inl ⟨hl, hz, ht.symm, hh.symm.trans he⟩
    · cases hn
  case some p =>
    have ⟨ht, hh⟩ := Prod.mk.inj (Except.ok.inj hk)
    rcases kmalloc_cases h₁k with ⟨_, _, hn, _⟩ | ⟨hp, hg⟩
    · cases hn
    · subst hh
      exact .inr ⟨ht.symm.trans hp, hg.free, hg.pos, hg.lt, hg.blocks, hg.next, hg.lock⟩

theorem copyHash_cases (hk : copyHash memcpy hash bytes flags h = .ok (thsh, h')) :
    CopyHash hash bytes flags h thsh h' := by
  unfold copyHash at hk
  split at hk
  case isFalse hc =>
    cases hk
    exact .given hc
  case isTrue hc =>
    rcases copyKey_cases hk with ⟨hl, hz, rfl, rfl⟩ | ⟨rfl, hg⟩
    · exact .null hc hl hz
    · exact .copy hc hg

-- Where the new entry goes.
inductive Inserts (table : Hashtable) (ent : Nat) (key : Hashbucket) (h : Kmalloc.Heap) :
    Hashtable → Kmalloc.Heap → Prop
  | head : (table.buckets ent).head.hash = none →
    Inserts table ent key h (table.setBucket ent { head := key, chain := [] }) h
  | reuse {chain : List (Ptr × Hashbucket)} : (table.buckets ent).head.hash ≠ none →
    reuseNode key (table.buckets ent).chain = some chain →
    Inserts table ent key h (table.setBucket ent { table.buckets ent with chain }) h
  | append {h' : Kmalloc.Heap} : (table.buckets ent).head.hash ≠ none →
    reuseNode key (table.buckets ent).chain = none → Grown h sizeofHashbucket h' →
    Inserts table ent key h (table.setBucket ent { table.buckets ent with
      chain := (table.buckets ent).chain ++ [(h.next, key)] }) h'

theorem insert_cases (hk : hashtableInsert memcpy table data hash bytes flags h = .ok (table', h')) :
    ∃ thsh h₁, CopyHash hash bytes flags h thsh h₁ ∧
      Inserts table (entOf table h hash bytes) { hash := thsh, hashLen := bytes, flags, data } h₁ table' h' := by
  have ⟨⟨thsh, h₁⟩, hc, hk⟩ := Except.bind_ok_iff.mp hk
  refine ⟨thsh, h₁, copyHash_cases hc, ?_⟩
  dsimp only at hk
  split at hk
  case isTrue hh =>
    cases hk
    exact .head hh
  case isFalse hh =>
    split at hk
    case h_1 chain hr =>
      cases hk
      exact .reuse hh hr
    case h_2 hr =>
      have ⟨⟨chain, h₂⟩, ha, hk⟩ := Except.bind_ok_iff.mp hk
      cases hk
      have ⟨⟨node, h₃⟩, hm, ha⟩ := Except.bind_ok_iff.mp ha
      rcases kmalloc_cases hm with ⟨_, hz, _⟩ | ⟨rfl, hg⟩
      · cases hz
      · cases ha
        exact .append hh hr hg

theorem searchChain_get {mem : Ptr → Bytes} {hash : Bytes}
    (hs : searchChain mem hash bytes chain = .ok (some (i, e))) : ∃ node, chain[i]? = some (node, e) := by
  induction chain generalizing i
  case nil => cases hs
  case cons n chain hi =>
    have ⟨found, _, hs⟩ := Except.bind_ok_iff.mp hs
    split at hs
    case isTrue =>
      cases hs
      exact ⟨n.1, rfl⟩
    case isFalse =>
      have ⟨key, hk, hs⟩ := Except.bind_ok_iff.mp hs
      have ⟨⟨j, x⟩, hkey, he⟩ := Option.map_eq_some_iff.mp (Except.ok.inj hs)
      cases he
      exact hi (hkey ▸ hk)

-- An entry that is found is in the bucket of the key, and the head only when it is alone.
theorem findKey_cases (hk : findKey table hash bytes h = .ok (some (place, e))) :
    place.ent = entOf table h hash bytes ∧ (table.buckets place.ent).Has e place.slot ∧
      (table.buckets place.ent).head.hash ≠ none ∧
      (place.slot = .head → (table.buckets place.ent).chain = []) := by
  unfold findKey at hk
  dsimp only at hk
  split at hk
  case isTrue => cases hk
  case isFalse hh =>
    split at hk
    case h_1 hc =>
      cases hk
      exact ⟨rfl, rfl, hh, fun _ => hc⟩
    case h_2 chain hc =>
      have ⟨key, hs, hk⟩ := Except.bind_ok_iff.mp hk
      have ⟨⟨j, x⟩, hkey, he⟩ := Option.map_eq_some_iff.mp (Except.ok.inj hk)
      cases he
      exact ⟨rfl, searchChain_get (hkey ▸ hs), hh, fun h => by cases h⟩

-- What a removal does to the entry that it has found.
structure Removes (table : Hashtable) (h : Kmalloc.Heap) (place : Place) (e : Hashbucket)
    (table' : Hashtable) (h' : Kmalloc.Heap) : Prop where
  table : table' = table.set place { e with hash := none, data := 0 }
  free  : if HasCopy e.flags then kfree e.hash h = .ok h' else h' = h

theorem remove_cases (hk : hashtableRemove table hash bytes h = .ok (table', h')) :
    (findKey table hash bytes h = .ok none ∧ table' = table ∧ h' = h) ∨
      ∃ place e, findKey table hash bytes h = .ok (some (place, e)) ∧ Removes table h place e table' h' := by
  have ⟨r, hf, hk⟩ := Except.bind_ok_iff.mp hk
  cases r
  case none =>
    cases hk
    exact .inl ⟨hf, rfl, rfl⟩
  case some r =>
    obtain ⟨place, e⟩ := r
    dsimp only at hk
    split at hk
    case isTrue hc =>
      have ⟨h₁, hfree, hk⟩ := Except.bind_ok_iff.mp hk
      have ⟨ht, hh⟩ := Prod.mk.inj (Except.ok.inj hk)
      subst hh
      exact .inr ⟨place, e, hf, ht.symm, by rwa [if_pos hc]⟩
    case isFalse hc =>
      have ⟨ht, hh⟩ := Prod.mk.inj (Except.ok.inj hk)
      exact .inr ⟨place, e, hf, ht.symm, by rw [if_neg hc]; exact hh.symm⟩

end RoverOS.Hashtable
