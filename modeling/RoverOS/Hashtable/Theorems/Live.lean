import RoverOS.Hashtable.Theorems.Cases
import RoverOS.Libc.String
import RoverOS.Library.Run

-- The live entries of a table, when an insertion adds its entry and loses none, and when a removal
-- takes away the entry it is called for.

open List (Perm)

namespace RoverOS.Hashtable

open Kmalloc

-- The pointer to the key, its length and the data.
abbrev LiveEntry := Ptr × Nat × Word

def liveEntry (e : Hashbucket) : Option LiveEntry :=
  e.hash.map fun p => (p, e.hashLen, e.data)

def Bucket.liveEntries (bucket : Bucket) : List LiveEntry :=
  (bucket.head :: bucket.chain.map Prod.snd).filterMap liveEntry

inductive TableOp
  | insert (data : Word) (hash : Ptr) (bytes : Nat) (flags : BitVec 8)
  | remove (hash : Ptr) (bytes : Nat)
  | other (heap : Kmalloc.Heap)

-- Between the calls the rest of the kernel changes the heap as it likes.
inductive TableStep (memcpy : Memcpy) : Hashtable × Kmalloc.Heap → TableOp → Hashtable × Kmalloc.Heap → Prop
  | insert {table data hash bytes flags h s} :
    hashtableInsert memcpy table data hash bytes flags h = .ok s →
      TableStep memcpy (table, h) (.insert data hash bytes flags) s
  | remove {table hash bytes h s} :
    hashtableRemove table hash bytes h = .ok s → TableStep memcpy (table, h) (.remove hash bytes) s
  | other {table h h'} : TableStep memcpy (table, h) (.other h') (table, h')

-- The entry is added to its bucket, and nothing else is changed.
structure Added (table table' : Hashtable) (ent : Nat) (x : LiveEntry) : Prop where
  count  : table'.bucketCount = table.bucketCount
  entry  : Perm (table'.buckets ent).liveEntries (x :: (table.buckets ent).liveEntries)
  others : ∀ j ≠ ent, table'.buckets j = table.buckets j

-- The entry in the slot is gone from its bucket, and all others are where they were.
structure Taken (table table' : Hashtable) (ent : Nat) (slot : Slot) (e : Hashbucket) : Prop where
  count  : table'.bucketCount = table.bucketCount
  entry  : ∃ x, liveEntry e = some x ∧
    Perm (table.buckets ent).liveEntries (x :: (table'.buckets ent).liveEntries)
  place  : ∀ slot' e', slot' ≠ slot → ((table'.buckets ent).Has e' slot' ↔ (table.buckets ent).Has e' slot')
  others : ∀ j ≠ ent, table'.buckets j = table.buckets j

-- The new block holds the bytes of the key, with its redzone behind them.
def CopyOf (h h' : Kmalloc.Heap) (hash : Ptr) (bytes : Nat) : Prop :=
  ∀ i < bytes + 8, h'.mem h.next i = if i < bytes then h.mem hash i else redzone (i - bytes)

def InsertAdds (memcpy : Memcpy) (table : Hashtable) (data : Word) (hash : Ptr) (bytes : Nat)
    (flags : BitVec 8) (h : Kmalloc.Heap) : Prop :=
  ∃ table' h' p, hashtableInsert memcpy table data hash bytes flags h = .ok (table', h') ∧
    p = (if HasCopy flags then h.next else hash) ∧ (HasCopy flags → CopyOf h h' hash bytes) ∧
    Added table table' (entOf table h hash bytes) (p, bytes, data)

def RemoveTakes (table : Hashtable) (hash : Ptr) (bytes : Nat) (h : Kmalloc.Heap) : Prop :=
  ∃ table' h' slot e, hashtableRemove table hash bytes h = .ok (table', h') ∧
    (table.buckets (entOf table h hash bytes)).Has e slot ∧
    keyOf h.mem e = readKey (h.mem hash) bytes ∧ Taken table table' (entOf table h hash bytes) slot e

-- A copy of the key has a byte, and `memcpy` copies exactly its bytes to the new block.
structure CopyFits (memcpy : Memcpy) (hash : Ptr) (bytes : Nat) (h : Kmalloc.Heap) : Prop where
  pos    : 0 < bytes
  lt     : bytes < maxRequest
  copies : Copies memcpy ((h.grow bytes).mem h.next) ((h.grow bytes).mem hash) bytes

-- No entry is behind a node that is used again, a key is copied as it is, and the heap gives what
-- it is asked for.
structure InsertFits (memcpy : Memcpy) (bucket : Bucket) (hash : Ptr) (bytes : Nat) (flags : BitVec 8)
    (h : Kmalloc.Heap) : Prop where
  reuse : bucket.head.hash ≠ none → Reusable bucket.chain
  copy  : HasCopy flags → CopyFits memcpy hash bytes h
  lock  : HasCopy flags ∨ (bucket.head.hash ≠ none ∧ reuseNode bucket.head bucket.chain = none) →
    h.lock = false

-- The first node with the key, unless an unused node of the same length is before it.
def firstNode (mem : Ptr → Bytes) (key : Key) : List (Ptr × Hashbucket) → Option (Nat × Hashbucket)
  | []                 => none
  | (_, test) :: chain =>
    if test.hash = none then
      if test.hashLen = key.length then none
      else (firstNode mem key chain).map fun (i, e) => (i + 1, e)
    else if keyOf mem test = key then some (0, test)
    else (firstNode mem key chain).map fun (i, e) => (i + 1, e)

-- The copy of the entry's key can be freed.
def Freeable (h : Kmalloc.Heap) (e : Hashbucket) : Prop :=
  HasCopy e.flags → ∃ h', kfree e.hash h = .ok h'

-- The head is alone, or the search in the chain comes to a node of the key.
def RemoveFits (bucket : Bucket) (key : Key) (h : Kmalloc.Heap) : Prop :=
  (bucket.chain = [] ∧ Freeable h bucket.head) ∨
    (bucket.chain ≠ [] ∧ key.length < 2 ^ 32 ∧
      ∃ i e, firstNode h.mem key bucket.chain = some (i, e) ∧ Freeable h e)

def Heads (table : Hashtable) : Prop :=
  ∀ i < table.bucketCount, (table.buckets i).head.hash = none → (table.buckets i).chain = []

variable {memcpy : Memcpy} {table table' : Hashtable} {h h' : Kmalloc.Heap} {bucket bucket' : Bucket}
variable {data : Word} {hash : Ptr} {bytes ent i : Nat} {flags : BitVec 8} {e e' : Hashbucket}
variable {chain chain' : List (Ptr × Hashbucket)} {key : Key} {slot : Slot} {p : Ptr}

section Live

theorem liveEntry_some {p : Ptr} (h : e.hash = some p) : liveEntry e = some (p, e.hashLen, e.data) := by
  rw [liveEntry, h]
  rfl

theorem liveEntries_eq : bucket.liveEntries = bucket.live.filterMap liveEntry := by
  rw [Bucket.liveEntries, Bucket.live, used, List.filterMap_filter]
  congr 1
  funext e
  cases he : e.hash <;> simp [liveEntry, he]

theorem length_filterMap_used (l : List Hashbucket) :
    ((used l).filterMap liveEntry).length = (used l).length := by
  refine List.filterMap_length_eq_length.mpr fun e he => ?_
  have ⟨_, hu⟩ := mem_used.mp he
  simpa [liveEntry, Option.isSome_iff_ne_none] using hu

theorem length_liveEntries : bucket.liveEntries.length = bucket.live.length := by
  rw [liveEntries_eq]
  exact length_filterMap_used _

-- One more entry that is in use is one more live entry.
theorem liveEntries_perm {p : Ptr} (he : e.hash = some p) (hp : Perm bucket'.live (e :: bucket.live)) :
    Perm bucket'.liveEntries ((p, e.hashLen, e.data) :: bucket.liveEntries) := by
  rw [liveEntries_eq, liveEntries_eq]
  refine (hp.filterMap liveEntry).trans (.of_eq ?_)
  rw [List.filterMap_cons, liveEntry_some he]

theorem used_length_le (e : Hashbucket) : (used [e]).length ≤ 1 :=
  List.length_filter_le ..

theorem hash_ne_none_of_length (h : (used [e]).length = 1) : e.hash ≠ none := by
  intro hn
  rw [used_cons_none hn] at h
  cases h

end Live

section Reuse

-- The node that is used again is the first unused one, and what is behind it is cut off.
theorem reuseNode_split (hr : reuseNode e chain = some chain') :
    ∃ front node test next back, chain = front ++ (node, test) :: next :: back ∧
      (∀ n ∈ front, n.snd.hash ≠ none) ∧ test.hash = none ∧ chain' = front ++ [(node, e)] := by
  induction chain generalizing chain'
  case nil => cases hr
  case cons n chain hi =>
    cases chain
    case nil => cases hr
    case cons next chain =>
      rw [reuseNode] at hr
      split at hr
      case isTrue hn =>
        cases hr
        exact ⟨[], n.1, n.2, next, chain, rfl, fun _ h => absurd h List.not_mem_nil, hn, rfl⟩
      case isFalse hn =>
        obtain ⟨rest, hr, hc⟩ := Option.map_eq_some_iff.mp hr
        obtain ⟨front, node, test, next', back, hs, hf, ht, hc'⟩ := hi hr
        refine ⟨n :: front, node, test, next', back, by rw [hs, List.cons_append], ?_, ht, ?_⟩
        · exact List.forall_mem_cons.mpr ⟨hn, hf⟩
        · rw [← hc, hc', List.cons_append]

theorem reusable_of_front {front back : List (Ptr × Hashbucket)} {node : Ptr} {test : Hashbucket}
    {next : Ptr × Hashbucket} (hf : ∀ n ∈ front, n.snd.hash ≠ none) (ht : test.hash = none)
    (hb : ∀ n ∈ next :: back, n.snd.hash = none) : Reusable (front ++ (node, test) :: next :: back) := by
  induction front
  case nil =>
    rw [List.nil_append, Reusable, if_pos ht]
    exact hb
  case cons n front hi =>
    obtain ⟨hn, hf⟩ := List.forall_mem_cons.mp hf
    cases front
    case nil =>
      rw [List.cons_append, List.nil_append, Reusable, if_neg hn]
      exact hi hf
    case cons n' front =>
      rw [List.cons_append, List.cons_append, Reusable, if_neg hn]
      exact hi hf

theorem reusable_of_none (hr : reuseNode e chain = none) : Reusable chain := by
  induction chain
  case nil => trivial
  case cons n chain hi =>
    cases chain
    case nil => trivial
    case cons next chain =>
      rw [reuseNode] at hr
      split at hr
      case isTrue  => cases hr
      case isFalse hn =>
        rw [Reusable, if_neg hn]
        exact hi (Option.map_eq_none_iff.mp hr)

theorem reuseNode_none_iff : reuseNode e chain = none ↔ reuseNode e' chain = none := by
  induction chain
  case nil => exact Iff.rfl
  case cons n chain hi =>
    cases chain
    case nil => exact Iff.rfl
    case cons next chain =>
      rw [reuseNode, reuseNode]
      split
      case isTrue  => simp
      case isFalse => rw [Option.map_eq_none_iff, Option.map_eq_none_iff, hi]

theorem used_front {front : List (Ptr × Hashbucket)} {l : List Hashbucket} :
    (used (front.map Prod.snd ++ l)).length = (used (front.map Prod.snd)).length + (used l).length := by
  rw [used, List.filter_append, List.length_append, used, used]

-- One more entry is in use only when none was behind the node.
theorem reusable_of_length (hr : reuseNode e chain = some chain')
    (hl : (used (chain'.map Prod.snd)).length = (used (chain.map Prod.snd)).length + 1) :
    e.hash ≠ none ∧ Reusable chain := by
  obtain ⟨front, node, test, next, back, hs, hf, ht, hc⟩ := reuseNode_split hr
  have he := used_length_le e
  rw [hc, hs, List.map_append, List.map_append, used_front, used_front] at hl
  simp only [List.map_cons, List.map_nil] at hl
  rw [used_cons_none ht] at hl
  have hb : used (next.snd :: back.map Prod.snd) = [] := List.eq_nil_of_length_eq_zero (by omega)
  refine ⟨hash_ne_none_of_length (by omega), ?_⟩
  rw [hs]
  refine reusable_of_front hf ht fun n hn => ?_
  by_contra hne
  have hm : n.snd ∈ used (next.snd :: back.map Prod.snd) :=
    mem_used.mpr ⟨List.mem_map_of_mem (l := next :: back) hn, hne⟩
  rw [hb] at hm
  cases hm

end Reuse

section Insert

theorem CopyHash.lock_eq {thsh : Option Ptr} (c : CopyHash hash bytes flags h thsh h') :
    h'.lock = h.lock := by
  cases c
  case given     => rfl
  case null      => rfl
  case copy hg   => exact hg.lock

-- What the copy of the key needs from the heap.
theorem copyHash_ok (hc : HasCopy flags → CopyFits memcpy hash bytes h)
    (hl : HasCopy flags → h.lock = false) :
    ∃ h', copyHash memcpy hash bytes flags h = .ok (some (if HasCopy flags then h.next else hash), h') ∧
      h'.lock = h.lock := by
  rw [copyHash]
  split
  case isTrue hf =>
    rw [copyKey, kmalloc_ok (hl hf) (hc hf).pos (hc hf).lt]
    exact ⟨_, rfl, rfl⟩
  case isFalse => exact ⟨h, rfl, rfl⟩

-- What `memcpy` has made of the new block.
theorem copyHash_mem (hc : copyHash memcpy hash bytes flags h = .ok (some p, h')) (hf : HasCopy flags) :
    h'.mem h.next = memcpy ((h.grow bytes).mem h.next) ((h.grow bytes).mem hash) bytes ∧
      h'.next = h.next + 1 := by
  rw [copyHash, if_pos hf] at hc
  obtain ⟨⟨ptr, h₁⟩, hm, hc⟩ := Except.bind_ok_iff.mp hc
  cases ptr
  case none   => cases hc
  case some q =>
    obtain ⟨rfl, rfl⟩ := kmalloc_some hm
    cases hc
    exact ⟨Function.update_self .., rfl⟩

-- The node that may be new is another block.
theorem insert_mem (hk : hashtableInsert memcpy table data hash bytes flags h = .ok (table', h'))
    (hf : HasCopy flags) (hb : 0 < bytes) :
    h'.mem h.next = memcpy ((h.grow bytes).mem h.next) ((h.grow bytes).mem hash) bytes := by
  obtain ⟨⟨thsh, h₁⟩, hc, hk⟩ := Except.bind_ok_iff.mp hk
  obtain ⟨p, rfl⟩ : ∃ p, thsh = some p := by
    cases copyHash_cases hc
    case given hn => exact absurd hf hn
    case null     => omega
    case copy     => exact ⟨_, rfl⟩
  obtain ⟨hmem, hnext⟩ := copyHash_mem hc hf
  dsimp only at hk
  split at hk
  case isTrue =>
    cases hk
    exact hmem
  case isFalse =>
    split at hk
    case h_1 =>
      cases hk
      exact hmem
    case h_2 =>
      obtain ⟨⟨chain, h₂⟩, ha, hk⟩ := Except.bind_ok_iff.mp hk
      cases hk
      obtain ⟨⟨node, h₃⟩, hm, ha⟩ := Except.bind_ok_iff.mp ha
      cases node
      case none      => cases ha
      case some node =>
        obtain ⟨_, rfl⟩ := kmalloc_some hm
        cases ha
        have hne : h.next ≠ h₁.next := by
          rw [hnext]
          exact (Nat.succ_ne_self _).symm
        exact (Function.update_of_ne hne _ _).trans hmem

-- The bytes of the key are no part of the redzone that is written before they are copied.
theorem copyOf_iff (hm : h'.mem h.next = memcpy ((h.grow bytes).mem h.next) ((h.grow bytes).mem hash) bytes) :
    CopyOf h h' hash bytes ↔ Copies memcpy ((h.grow bytes).mem h.next) ((h.grow bytes).mem hash) bytes := by
  have hdest : (h.grow bytes).mem h.next = setRedzone (h.mem h.next) bytes := Function.update_self ..
  have hsrc (i : Nat) (hi : i < bytes) : (h.grow bytes).mem hash i = h.mem hash i := by
    by_cases hn : hash = h.next
    case pos =>
      have hout : ¬(bytes ≤ i ∧ i < bytes + 8) := by omega
      rw [hn, hdest]
      exact if_neg hout
    case neg => exact congrFun (Function.update_of_ne hn _ _) i
  have hbyte (i : Nat) (hi : i < bytes + 8) : (if i < bytes then h.mem hash i else redzone (i - bytes)) =
      if i < bytes then (h.grow bytes).mem hash i else (h.grow bytes).mem h.next i := by
    split
    case isTrue hlt  => exact (hsrc i hlt).symm
    case isFalse hge =>
      rw [hdest, setRedzone, if_pos ⟨Nat.not_lt.mp hge, hi⟩]
  rw [CopyOf, hm]
  exact forall₂_congr fun i hi => by rw [hbyte i hi]

section Places

variable {thsh : Option Ptr} {h₁ : Kmalloc.Heap} (hc : copyHash memcpy hash bytes flags h = .ok (thsh, h₁))
variable (he : entOf table h hash bytes = ent)
include hc he

theorem insert_head (hh : (table.buckets ent).head.hash = none) :
    hashtableInsert memcpy table data hash bytes flags h =
      .ok (table.setBucket ent ⟨⟨thsh, bytes, flags, data⟩, []⟩, h₁) := by
  rw [entOf] at he
  rw [hashtableInsert, hc, he]
  simp only [bind, Except.bind, if_pos hh]
  rfl

theorem insert_reuse (hh : (table.buckets ent).head.hash ≠ none)
    (hr : reuseNode ⟨thsh, bytes, flags, data⟩ (table.buckets ent).chain = some chain) :
    hashtableInsert memcpy table data hash bytes flags h =
      .ok (table.setBucket ent ⟨(table.buckets ent).head, chain⟩, h₁) := by
  rw [entOf] at he
  rw [hashtableInsert, hc, he]
  simp only [bind, Except.bind, if_neg hh, hr]
  rfl

theorem insert_append (hh : (table.buckets ent).head.hash ≠ none)
    (hr : reuseNode ⟨thsh, bytes, flags, data⟩ (table.buckets ent).chain = none)
    (ha : appendNode ⟨thsh, bytes, flags, data⟩ (table.buckets ent).chain h₁ = .ok (chain, h')) :
    hashtableInsert memcpy table data hash bytes flags h =
      .ok (table.setBucket ent ⟨(table.buckets ent).head, chain⟩, h') := by
  rw [entOf] at he
  rw [hashtableInsert, hc, he]
  simp only [bind, Except.bind, if_neg hh, hr, ha]
  rfl

end Places

theorem added_setBucket {x : LiveEntry}
    (hp : Perm bucket.liveEntries (x :: (table.buckets ent).liveEntries)) :
    Added table (table.setBucket ent bucket) ent x where
  count       := rfl
  entry       := by simpa [setBucket] using hp
  others j hj := by simp [setBucket, hj]

-- The bucket's entries with the new one in one of its nodes.
theorem live_cons_perm (hh : bucket.head.hash ≠ none)
    (hp : Perm (used (chain.map Prod.snd)) (e :: used (bucket.chain.map Prod.snd))) :
    Perm (Bucket.mk bucket.head chain).live (e :: bucket.live) := by
  rw [Bucket.live, Bucket.live, used_cons_some hh, used_cons_some hh]
  exact (hp.cons _).trans (.swap ..)

theorem insertAdds_of_fits (hi : ent < table.bucketCount) (ht : Heads table)
    (he : entOf table h hash bytes = ent) (hf : InsertFits memcpy (table.buckets ent) hash bytes flags h) :
    InsertAdds memcpy table data hash bytes flags h := by
  let p := if HasCopy flags then h.next else hash
  let key : Hashbucket := ⟨some p, bytes, flags, data⟩
  have hk : key.hash ≠ none := Option.some_ne_none _
  obtain ⟨h₁, hcopy, hl₁⟩ := copyHash_ok hf.copy fun hc => hf.lock (.inl hc)
  have copied {table' h'} (hk : hashtableInsert memcpy table data hash bytes flags h = .ok (table', h'))
      (hc : HasCopy flags) : CopyOf h h' hash bytes :=
    (copyOf_iff (insert_mem hk hc (hf.copy hc).pos)).mpr (hf.copy hc).copies
  have added {bucket : Bucket} (hp : Perm bucket.live (key :: (table.buckets ent).live)) :
      Added table (table.setBucket ent bucket) (entOf table h hash bytes) (p, bytes, data) := by
    rw [he]
    exact added_setBucket (liveEntries_perm rfl hp)
  by_cases hh : (table.buckets ent).head.hash = none
  case pos =>
    have hins : hashtableInsert memcpy table data hash bytes flags h = .ok _ := insert_head hcopy he hh
    refine ⟨_, h₁, p, hins, rfl, copied hins, added ?_⟩
    rw [Bucket.live, Bucket.live, ht _ hi hh, used_cons_none hh]
    exact .of_eq (used_cons_some hk)
  case neg =>
    cases hr : reuseNode key (table.buckets ent).chain
    case some chain =>
      have hins := insert_reuse hcopy he hh hr
      refine ⟨_, h₁, p, hins, rfl, copied hins, added ?_⟩
      exact live_cons_perm hh (reuseNode_perm hk (hf.reuse hh) hr)
    case none =>
      have hl : h₁.lock = false := hl₁.trans (hf.lock (.inr ⟨hh, reuseNode_none_iff.mp hr⟩))
      obtain ⟨node, h₂, ha, _⟩ := appendNode_spec key (table.buckets ent).chain hl
      have hins := insert_append hcopy he hh hr ha
      refine ⟨_, h₂, p, hins, rfl, copied hins, added ?_⟩
      exact live_cons_perm hh (used_concat_perm hk)

-- An entry of no hash is not live, so that nothing would be added.
theorem fits_of_insertAdds (ht : Heads table) (hi : ent < table.bucketCount)
    (he : entOf table h hash bytes = ent) (ha : InsertAdds memcpy table data hash bytes flags h) :
    InsertFits memcpy (table.buckets ent) hash bytes flags h := by
  subst he
  obtain ⟨table', h', p, hk, _, hcopy, ha⟩ := ha
  obtain ⟨thsh, h₁, hc, hins⟩ := insert_cases hk
  have hlen : (table'.buckets (entOf table h hash bytes)).live.length =
      (table.buckets (entOf table h hash bytes)).live.length + 1 := by
    rw [← length_liveEntries, ha.entry.length_eq, List.length_cons, length_liveEntries]
  have copy (ht : thsh ≠ none) (hf : HasCopy flags) : CopyFits memcpy hash bytes h := by
    cases hc
    case given hn   => exact absurd hf hn
    case null       => exact absurd rfl ht
    case copy hg    => exact ⟨hg.pos, hg.lt, (copyOf_iff (insert_mem hk hf hg.pos)).mp (hcopy hf)⟩
  have lock (hf : HasCopy flags) : h.lock = false := by
    cases hc
    case given hn   => exact absurd hf hn
    case null hl _  => exact hl
    case copy hg    => exact hg.free
  cases hins
  case head hh =>
    rw [Bucket.live, Bucket.live, ht _ hi hh, used_cons_none hh] at hlen
    simp only [setBucket, Function.update_self, List.map_nil] at hlen
    have hne := hash_ne_none_of_length hlen
    exact ⟨fun hn => absurd hh hn, copy hne, fun h => h.elim lock fun h => absurd hh h.left⟩
  case reuse chain hh hr =>
    rw [Bucket.live, Bucket.live] at hlen
    simp only [setBucket, Function.update_self] at hlen
    rw [used_cons_some hh, used_cons_some hh, List.length_cons, List.length_cons] at hlen
    obtain ⟨hne, hu⟩ := reusable_of_length hr (by omega)
    refine ⟨fun _ => hu, copy hne, fun h => h.elim lock fun hn => ?_⟩
    rw [reuseNode_none_iff.mp hn.right] at hr
    cases hr
  case append hh hr hg =>
    rw [Bucket.live, Bucket.live] at hlen
    simp only [setBucket, Function.update_self] at hlen
    rw [used_cons_some hh, used_cons_some hh, List.map_append, List.length_cons, List.length_cons,
      used_front] at hlen
    have hne := hash_ne_none_of_length (e := ⟨thsh, bytes, flags, data⟩) (by simpa using hlen)
    exact ⟨fun _ => reusable_of_none hr, copy hne, fun _ => hc.lock_eq ▸ hg.free⟩

end Insert

section Remove

-- What a comparison of the key with an entry has found out.
theorem matchKey_cases {mem : Ptr → Bytes} {hash : Bytes} {b : Bool} (hm : matchKey mem hash bytes e = .ok b) :
    (e.hash = none ∧ (b = true ↔ e.hashLen = bytes)) ∨
      (e.hash ≠ none ∧ (b = true → bytes < 2 ^ 32) ∧ (b = true ↔ keyOf mem e = readKey hash bytes)) := by
  unfold matchKey at hm
  split at hm
  case isTrue hl =>
    cases hm
    cases he : e.hash
    case none   => exact .inl ⟨rfl, by simpa using hl⟩
    case some p =>
      refine .inr ⟨Option.some_ne_none _, by simp, ?_⟩
      simp [keyOf_some he, readKey_inj, hl]
  case isFalse hl =>
    have hl : e.hashLen = bytes := not_not.mp hl
    split at hm
    case h_1 he =>
      split at hm
      case isTrue =>
        cases hm
        exact .inl ⟨he, by simpa using hl⟩
      case isFalse => cases hm
    case h_2 p he =>
      have hk : keyOf mem e = readKey hash bytes ↔ ∀ i < bytes, hash i = mem p i := by
        rw [keyOf_some he, readKey_inj, hl]
        simp only [true_and, eq_comm]
      refine .inr ⟨by simp [he], ?_⟩
      split at hm
      case isTrue ha =>
        split at hm
        case isFalse => cases hm
        case isTrue hb =>
          cases hm
          rw [Nat.min_eq_left (Nat.le_of_lt hb)] at ha
          exact ⟨fun _ => hb, fun _ => hk.mpr ha, fun _ => rfl⟩
      case isFalse ha =>
        cases hm
        refine ⟨by simp, ?_⟩
        rw [hk]
        simp only [Bool.false_eq_true, false_iff]
        exact fun hall => ha fun i hlt => hall i (Nat.lt_of_lt_of_le hlt (Nat.min_le_left ..))

theorem searchChain_firstNode {mem : Ptr → Bytes} {hash : Bytes} (hb : bytes < 2 ^ 32)
    (hf : firstNode mem (readKey hash bytes) chain = some (i, e)) :
    searchChain mem hash bytes chain = .ok (some (i, e)) := by
  induction chain generalizing i
  case nil => cases hf
  case cons n chain hi =>
    obtain ⟨node, test⟩ := n
    rw [firstNode, readKey_length] at hf
    have next (hc : test.hash = none → test.hashLen ≠ bytes)
        (hk : ¬(test.hash ≠ none ∧ keyOf mem test = readKey hash bytes))
        (hf : (firstNode mem (readKey hash bytes) chain).map (fun (i, e) => (i + 1, e)) = some (i, e)) :
        searchChain mem hash bytes ((node, test) :: chain) = .ok (some (i, e)) := by
      obtain ⟨⟨j, x⟩, hj, he⟩ := Option.map_eq_some_iff.mp hf
      cases he
      rw [searchChain, matchKey_eq hb hc, decide_eq_false hk, hi hj]
      rfl
    split at hf
    case isTrue hn =>
      split at hf
      case isTrue  => cases hf
      case isFalse hl => exact next (fun _ => hl) (fun h => h.left hn) hf
    case isFalse hn =>
      split at hf
      case isTrue hk =>
        cases hf
        rw [searchChain, matchKey_eq hb fun h => absurd h hn, decide_eq_true ⟨hn, hk⟩]
        rfl
      case isFalse hk => exact next (fun h => absurd h hn) (fun h => hk h.right) hf

theorem firstNode_key {mem : Ptr → Bytes} (hf : firstNode mem key chain = some (i, e)) :
    e.hash ≠ none ∧ keyOf mem e = key := by
  induction chain generalizing i
  case nil => cases hf
  case cons n chain hi =>
    obtain ⟨node, test⟩ := n
    rw [firstNode] at hf
    have next (hf : (firstNode mem key chain).map (fun (i, e) => (i + 1, e)) = some (i, e)) :
        e.hash ≠ none ∧ keyOf mem e = key := by
      obtain ⟨⟨j, x⟩, hj, he⟩ := Option.map_eq_some_iff.mp hf
      cases he
      exact hi hj
    split at hf
    case isTrue =>
      split at hf
      case isTrue  => cases hf
      case isFalse => exact next hf
    case isFalse hn =>
      split at hf
      case isTrue hk =>
        cases hf
        exact ⟨hn, hk⟩
      case isFalse => exact next hf

theorem firstNode_of_searchChain {mem : Ptr → Bytes} {hash : Bytes} (he : e.hash ≠ none)
    (hs : searchChain mem hash bytes chain = .ok (some (i, e))) :
    bytes < 2 ^ 32 ∧ firstNode mem (readKey hash bytes) chain = some (i, e) := by
  induction chain generalizing i
  case nil => cases hs
  case cons n chain hi =>
    obtain ⟨node, test⟩ := n
    obtain ⟨found, hm, hs⟩ := Except.bind_ok_iff.mp hs
    rw [firstNode, readKey_length]
    split at hs
    case isTrue hfound =>
      cases hs
      subst hfound
      rcases matchKey_cases hm with ⟨hn, _⟩ | ⟨hn, hb, hk⟩
      · exact absurd hn he
      · exact ⟨hb rfl, by rw [if_neg hn, if_pos (hk.mp rfl)]⟩
    case isFalse hfound =>
      obtain ⟨key, hk, hs⟩ := Except.bind_ok_iff.mp hs
      obtain ⟨⟨j, x⟩, hkey, hx⟩ := Option.map_eq_some_iff.mp (Except.ok.inj hs)
      cases hx
      obtain ⟨hb, hf⟩ := hi (hkey ▸ hk)
      refine ⟨hb, ?_⟩
      rw [hf]
      rcases matchKey_cases hm with ⟨hn, hl⟩ | ⟨hn, _, hk⟩
      · rw [if_pos hn, if_neg fun h => hfound (hl.mpr h)]
        rfl
      · rw [if_neg hn, if_neg fun h => hfound (hk.mpr h)]
        rfl

-- The other slots of a bucket stay as they are.
theorem has_set_of_ne {slot' : Slot} (hne : slot' ≠ slot) : (bucket.set e slot).Has e' slot' ↔ bucket.Has e' slot' := by
  cases slot
  case head =>
    cases slot'
    case head   => exact absurd rfl hne
    case node j => exact Iff.rfl
  case node i =>
    cases slot'
    case head   => exact Iff.rfl
    case node j =>
      have hij : i ≠ j := fun h => hne (congrArg Slot.node h.symm)
      simp [Bucket.set, Bucket.Has, List.getElem?_modify_ne _ _ hij]

theorem taken_set (hb : (table.buckets ent).Has e slot) (he : e.hash ≠ none) :
    Taken table (table.set ⟨ent, slot⟩ { e with hash := none, data := 0 }) ent slot e where
  count := rfl
  entry := by
    obtain ⟨p, hp⟩ := Option.ne_none_iff_exists'.mp he
    obtain ⟨rest, hr, hr'⟩ := hb.live_perm
    refine ⟨_, liveEntry_some hp, ?_⟩
    have hl : ((table.set ⟨ent, slot⟩ { e with hash := none, data := 0 }).buckets ent) =
        (table.buckets ent).set { e with hash := none, data := 0 } slot := by simp [set, setBucket]
    rw [hl]
    refine liveEntries_perm hp (hr.trans ?_)
    rw [used_cons_some he]
    exact ((hr' { e with hash := none, data := 0 }).symm).cons e
  place slot' e' hne := by
    simp only [set, setBucket, Function.update_self]
    exact has_set_of_ne hne
  others j hj := by simp [set, setBucket, hj]

-- A key that is in the only entry of its bucket is the key of that entry.
theorem head_of_live (hc : bucket.chain = []) (he : e ∈ bucket.live) : e = bucket.head ∧ e.hash ≠ none := by
  rw [Bucket.live, hc, mem_used] at he
  exact ⟨List.mem_singleton.mp he.left, he.right⟩

theorem head_ne_none (ht : (table.buckets ent).head.hash = none → (table.buckets ent).chain = [])
    (he : e ∈ (table.buckets ent).live) : (table.buckets ent).head.hash ≠ none := by
  intro hn
  obtain ⟨rfl, hu⟩ := head_of_live (ht hn) he
  exact hu hn

section Takes

theorem remove_found (hf : findKey table hash bytes h = .ok (some (⟨ent, slot⟩, e))) (hfree : Freeable h e) :
    ∃ h', hashtableRemove table hash bytes h =
      .ok (table.set ⟨ent, slot⟩ { e with hash := none, data := 0 }, h') := by
  rw [hashtableRemove, hf]
  by_cases hc : HasCopy e.flags
  case pos =>
    obtain ⟨h', hk⟩ := hfree hc
    refine ⟨h', ?_⟩
    simp [hc, hk, bind, Except.bind]
    rfl
  case neg =>
    refine ⟨h, ?_⟩
    simp [hc, bind, Except.bind]
    rfl

variable (hent : entOf table h hash bytes = ent)
include hent

theorem findKey_head (hh : (table.buckets ent).head.hash ≠ none) (hc : (table.buckets ent).chain = []) :
    findKey table hash bytes h = .ok (some (⟨ent, .head⟩, (table.buckets ent).head)) := by
  rw [entOf] at hent
  rw [findKey, hent]
  simp only [if_neg hh, hc]

theorem findKey_chain (hh : (table.buckets ent).head.hash ≠ none) (hc : (table.buckets ent).chain ≠ []) :
    findKey table hash bytes h =
      (searchChain h.mem (h.mem hash) bytes (table.buckets ent).chain).map
        (Option.map fun (i, e) => (⟨ent, .node i⟩, e)) := by
  rw [entOf] at hent
  rw [findKey, hent]
  simp only [if_neg hh]
  cases hs : (table.buckets ent).chain
  case nil => exact absurd hs hc
  case cons n chain =>
    cases searchChain h.mem (h.mem hash) bytes (n :: chain) <;> rfl

variable (hm : e ∈ (table.buckets ent).live)
include hm

theorem removeTakes_of_fits (hk : keyOf h.mem e = readKey (h.mem hash) bytes)
    (hh : (table.buckets ent).head.hash = none → (table.buckets ent).chain = [])
    (hf : RemoveFits (table.buckets ent) (readKey (h.mem hash) bytes) h) :
    RemoveTakes table hash bytes h := by
  have hn := head_ne_none hh hm
  have takes {slot e} (hf : findKey table hash bytes h = .ok (some (⟨ent, slot⟩, e)))
      (hb : (table.buckets ent).Has e slot) (he : e.hash ≠ none)
      (hk : keyOf h.mem e = readKey (h.mem hash) bytes) (hfree : Freeable h e) :
      RemoveTakes table hash bytes h := by
    obtain ⟨h', hr⟩ := remove_found hf hfree
    refine ⟨_, h', slot, e, hr, hent ▸ hb, hk, ?_⟩
    rw [hent]
    exact taken_set hb he
  rcases hf with ⟨hc, hfree⟩ | ⟨hc, hb, i, x, hx, hfree⟩
  · obtain ⟨rfl, _⟩ := head_of_live hc hm
    exact takes (findKey_head hent hn hc) rfl hn hk hfree
  · rw [readKey_length] at hb
    have hs := searchChain_firstNode hb hx
    have hfind : findKey table hash bytes h = .ok (some (⟨ent, .node i⟩, x)) := by
      rw [findKey_chain hent hn hc, hs]
      rfl
    obtain ⟨hu, hkx⟩ := firstNode_key hx
    exact takes hfind (searchChain_get hs) hu hkx hfree

theorem fits_of_removeTakes (hh : (table.buckets ent).head.hash = none → (table.buckets ent).chain = [])
    (ht : RemoveTakes table hash bytes h) :
    RemoveFits (table.buckets ent) (readKey (h.mem hash) bytes) h := by
  obtain ⟨table', h', slot, e₁, hr, hb, _, ht⟩ := ht
  rw [hent] at hb ht
  have hn := head_ne_none hh hm
  have hlen : (table.buckets ent).live.length = (table'.buckets ent).live.length + 1 := by
    obtain ⟨x, _, hp⟩ := ht.entry
    rw [← length_liveEntries, hp.length_eq, List.length_cons, length_liveEntries]
  rcases remove_cases hr with ⟨_, rfl, _⟩ | ⟨place, x, hf, hrem⟩
  · omega
  obtain ⟨hpl, hbx, _, hslot⟩ := findKey_cases hf
  obtain ⟨ent', slot'⟩ := place
  obtain rfl : ent' = ent := hpl.trans hent
  have hfree : Freeable h x := by
    intro hc
    have hfr := hrem.free
    rw [if_pos hc] at hfr
    exact ⟨h', hfr⟩
  by_cases hc : (table.buckets ent').chain = []
  case pos =>
    rw [findKey_head hent hn hc] at hf
    cases hf
    exact .inl ⟨hc, hfree⟩
  case neg =>
    refine .inr ⟨hc, ?_⟩
    rw [findKey_chain hent hn hc] at hf
    obtain ⟨r, hs, hr⟩ := Except.exists_ok_of_map hf
    obtain ⟨⟨i, y⟩, rfl, hy⟩ := Option.map_eq_some_iff.mp hr
    cases hy
    have hx : x.hash ≠ none := by
      intro hy
      obtain ⟨rest, hp, hp'⟩ := hbx.live_perm
      have hl := hp.length_eq
      have hl' := (hp' { x with hash := none, data := 0 }).length_eq
      rw [hrem.table] at hlen
      simp only [set, setBucket, Function.update_self] at hlen
      rw [used_cons_none hy] at hl
      rw [used_cons_none rfl] at hl'
      exact Nat.succ_ne_self _ (hlen.symm.trans (hl.trans hl'.symm))
    obtain ⟨hb, hfirst⟩ := firstNode_of_searchChain hx hs
    exact ⟨by rwa [readKey_length], i, x, hfirst, hfree⟩

end Takes

end Remove

section Run

theorem Heads.setBucket (ht : Heads table) (hb : bucket.head.hash = none → bucket.chain = []) :
    Heads (table.setBucket ent bucket) :=
  (setBucket_rebuilt ht hb).heads

-- A head with a chain keeps its hash: it is not found, and neither removed.
theorem Heads.step {s s' : Hashtable × Kmalloc.Heap} {op : TableOp} (ht : 0 < s.1.bucketCount ∧ Heads s.1)
    (hs : TableStep memcpy s op s') : 0 < s'.1.bucketCount ∧ Heads s'.1 := by
  obtain ⟨hc, ht⟩ := ht
  obtain ⟨table', h'⟩ := s'
  cases hs
  case insert hk =>
    obtain ⟨thsh, h₁, hcopy, hins⟩ := insert_cases hk
    cases hins
    case head          => exact ⟨hc, ht.setBucket fun _ => rfl⟩
    case reuse hh _    => exact ⟨hc, ht.setBucket fun hn => absurd hn hh⟩
    case append hh _ _ => exact ⟨hc, ht.setBucket fun hn => absurd hn hh⟩
  case remove hk =>
    rcases remove_cases hk with ⟨_, rfl, _⟩ | ⟨⟨ent, slot⟩, e, hf, hrem⟩
    · exact ⟨hc, ht⟩
    · obtain ⟨_, _, hh, hslot⟩ := findKey_cases hf
      rw [hrem.table]
      refine ⟨hc, ht.setBucket ?_⟩
      cases slot
      case head   => exact fun _ => hslot rfl
      case node i => exact fun hn => absurd hn hh
  case other => exact ⟨hc, ht⟩

theorem heads_of_steps {h : Kmalloc.Heap} {s : Hashtable × Kmalloc.Heap} (hc : 0 < table.bucketCount)
    (he : ∀ i < table.bucketCount, Empty (table.buckets i))
    (hs : Run.Steps (TableStep memcpy) (fun _ _ => True) (table, h) s) :
    0 < s.1.bucketCount ∧ Heads s.1 := by
  have init : 0 < table.bucketCount ∧ Heads table := ⟨hc, fun i hi _ => (he i hi).right⟩
  exact hs.invariant (I := fun s => 0 < s.1.bucketCount ∧ Heads s.1) init fun ht _ hs => Heads.step ht hs

-- In every table that calls can make of an empty one.
theorem liveEntries_of_steps {h : Kmalloc.Heap} {s : Hashtable × Kmalloc.Heap} (hc : 0 < table.bucketCount)
    (he : ∀ i < table.bucketCount, Empty (table.buckets i))
    (hs : Run.Steps (TableStep memcpy) (fun _ _ => True) (table, h) s) :
    (∀ data hash bytes flags, InsertAdds memcpy s.1 data hash bytes flags s.2 ↔
      InsertFits memcpy (s.1.buckets (entOf s.1 s.2 hash bytes)) hash bytes flags s.2) ∧
    ∀ hash bytes, (∃ e ∈ (s.1.buckets (entOf s.1 s.2 hash bytes)).live,
        keyOf s.2.mem e = readKey (s.2.mem hash) bytes) →
      (RemoveTakes s.1 hash bytes s.2 ↔
        RemoveFits (s.1.buckets (entOf s.1 s.2 hash bytes)) (readKey (s.2.mem hash) bytes) s.2) := by
  obtain ⟨hc', ht⟩ := heads_of_steps hc he hs
  constructor
  case left =>
    intro data hash bytes flags
    exact ⟨fits_of_insertAdds ht (entOf_lt hc') rfl, insertAdds_of_fits (entOf_lt hc') ht rfl⟩
  case right =>
    rintro hash bytes ⟨e, hm, hk⟩
    have hh := ht (entOf s.1 s.2 hash bytes) (entOf_lt hc')
    exact ⟨fits_of_removeTakes rfl hm hh, removeTakes_of_fits rfl hm hk hh⟩

end Run

section Example

-- A bucket for all keys, and the keys 1, 2, 3 and 4 of one byte in memory.
def emptyTable : Hashtable where
  bucketCount := 1
  buckets _   := { head := { hash := none, hashLen := 0, flags := 0, data := 0 }, chain := [] }

def fourKeys : Kmalloc.Heap where
  mem p _  := BitVec.ofNat 8 p
  blocks _ := none
  free _   := 0
  next     := 5
  lock     := false

def chainOf (chain : List (Ptr × Hashbucket)) : Hashtable :=
  emptyTable.setBucket 0 ⟨⟨some 1, 1, 0, 10⟩, chain⟩

-- Three keys are inserted, and the one in the middle is removed.
def firstKey : Hashtable × Kmalloc.Heap :=
  (chainOf [], fourKeys)

def secondKey : Hashtable × Kmalloc.Heap :=
  (firstKey.1.setBucket 0 ⟨⟨some 1, 1, 0, 10⟩, [(5, ⟨some 2, 1, 0, 20⟩)]⟩, fourKeys.grow sizeofHashbucket)

def thirdKey : Hashtable × Kmalloc.Heap :=
  (secondKey.1.setBucket 0 ⟨⟨some 1, 1, 0, 10⟩, [(5, ⟨some 2, 1, 0, 20⟩), (6, ⟨some 3, 1, 0, 30⟩)]⟩,
    (fourKeys.grow sizeofHashbucket).grow sizeofHashbucket)

def withHole : Hashtable × Kmalloc.Heap :=
  (thirdKey.1.set ⟨0, .node 0⟩ ⟨none, 1, 0, 0⟩, thirdKey.2)

theorem thirdKey_steps : Run.Steps (TableStep memcpy) (fun _ _ => True) (emptyTable, fourKeys) thirdKey := by
  have insert₁ : TableStep memcpy (emptyTable, fourKeys) (.insert 10 1 1 0) firstKey := .insert rfl
  have insert₂ : TableStep memcpy firstKey (.insert 20 2 1 0) secondKey := .insert rfl
  have insert₃ : TableStep memcpy secondKey (.insert 30 3 1 0) thirdKey := .insert rfl
  exact .step (.step (.step (.refl _) trivial insert₁) trivial insert₂) trivial insert₃

theorem withHole_steps : Run.Steps (TableStep Libc.memcpy) (fun _ _ => True) (emptyTable, fourKeys) withHole := by
  have remove₂ : TableStep Libc.memcpy thirdKey (.remove 2 1) withHole := .remove rfl
  exact .step thirdKey_steps trivial remove₂

theorem empty_emptyTable : ∀ i < emptyTable.bucketCount, Empty (emptyTable.buckets i) :=
  fun _ _ => ⟨rfl, rfl⟩

-- The third key can be removed behind the second one, and a copy of the fourth one added.
theorem liveEntries_of_steps_thirdKey :
    RemoveTakes thirdKey.1 3 1 thirdKey.2 ∧ InsertAdds copyBytes thirdKey.1 40 4 1 flagCopy thirdKey.2 := by
  have h := liveEntries_of_steps (by decide) empty_emptyTable (@thirdKey_steps copyBytes)
  have hm : ⟨some 3, 1, 0, 30⟩ ∈ (thirdKey.1.buckets 0).live :=
    mem_used.mpr ⟨.tail _ (.tail _ (.head _)), by decide⟩
  have hf : firstNode thirdKey.2.mem [3] (thirdKey.1.buckets 0).chain = some (1, ⟨some 3, 1, 0, 30⟩) :=
    rfl
  constructor
  case left =>
    refine (h.right 3 1 ⟨⟨some 3, 1, 0, 30⟩, hm, rfl⟩).mpr (.inr ⟨by decide, by decide, 1, _, hf, ?_⟩)
    exact fun hc => absurd rfl hc
  case right =>
    have hcopy : CopyFits copyBytes 4 1 thirdKey.2 := ⟨by decide, by decide, copyBytes_copies _ _ _⟩
    have hreuse : Reusable [(5, ⟨some 2, 1, 0, 20⟩), (6, ⟨some 3, 1, 0, 30⟩)] := by
      rw [Reusable, if_neg (by decide)]
      exact trivial
    exact (h.left 40 4 1 flagCopy).mpr ⟨fun _ => hreuse, fun _ => hcopy, fun _ => rfl⟩

-- The fourth key goes to the node of the second one, and the third one is lost.
theorem insert_loses_entry :
    ¬∀ (memcpy : Memcpy) (table : Hashtable) (h : Kmalloc.Heap) (s : Hashtable × Kmalloc.Heap),
      0 < table.bucketCount → (∀ i < table.bucketCount, Empty (table.buckets i)) →
      Run.Steps (TableStep memcpy) (fun _ _ => True) (table, h) s → s.2.lock = false →
      ∀ data hash bytes, 0 < bytes → bytes < maxRequest → InsertAdds memcpy s.1 data hash bytes 0 s.2 := by
  intro hc
  have ha := hc Libc.memcpy emptyTable fourKeys withHole (by decide) empty_emptyTable withHole_steps rfl 40 4 1
    (by decide) (by decide)
  obtain ⟨_, ht⟩ := heads_of_steps (by decide) empty_emptyTable withHole_steps
  have hf := fits_of_insertAdds ht (by decide) rfl ha
  have hu : Reusable [(5, ⟨none, 1, 0, 0⟩), (6, ⟨some 3, 1, 0, 30⟩)] := hf.reuse (by decide)
  rw [Reusable, if_pos rfl] at hu
  exact absurd (hu _ (.head _)) (by decide)

end Example

end RoverOS.Hashtable
