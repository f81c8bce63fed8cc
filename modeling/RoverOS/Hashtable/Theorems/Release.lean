import RoverOS.Hashtable.Theorems.Tokens
import RoverOS.Library.History

-- What a table has taken from the heap over its life, and when destroying it gives all of that back.

open List (Perm)
open Function (update update_self update_of_ne)
open Ledger (Moves)

namespace RoverOS.Hashtable

open Kmalloc

-- A table, the heap and the blocks that the calls of the table have taken from it.
structure Own where
  table : Hashtable
  heap  : Kmalloc.Heap
  taken : Set Ptr

inductive OwnOp
  | insert (data : Word) (hash : Ptr) (bytes : Nat) (flags : BitVec 8)
  | remove (hash : Ptr) (bytes : Nat)
  | update (data : Word) (hash : Ptr) (bytes : Nat) (flags : BitVec 8)
  | other (heap : Kmalloc.Heap)

-- Everything that is new on the heap after a call has been taken by it.
def Own.after (s : Own) (table : Hashtable) (heap : Kmalloc.Heap) : Own where
  table := table
  heap  := heap
  taken := s.taken ∪ Set.Ico s.heap.next heap.next

-- Others take what blocks they like, and leave those of the table and their redzones alone.
structure Leaves (taken : Set Ptr) (h h' : Kmalloc.Heap) : Prop where
  next   : h.next ≤ h'.next
  blocks : ∀ p ∈ taken, h'.blocks p = h.blocks p
  intact : ∀ p ∈ taken, ∀ sz, Intact (h.mem p) sz → Intact (h'.mem p) sz

inductive OwnStep (memcpy : Memcpy) : Own → OwnOp → Own → Prop
  | insert {s data hash bytes flags table h} :
    hashtableInsert memcpy s.table data hash bytes flags s.heap = .ok (table, h) →
      OwnStep memcpy s (.insert data hash bytes flags) (s.after table h)
  | remove {s hash bytes table h} :
    hashtableRemove s.table hash bytes s.heap = .ok (table, h) →
      OwnStep memcpy s (.remove hash bytes) (s.after table h)
  | update {s data hash bytes flags b table h} :
    hashtableUpdate memcpy s.table data hash bytes flags s.heap = .ok (b, table, h) →
      OwnStep memcpy s (.update data hash bytes flags) (s.after table h)
  | other {s h} : Leaves s.taken s.heap h → OwnStep memcpy s (.other h) ⟨s.table, h, s.taken⟩

-- An unused node has another one behind it.
def Hole (chain : List (Ptr × Hashbucket)) : Prop :=
  ∃ front node next back, chain = front ++ node :: next :: back ∧ node.snd.hash = none

-- The insertion puts its entry into a node in the middle of the chain.
def Cuts (s : Own) : OwnOp → Prop
  | .insert _ hash bytes _ =>
    (s.table.buckets (entOf s.table s.heap hash bytes)).head.hash ≠ none ∧
      Hole (s.table.buckets (entOf s.table s.heap hash bytes)).chain
  | _ => False

def Bucket.entries (bucket : Bucket) : List Hashbucket :=
  bucket.head :: bucket.chain.map Prod.snd

-- The heap is free, and an entry that says it has a copy of its key has one, and it is intact.
structure Destroyable (s : Own) : Prop where
  lock   : s.heap.lock = false
  copies : ∀ i < s.table.bucketCount, ∀ e ∈ (s.table.buckets i).entries, HasCopy e.flags →
    ∃ p, e.hash = some p ∧ Fine s.heap p

-- `hashtableDestroy` returns, and has freed all that the table has ever taken and nothing else.
def Released (ptr array : Ptr) (s : Own) : Prop :=
  ∃ h, hashtableDestroy (some ptr) (some array) s.table s.heap = .ok h ∧
    (∀ p ∈ s.taken, h.blocks p = none) ∧ ∀ p ∉ s.taken, h.blocks p = s.heap.blocks p

def Own.account (ptr array : Ptr) (s : Own) : Ledger Ptr :=
  Hashtable.account (s.table.tokens ++ [array, ptr]) s.taken s.heap

structure Keeps (ptr array : Ptr) (s : Own) : Prop where
  count : 0 < s.table.bucketCount
  heads : Heads s.table
  valid : (s.account ptr array).Valid
  fresh : ∀ p ∈ s.taken, p < s.heap.next
  fine  : ∀ p, p ∈ s.table.nodes ∨ p = array ∨ p = ptr → Fine s.heap p

variable {memcpy : Memcpy} {s s' : Own} {op : OwnOp} {ops : List (Own × OwnOp)} {ptr array p : Ptr}
variable {table table' : Hashtable} {h h' : Kmalloc.Heap} {hash : Ptr} {bytes ent i : Nat} {flags : BitVec 8}
variable {data : Word} {e e' : Hashbucket} {chain : List (Ptr × Hashbucket)} {place : Place} {taken : Set Ptr}

section Holes

theorem reuseNode_cons {n : Ptr × Hashbucket} (hc : chain ≠ []) :
    reuseNode e (n :: chain) =
      if n.snd.hash = none then some [(n.fst, e)] else (reuseNode e chain).map (n :: ·) := by
  cases chain
  case nil  => exact absurd rfl hc
  case cons => rfl

theorem reuseNode_ne_none_iff : reuseNode e chain ≠ none ↔ Hole chain := by
  constructor
  case mp =>
    intro hr
    have ⟨chain', hr⟩ := Option.ne_none_iff_exists'.mp hr
    have ⟨front, node, test, next, back, hs, _, ht, _⟩ := reuseNode_split hr
    exact ⟨front, (node, test), next, back, hs, ht⟩
  case mpr =>
    rintro ⟨front, node, next, back, rfl, hn⟩
    induction front
    case nil =>
      rw [List.nil_append, reuseNode_cons (List.cons_ne_nil _ _), if_pos hn]
      exact Option.some_ne_none _
    case cons n front hi =>
      rw [List.cons_append, reuseNode_cons (by simp)]
      split
      case isTrue  => exact Option.some_ne_none _
      case isFalse => simpa using hi

end Holes

section Updates

-- What an update does with the key of the entry that it has found.
inductive UpdateHash (key : Hashbucket) (hash : Ptr) (bytes : Nat) (flags : BitVec 8) (h : Kmalloc.Heap) :
    Option Ptr → Kmalloc.Heap → Prop
  | keep : ¬HasCopy key.flags → ¬HasCopy flags → UpdateHash key hash bytes flags h key.hash h
  | copy {thsh : Option Ptr} {h' : Kmalloc.Heap} : ¬HasCopy key.flags → HasCopy flags →
    CopyHash hash bytes flags h thsh h' → Spares (fun _ => False) h h' → UpdateHash key hash bytes flags h thsh h'
  | give {p : Ptr} {h' : Kmalloc.Heap} : HasCopy key.flags → ¬HasCopy flags → key.hash = some p →
    kfree (some p) h = .ok h' → UpdateHash key hash bytes flags h (some hash) h'
  | resize {p : Ptr} {thsh : Option Ptr} {h' : Kmalloc.Heap} : HasCopy key.flags → HasCopy flags →
    key.hash = some p → Fine h p → Reallocs p h thsh h' → Spares (· = p) h h' →
    UpdateHash key hash bytes flags h thsh h'

theorem copyKey_spares {thsh : Option Ptr} (hk : copyKey memcpy hash bytes h = .ok (thsh, h')) :
    Spares (fun _ => False) h h' := by
  have ⟨⟨ptr, h₁⟩, hm, hk⟩ := Except.bind_ok_iff.mp hk
  have hs := (kmalloc_spares hm).left
  cases ptr
  case none =>
    cases hk
    exact hs
  case some p =>
    cases hk
    rcases kmalloc_cases hm with ⟨_, _, hn, _⟩ | ⟨hp, _⟩
    · cases hn
    · cases hp
      exact ⟨hs.next, hs.blocks, fun hq n => (update_of_ne (Nat.ne_of_lt hq) _ _).trans (hs.mem hq n)⟩

theorem updateHash_cases {thsh : Option Ptr} (hk : updateHash memcpy e hash bytes flags h = .ok (thsh, h')) :
    UpdateHash e hash bytes flags h thsh h' := by
  unfold updateHash at hk
  split at hk
  case isTrue hc =>
    split at hk
    case isTrue hf =>
      have ⟨p, hp, hb, hr, hs⟩ := krealloc_cases hk
      exact .resize hc hf hp hb hr hs
    case isFalse hf =>
      have ⟨h₁, hfree, hk⟩ := Except.bind_ok_iff.mp hk
      have ⟨_, p, _, hp, _⟩ := kfree_cases hfree
      cases hk
      exact .give hc hf hp (hp ▸ hfree)
  case isFalse hc =>
    split at hk
    case isTrue hf =>
      have hcopy : copyHash memcpy hash bytes flags h = .ok (thsh, h') := (if_pos hf).trans hk
      exact .copy hc hf (copyHash_cases hcopy) (copyKey_spares hk)
    case isFalse hf =>
      cases hk
      exact .keep hc hf

-- What an update does to the entry that it has found.
theorem update_cases {b : Bool} (hk : hashtableUpdate memcpy table data hash bytes flags h = .ok (b, table', h')) :
    (table' = table ∧ h' = h) ∨ ∃ place e thsh, findKey table hash bytes h = .ok (some (place, e)) ∧
      UpdateHash e hash bytes flags h thsh h' ∧
      table' = table.set place { hash := thsh, hashLen := bytes, flags, data } := by
  have ⟨r, hf, hk⟩ := Except.bind_ok_iff.mp hk
  cases r
  case none =>
    cases hk
    exact .inl ⟨rfl, rfl⟩
  case some r =>
    have ⟨place, e⟩ := r
    have ⟨⟨thsh, h₁⟩, hu, hk⟩ := Except.bind_ok_iff.mp hk
    cases hk
    exact .inr ⟨place, e, thsh, hf, updateHash_cases hu, rfl⟩

end Updates

section Inserts

-- Where the entry of an insertion goes, and the call for a new node.
inductive Puts (table : Hashtable) (ent : Nat) (key : Hashbucket) (h : Kmalloc.Heap) :
    Hashtable → Kmalloc.Heap → Prop
  | head : (table.buckets ent).head.hash = none →
    Puts table ent key h (table.setBucket ent { head := key, chain := [] }) h
  | reuse {chain : List (Ptr × Hashbucket)} : (table.buckets ent).head.hash ≠ none →
    reuseNode key (table.buckets ent).chain = some chain →
    Puts table ent key h (table.setBucket ent { table.buckets ent with chain }) h
  | append {node : Ptr} {h' : Kmalloc.Heap} : (table.buckets ent).head.hash ≠ none →
    reuseNode key (table.buckets ent).chain = none → kmalloc sizeofHashbucket h = .ok (some node, h') →
    Puts table ent key h (table.setBucket ent { table.buckets ent with
      chain := (table.buckets ent).chain ++ [(node, key)] }) h'

theorem copyHash_spares {thsh : Option Ptr} (hk : copyHash memcpy hash bytes flags h = .ok (thsh, h')) :
    Spares (fun _ => False) h h' := by
  unfold copyHash at hk
  split at hk
  case isTrue  => exact copyKey_spares hk
  case isFalse =>
    cases hk
    exact .refl _

theorem insert_puts (hk : hashtableInsert memcpy table data hash bytes flags h = .ok (table', h')) :
    ∃ thsh h₁, CopyHash hash bytes flags h thsh h₁ ∧ Spares (fun _ => False) h h₁ ∧
      Puts table (entOf table h hash bytes) { hash := thsh, hashLen := bytes, flags, data } h₁ table' h' := by
  have ⟨⟨thsh, h₁⟩, hc, hk⟩ := Except.bind_ok_iff.mp hk
  refine ⟨thsh, h₁, copyHash_cases hc, copyHash_spares hc, ?_⟩
  dsimp only at hk
  split at hk
  case isTrue hh =>
    cases hk
    exact .head hh
  case isFalse hh =>
    split at hk
    case h_1 chain hr =>
      cases hk
      exact .reuse hh hr
    case h_2 hr =>
      have ⟨⟨chain, h₂⟩, ha, hk⟩ := Except.bind_ok_iff.mp hk
      cases hk
      have ⟨⟨node, h₃⟩, hm, ha⟩ := Except.bind_ok_iff.mp ha
      cases node
      case none      => cases ha
      case some node =>
        cases ha
        exact .append hh hr hm

theorem Puts.spares (hp : Puts table ent e h table' h') : Spares (fun _ => False) h h' := by
  cases hp
  case head          => exact .refl _
  case reuse         => exact .refl _
  case append _ _ hm => exact (kmalloc_spares hm).left

-- A node of the table after an insertion was there before, or it is a new block.
theorem Puts.nodes (hp : Puts table ent e h table' h') (hm : p ∈ table'.nodes) (hi : ent < table.bucketCount) :
    p ∈ table.nodes ∨ Fine h' p := by
  have old {q : Ptr} (hq : q ∈ (table.buckets ent).chain.map Prod.fst) : q ∈ table.nodes :=
    List.mem_flatMap.mpr ⟨ent, List.mem_range.mpr hi, hq⟩
  cases hp
  case head =>
    rcases mem_nodes_setBucket hm with hm | hm
    · cases hm
    · exact .inl hm
  case reuse hh hr =>
    rcases mem_nodes_setBucket hm with hm | hm
    · have ⟨front, node, test, next, back, hs, _, _, hc⟩ := reuseNode_split hr
      refine .inl (old ?_)
      rw [hs]
      rw [Bucket.nodes, hc] at hm
      simp only [List.map_append, List.mem_append, List.map_cons, List.mem_cons] at hm ⊢
      exact hm.imp_right fun hm => hm.imp_right fun hm => by cases hm
    · exact .inl hm
  case append hn hr hk =>
    rcases mem_nodes_setBucket hm with hm | hm
    · rw [Bucket.nodes, List.map_append, List.mem_append] at hm
      refine hm.imp old fun hm => ?_
      exact (kmalloc_spares hk).right p (congrArg some (List.mem_singleton.mp hm).symm)
    · exact .inl hm

end Inserts

section Calls

variable {thsh : Option Ptr} {held : List Ptr}

theorem Puts.next_le (hp : Puts table ent e h table' h') : h.next ≤ h'.next :=
  hp.spares.next

theorem Ico_union (h₁ : i ≤ ent) (h₂ : ent ≤ bytes) :
    taken ∪ Set.Ico i ent ∪ Set.Ico ent bytes = taken ∪ Set.Ico i bytes := by
  rw [Set.union_assoc, Set.Ico_union_Ico_eq_Ico h₁ h₂]

theorem fresh_union (hn : ∀ p ∈ taken, p < h.next) (hl : h.next ≤ h'.next) :
    ∀ p ∈ taken ∪ Set.Ico h.next h'.next, p < h'.next := by
  rintro p (hp | hp)
  · exact Nat.lt_of_lt_of_le (hn p hp) hl
  · exact hp.right

-- An insertion takes the blocks for its entry, and loses those behind the node that it uses.
theorem Puts.moves (array ptr : Ptr) (hp : Puts table ent e h table' h') (hi : ent < table.bucketCount) (ht : Heads table)
    (hn : ∀ p ∈ taken, p < h.next) :
    ∃ lost, (lost = [] ↔ ¬((table.buckets ent).head.hash ≠ none ∧ Hole (table.buckets ent).chain)) ∧
      Moves lost (account (keyTokens e ++ (table.tokens ++ [array, ptr])) taken h)
        (account (table'.tokens ++ [array, ptr]) (taken ∪ Set.Ico h.next h'.next) h') := by
  obtain ⟨rest, hr, hr', _⟩ := tokens_split hi
  cases hp
  case head hh =>
    refine ⟨[], by simp [hh], ?_⟩
    rw [Ico_self_union]
    refine account_perm ?_
    have hb : (table.buckets ent).tokens = [] := by
      rw [Bucket.tokens, keyTokens_unused hh, ht ent hi hh]
      rfl
    rw [hb] at hr
    rw [← List.append_assoc]
    refine ((hr.append_left _).trans ?_).append_right _
    refine .trans ?_ (hr' _).symm
    simp [Bucket.tokens, chainTokens]
  case reuse chain hh hc =>
    obtain ⟨front, node, test, next, back, hs, _, hu, hc'⟩ := reuseNode_split hc
    refine ⟨chainTokens (next :: back), ?_, ?_⟩
    · have hne : chainTokens (next :: back) ≠ [] :=
        List.ne_nil_of_mem (mem_chainTokens_of_node (List.mem_cons_self ..))
      have hole : Hole (table.buckets ent).chain := ⟨front, (node, test), next, back, hs, hu⟩
      exact iff_of_false hne (not_not.mpr ⟨hh, hole⟩)
    · rw [Ico_self_union]
      refine .lose (show Perm (keyTokens e ++ (table.tokens ++ [array, ptr])) _ from ?_)
      have hold : (table.buckets ent).tokens = keyTokens (table.buckets ent).head ++
          (chainTokens front ++ node :: chainTokens (next :: back)) := by
        rw [Bucket.tokens, hs, chainTokens_append, chainTokens_cons, keyTokens_unused hu, List.nil_append]
      have hnew : (Bucket.mk (table.buckets ent).head chain).tokens = keyTokens (table.buckets ent).head ++
          (chainTokens front ++ (keyTokens e ++ [node])) := by
        rw [Bucket.tokens, hc', chainTokens_append, chainTokens_cons]
        rfl
      refine List.perm_iff_count.mpr fun q => ?_
      have h₁ := hr.count_eq q
      have h₂ := (hr' ⟨(table.buckets ent).head, chain⟩).count_eq q
      rw [hold] at h₁
      rw [hnew] at h₂
      simp only [List.count_append, List.count_cons, List.count_nil] at h₁ h₂ ⊢
      omega
  case append node hh hc hm =>
    refine ⟨[], ?_, ?_⟩
    · exact iff_of_true rfl fun hcut => reuseNode_ne_none_iff.mpr hcut.right hc
    · rcases kmalloc_cases hm with ⟨_, hz, _⟩ | ⟨hnode, hg⟩
      · cases hz
      · cases hnode
        refine .trans (account_grown hg hn) (account_perm ?_)
        have hnew : (Bucket.mk (table.buckets ent).head ((table.buckets ent).chain ++ [(h.next, e)])).tokens =
            (table.buckets ent).tokens ++ (keyTokens e ++ [h.next]) := by
          rw [Bucket.tokens, chainTokens_append, chainTokens_cons, Bucket.tokens, List.append_assoc]
          rfl
        refine List.perm_iff_count.mpr fun q => ?_
        have h₁ := hr.count_eq q
        have h₂ := (hr' ⟨(table.buckets ent).head, (table.buckets ent).chain ++ [(h.next, e)]⟩).count_eq q
        rw [hnew] at h₂
        simp only [List.count_append, List.count_cons, List.count_nil] at h₁ h₂ ⊢
        omega

-- A removal or an update exchanges the block of one key.
theorem UpdateHash.moves (hu : UpdateHash e hash bytes flags h thsh h') (hf : e'.flags = flags)
    (ht : e'.hash = thsh) (hn : ∀ p ∈ taken, p < h.next) :
    Moves [] (account (keyTokens e ++ held) taken h)
      (account (keyTokens e' ++ held) (taken ∪ Set.Ico h.next h'.next) h') := by
  cases hu
  case keep hc hc' =>
    rw [keyTokens_given hc, keyTokens_given (hf ▸ hc'), Ico_self_union]
    exact .refl _
  case copy hc hc' _ hk =>
    rw [keyTokens_given hc, List.nil_append]
    exact account_copyHash hk hn ht hf
  case give p hc hc' he hk =>
    have ⟨_, q, _, hq, _, _, hh⟩ := kfree_cases hk
    cases hq
    rw [keyTokens_copy hc he, keyTokens_given (hf ▸ hc'), hh, Ico_self_union]
    exact account_freed rfl
  case resize p hc hc' he hb _ hr =>
    rw [keyTokens_copy hc he]
    cases hr
    case stay sz hbl hnext =>
      rw [keyTokens_copy (hf ▸ hc') ht, hnext, Ico_self_union]
      refine .perm (.refl _) rfl (funext fun q => propext ?_)
      have ⟨_, hb, _⟩ := hb
      by_cases hq : q = p
      case pos => simp [account, hbl, hq, hb]
      case neg => simp [account, hbl, hq]
    case move h₁ sz hg hbl hnext =>
      rw [keyTokens_copy (hf ▸ hc') ht, hnext]
      refine .trans (account_grown hg hn) (.trans (account_perm (.swap ..)) ?_)
      exact account_freed hbl

theorem UpdateHash.spares (hu : UpdateHash e hash bytes flags h thsh h') :
    Spares (· ∈ keyTokens e) h h' := by
  cases hu
  case keep               => exact .refl _
  case copy hc hc' hs _   => exact hs.mono fun _ h => h.elim
  case give p hc hc' he hk =>
    refine (kfree_spares hk).mono fun q hq => ?_
    rw [keyTokens_copy hc he]
    exact List.mem_singleton.mpr (Option.some.inj hq).symm
  case resize p hc hc' he _ hs _ =>
    refine hs.mono fun q hq => ?_
    rw [keyTokens_copy hc he]
    exact List.mem_singleton.mpr hq

-- A removal is an update that leaves the entry without a key.
theorem Removes.moves (hr : Removes table h place e table' h') :
    Moves [] (account (keyTokens e ++ held) taken h) (account (keyTokens { e with hash := none, data := 0 } ++ held)
      (taken ∪ Set.Ico h.next h'.next) h') := by
  have hf := hr.free
  have hn : keyTokens { e with hash := none, data := 0 } = [] := keyTokens_unused rfl
  rw [hn]
  split at hf
  case isTrue hc =>
    have ⟨_, p, _, hp, _, _, hh⟩ := kfree_cases hf
    rw [keyTokens_copy hc hp, hh, Ico_self_union]
    exact account_freed rfl
  case isFalse hc =>
    rw [hf, keyTokens_given hc, Ico_self_union]
    exact .refl _

theorem Removes.spares (hr : Removes table h place e table' h') : Spares (· ∈ keyTokens e) h h' := by
  have hf := hr.free
  split at hf
  case isTrue hc =>
    have ⟨_, p, _, hp, _⟩ := kfree_cases hf
    refine (kfree_spares hf).mono fun q hq => ?_
    rw [keyTokens_copy hc hp]
    exact List.mem_singleton.mpr (Option.some.inj (hq.symm.trans hp))
  case isFalse hc =>
    rw [hf]
    exact .refl _

end Calls

section Steps

variable (k : Keeps ptr array s)
include k

theorem Keeps.mem_taken (hp : p ∈ s.table.tokens ∨ p = array ∨ p = ptr) : p ∈ s.taken := by
  refine k.valid.taken p (k.valid.live p ?_)
  have hm : p ∈ s.table.tokens ++ [array, ptr] := by simpa using hp
  exact hm

-- What is found is exchanged in its place, and the other blocks of the table stay as they are.
theorem Keeps.exchange (hf : findKey s.table hash bytes s.heap = .ok (some (place, e)))
    (hm : ∀ held, Moves [] (account (keyTokens e ++ held) s.taken s.heap)
      (account (keyTokens e' ++ held) (s.taken ∪ Set.Ico s.heap.next h'.next) h'))
    (hs : Spares (· ∈ keyTokens e) s.heap h') :
    Keeps ptr array (s.after (s.table.set place e') h') ∧
      Moves [] (s.account ptr array) ((s.after (s.table.set place e') h').account ptr array) ∧
      Spares (· ∈ s.taken) s.heap h' := by
  have ⟨hent, hb, hh, hslot⟩ := findKey_cases hf
  have hi : place.ent < s.table.bucketCount := hent ▸ entOf_lt k.count
  have ⟨rest, hr, hr', hn⟩ := tokens_set hi hb
  have moves : Moves [] (s.account ptr array) ((s.after (s.table.set place e') h').account ptr array) := by
    refine .trans (account_perm (hr.append_right _)) ?_
    rw [List.append_assoc]
    refine .trans (hm _) (account_perm ?_)
    rw [← List.append_assoc]
    exact (hr' e').symm.append_right _
  have held : (keyTokens e ++ (rest ++ [array, ptr])).Nodup := by
    rw [← List.append_assoc]
    exact (hr.append_right _).nodup_iff.mp k.valid.nodup
  refine ⟨⟨k.count, ?heads, k.valid.moves moves, fresh_union k.fresh hs.next, fun p hp => ?fine⟩, moves, ?spares⟩
  case heads =>
    refine k.heads.setBucket ?_
    have ⟨ent, slot⟩ := place
    cases slot
    case head   => exact fun _ => hslot rfl
    case node i => exact fun hn => absurd hn hh
  case fine =>
    have hp : p ∈ s.table.nodes ∨ p = array ∨ p = ptr := hp.imp_left fun hp => by rwa [Own.after, nodes_set] at hp
    have hlt := k.fresh p (k.mem_taken (hp.imp_left nodes_sub))
    refine hs.fine hlt (fun hk => ?_) (k.fine p hp)
    have hm : p ∈ rest ++ [array, ptr] := by
      rw [List.mem_append]
      exact hp.imp (hn p) fun hp => by simpa using hp
    exact (List.nodup_append.mp held).right.right p hk p hm rfl
  case spares =>
    refine hs.mono fun q hq => k.mem_taken (.inl ?_)
    exact hr.mem_iff.mpr (List.mem_append_left _ hq)

-- An insertion adds its blocks, and the table is still in order.
theorem Keeps.insert (hk : hashtableInsert memcpy s.table data hash bytes flags s.heap = .ok (table, h)) :
    Keeps ptr array (s.after table h) ∧ (∃ lost, (lost = [] ↔ ¬Cuts s (.insert data hash bytes flags)) ∧
      Moves lost (s.account ptr array) ((s.after table h).account ptr array)) ∧
      Spares (· ∈ s.taken) s.heap h := by
  have ⟨thsh, h₁, hc, hs, hp⟩ := insert_puts hk
  have hi : entOf s.table s.heap hash bytes < s.table.bucketCount := entOf_lt k.count
  have spares := hs.trans hp.spares
  have ⟨lost, hlost, hm⟩ := hp.moves array ptr hi k.heads (fresh_union k.fresh hs.next)
  have moves : Moves lost (s.account ptr array) ((s.after table h).account ptr array) := by
    rw [Ico_union hs.next hp.next_le] at hm
    exact .trans (account_copyHash hc k.fresh rfl rfl) hm
  refine ⟨⟨?count, ?heads, k.valid.moves moves, fresh_union k.fresh spares.next, fun p hn => ?fine⟩,
    ⟨lost, hlost, moves⟩, spares.mono fun _ hf => hf.elim⟩
  case count =>
    cases hp
    all_goals exact k.count
  case heads =>
    cases hp
    case head          => exact k.heads.setBucket fun _ => rfl
    case reuse hh _    => exact k.heads.setBucket fun hn => absurd hn hh
    case append hh _ _ => exact k.heads.setBucket fun hn => absurd hn hh
  case fine =>
    have old (hn : p ∈ s.table.nodes ∨ p = array ∨ p = ptr) : Fine h p :=
      spares.fine (k.fresh p (k.mem_taken (hn.imp_left nodes_sub))) id (k.fine p hn)
    rcases hn with hn | hn
    · exact (hp.nodes hn hi).elim (fun hn => old (.inl hn)) id
    · exact old (.inr hn)

theorem Keeps.step (hs : OwnStep memcpy s op s') : Keeps ptr array s' ∧
    (∃ lost, (lost = [] ↔ ¬Cuts s op) ∧ Moves lost (s.account ptr array) (s'.account ptr array)) ∧
    ((∀ h, op ≠ .other h) → Spares (· ∈ s.taken) s.heap s'.heap) := by
  have same {table : Hashtable} {h : Kmalloc.Heap} (ht : table = s.table) (hh : h = s.heap) :
      s.after table h = s := by
    rw [Own.after, ht, hh, Ico_self_union]
  have kept {op : OwnOp} (hc : ¬Cuts s op) : Keeps ptr array s ∧
      (∃ lost, (lost = [] ↔ ¬Cuts s op) ∧ Moves lost (s.account ptr array) (s.account ptr array)) ∧
      ((∀ h, op ≠ .other h) → Spares (· ∈ s.taken) s.heap s.heap) :=
    ⟨k, ⟨[], iff_of_true rfl hc, .refl _⟩, fun _ => .refl _⟩
  cases hs
  case insert hk =>
    have ⟨k', hm, hs⟩ := k.insert hk
    exact ⟨k', hm, fun _ => hs⟩
  case remove hk =>
    rcases remove_cases hk with ⟨_, ht, hh⟩ | ⟨place, e, hf, hr⟩
    · rw [same ht hh]
      exact kept id
    · have ht := hr.table
      subst ht
      have ⟨k', hm, hs⟩ := k.exchange hf (fun _ => hr.moves) hr.spares
      exact ⟨k', ⟨[], iff_of_true rfl id, hm⟩, fun _ => hs⟩
  case update data hash bytes flags _ _ h hk =>
    rcases update_cases hk with ⟨ht, hh⟩ | ⟨place, e, thsh, hf, hu, ht⟩
    · rw [same ht hh]
      exact kept id
    · subst ht
      let key : Hashbucket := { hash := thsh, hashLen := bytes, flags, data }
      have exchanged (held : List Ptr) : Moves [] (Hashtable.account (keyTokens e ++ held) s.taken s.heap)
          (Hashtable.account (keyTokens key ++ held) (s.taken ∪ Set.Ico s.heap.next h.next) h) :=
        hu.moves rfl rfl k.fresh
      have ⟨k', hm, hs⟩ := k.exchange hf exchanged hu.spares
      exact ⟨k', ⟨[], iff_of_true rfl id, hm⟩, fun _ => hs⟩
  case other h hl =>
    have moves : Moves [] (s.account ptr array) (Own.account ptr array ⟨s.table, h, s.taken⟩) := by
      refine .perm (.refl _) rfl (funext fun q => propext ?_)
      exact and_congr_right fun hq => by rw [hl.blocks q hq]
    refine ⟨⟨k.count, k.heads, k.valid.moves moves, ?_, fun p hp => ?_⟩, ⟨[], iff_of_true rfl id, moves⟩, ?_⟩
    · exact fun q hq => Nat.lt_of_lt_of_le (k.fresh q hq) hl.next
    · have ⟨sz, hb, hi⟩ := k.fine p hp
      have ht := k.mem_taken (hp.imp_left nodes_sub)
      exact ⟨sz, (hl.blocks p ht).trans hb, hl.intact p ht sz hi⟩
    · exact fun ho => absurd rfl (ho h)

end Steps

end RoverOS.Hashtable
