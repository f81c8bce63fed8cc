import RoverOS.Hashtable.Theorems.Live
import RoverOS.Kmalloc.Theorems.Blocks
import RoverOS.Library.Ledger

-- The blocks of the heap that a table holds: the copies of its keys and the nodes of its chains.

open List (Perm)
open Function (update update_self update_of_ne)

namespace RoverOS.Hashtable

open Kmalloc

-- The block that an entry has been given for its key.
def keyTokens (e : Hashbucket) : List Ptr :=
  if HasCopy e.flags then e.hash.toList else []

def Bucket.nodes (bucket : Bucket) : List Ptr :=
  bucket.chain.map Prod.fst

def chainTokens (chain : List (Ptr × Hashbucket)) : List Ptr :=
  chain.flatMap fun (node, key) => keyTokens key ++ [node]

def Bucket.tokens (bucket : Bucket) : List Ptr :=
  keyTokens bucket.head ++ chainTokens bucket.chain

def nodes (table : Hashtable) : List Ptr :=
  (List.range table.bucketCount).flatMap fun i => (table.buckets i).nodes

def tokens (table : Hashtable) : List Ptr :=
  (List.range table.bucketCount).flatMap fun i => (table.buckets i).tokens

variable {table : Hashtable} {bucket bucket' : Bucket} {chain front back : List (Ptr × Hashbucket)} {ent i : Nat}
variable {e e' : Hashbucket} {slot : Slot} {place : Place} {p : Ptr}

section Entries

theorem keyTokens_copy (hc : HasCopy e.flags) (he : e.hash = some p) : keyTokens e = [p] := by
  rw [keyTokens, if_pos hc, he]
  rfl

theorem keyTokens_given (hc : ¬HasCopy e.flags) : keyTokens e = [] :=
  if_neg hc

theorem keyTokens_unused (he : e.hash = none) : keyTokens e = [] := by
  rw [keyTokens, he]
  exact ite_self _

theorem mem_keyTokens : p ∈ keyTokens e ↔ HasCopy e.flags ∧ e.hash = some p := by
  rw [keyTokens]
  split
  case isTrue hc  => simp [hc]
  case isFalse hc => simp [hc]

theorem chainTokens_append : chainTokens (front ++ back) = chainTokens front ++ chainTokens back :=
  List.flatMap_append

theorem chainTokens_cons {node : Ptr} :
    chainTokens ((node, e) :: chain) = keyTokens e ++ node :: chainTokens chain := by
  simp [chainTokens]

theorem mem_chainTokens_of_node {node : Ptr} (h : (node, e) ∈ chain) : node ∈ chainTokens chain :=
  List.mem_flatMap.mpr ⟨_, h, by simp⟩

theorem Bucket.nodes_sub (h : p ∈ bucket.nodes) : p ∈ bucket.tokens := by
  obtain ⟨⟨node, e⟩, hm, rfl⟩ := List.mem_map.mp h
  exact List.mem_append_right _ (mem_chainTokens_of_node hm)

-- Writing an entry into a node exchanges the block of its key.
theorem chainTokens_modify {node : Ptr} (h : chain[i]? = some (node, e)) :
    ∃ rest, Perm (chainTokens chain) (keyTokens e ++ rest) ∧
      (∀ e', Perm (chainTokens (chain.modify i fun (node, _) => (node, e'))) (keyTokens e' ++ rest)) ∧
      ∀ p ∈ chain.map Prod.fst, p ∈ rest := by
  induction chain generalizing i
  case nil => cases h
  case cons n chain hi =>
    obtain ⟨node', test⟩ := n
    cases i
    case zero =>
      cases h
      refine ⟨node :: chainTokens chain, .of_eq chainTokens_cons, fun e' => .of_eq chainTokens_cons, ?_⟩
      intro p hp
      rcases List.mem_cons.mp hp with rfl | hp
      · exact .head _
      · obtain ⟨⟨q, x⟩, hm, rfl⟩ := List.mem_map.mp hp
        exact .tail _ (mem_chainTokens_of_node hm)
    case succ i =>
      obtain ⟨rest, hr, hr', hn⟩ := hi h
      have front {l : List Ptr} {x : Hashbucket} (hl : Perm l (keyTokens x ++ rest)) :
          Perm (keyTokens test ++ node' :: l) (keyTokens x ++ (keyTokens test ++ node' :: rest)) := by
        refine ((hl.cons node').append_left (keyTokens test)).trans ?_
        refine .trans ?_ (List.perm_append_comm_assoc ..)
        exact (List.perm_middle.symm).append_left _
      refine ⟨keyTokens test ++ node' :: rest, ?_, fun e' => ?_, fun p hp => ?_⟩
      · rw [chainTokens_cons]
        exact front hr
      · rw [List.modify_succ_cons, chainTokens_cons]
        exact front (hr' e')
      · rcases List.mem_cons.mp hp with rfl | hp
        · exact List.mem_append_right _ (.head _)
        · exact List.mem_append_right _ (.tail _ (hn p hp))

theorem Bucket.Has.tokens_perm (h : bucket.Has e slot) :
    ∃ rest, Perm bucket.tokens (keyTokens e ++ rest) ∧
      (∀ e', Perm (bucket.set e' slot).tokens (keyTokens e' ++ rest)) ∧ ∀ p ∈ bucket.nodes, p ∈ rest := by
  cases slot
  case head =>
    obtain rfl : bucket.head = e := h
    refine ⟨chainTokens bucket.chain, .refl _, fun e' => .refl _, fun p hp => ?_⟩
    obtain ⟨⟨q, x⟩, hm, rfl⟩ := List.mem_map.mp hp
    exact mem_chainTokens_of_node hm
  case node i =>
    obtain ⟨node, h⟩ := h
    obtain ⟨rest, hr, hr', hn⟩ := chainTokens_modify h
    refine ⟨keyTokens bucket.head ++ rest, ?_, fun e' => ?_, fun p hp => List.mem_append_right _ (hn p hp)⟩
    · exact (hr.append_left _).trans (List.perm_append_comm_assoc ..)
    · exact ((hr' e').append_left _).trans (List.perm_append_comm_assoc ..)

theorem Bucket.nodes_set : (bucket.set e slot).nodes = bucket.nodes := by
  cases slot
  case head => rfl
  case node i =>
    rw [nodes, nodes, set]
    refine List.ext_getElem? fun j => ?_
    rw [List.getElem?_map, List.getElem?_map, List.getElem?_modify]
    by_cases hj : i = j <;> simp [hj, Function.comp_def]

end Entries

section Table

theorem setBucket_self : (table.setBucket ent bucket).buckets ent = bucket :=
  update_self ..

theorem setBucket_of_ne (h : i ≠ ent) : (table.setBucket ent bucket).buckets i = table.buckets i :=
  update_of_ne h ..

theorem nodes_sub (h : p ∈ table.nodes) : p ∈ table.tokens := by
  obtain ⟨i, hi, hp⟩ := List.mem_flatMap.mp h
  exact List.mem_flatMap.mpr ⟨i, hi, Bucket.nodes_sub hp⟩

theorem tokens_empty (h : ∀ i < table.bucketCount, Empty (table.buckets i)) : table.tokens = [] := by
  refine List.flatMap_eq_nil_iff.mpr fun i hi => ?_
  obtain ⟨hh, hc⟩ := h i (List.mem_range.mp hi)
  rw [Bucket.tokens, hc, keyTokens_unused hh]
  rfl

-- The blocks of one bucket and those of the others.
theorem tokens_split (hi : ent < table.bucketCount) :
    ∃ rest, Perm table.tokens ((table.buckets ent).tokens ++ rest) ∧
      (∀ bucket, Perm (table.setBucket ent bucket).tokens (bucket.tokens ++ rest)) ∧
      ∀ p ∈ table.nodes, p ∈ (table.buckets ent).nodes ∨ p ∈ rest := by
  have hp : Perm (List.range table.bucketCount) (ent :: (List.range table.bucketCount).erase ent) :=
    List.perm_cons_erase (List.mem_range.mpr hi)
  have ne {j : Nat} (hj : j ∈ (List.range table.bucketCount).erase ent) : j ≠ ent :=
    fun he => (List.nodup_range.not_mem_erase) (he ▸ hj)
  refine ⟨((List.range table.bucketCount).erase ent).flatMap fun i => (table.buckets i).tokens,
    hp.flatMap_right _, fun bucket => ?_, fun p hm => ?_⟩
  · refine (hp.flatMap_right _).trans (.of_eq ?_)
    rw [List.flatMap_cons, setBucket_self]
    congr 1
    exact List.flatMap_congr fun j hj => by rw [setBucket_of_ne (ne hj)]
  · obtain ⟨j, hj, hm⟩ := List.mem_flatMap.mp hm
    by_cases he : j = ent
    case pos => exact .inl (he ▸ hm)
    case neg =>
      exact .inr (List.mem_flatMap.mpr ⟨j, (List.mem_erase_of_ne he).mpr hj, Bucket.nodes_sub hm⟩)

-- Writing an entry into the table exchanges the block of its key.
theorem tokens_set (hi : place.ent < table.bucketCount) (h : (table.buckets place.ent).Has e place.slot) :
    ∃ rest, Perm table.tokens (keyTokens e ++ rest) ∧
      (∀ e', Perm (table.set place e').tokens (keyTokens e' ++ rest)) ∧ ∀ p ∈ table.nodes, p ∈ rest := by
  obtain ⟨others, ht, hs, hn⟩ := tokens_split hi
  obtain ⟨rest, hr, hr', hn'⟩ := h.tokens_perm
  refine ⟨rest ++ others, ?_, fun e' => ?_, fun p hp => ?_⟩
  · rw [← List.append_assoc]
    exact ht.trans (hr.append_right _)
  · rw [← List.append_assoc]
    exact (hs _).trans ((hr' e').append_right _)
  · exact List.mem_append.mpr ((hn p hp).imp_left (hn' p))

theorem nodes_set : (table.set place e).nodes = table.nodes := by
  refine List.flatMap_congr fun i _ => ?_
  by_cases hi : i = place.ent
  case pos => rw [hi, set, setBucket_self, Bucket.nodes_set]
  case neg => rw [set, setBucket_of_ne hi]

theorem mem_nodes_setBucket (h : p ∈ (table.setBucket ent bucket).nodes) : p ∈ bucket.nodes ∨ p ∈ table.nodes := by
  obtain ⟨i, hi, hp⟩ := List.mem_flatMap.mp h
  by_cases he : i = ent
  case pos =>
    rw [he, setBucket_self] at hp
    exact .inl hp
  case neg =>
    rw [setBucket_of_ne he] at hp
    exact .inr (List.mem_flatMap.mpr ⟨i, hi, hp⟩)

end Table

section Account

-- The blocks that the table has taken, those of them that are in use and those that it still knows of.
def account (held : List Ptr) (taken : Set Ptr) (h : Kmalloc.Heap) : Ledger Ptr where
  held  := held
  taken := (· ∈ taken)
  live  := fun p => p ∈ taken ∧ h.blocks p ≠ none

variable {held held' : List Ptr} {taken : Set Ptr} {h h' : Kmalloc.Heap} {sz bytes : Nat} {hash : Ptr}
variable {flags : BitVec 8} {thsh : Option Ptr} {memcpy : Memcpy}

open Ledger (Moves)

theorem account_perm (hp : Perm held held') : Moves [] (account held taken h) (account held' taken h) :=
  .perm hp rfl rfl

theorem account_grown (hg : Grown h sz h') (hn : ∀ p ∈ taken, p < h.next) :
    Moves [] (account held taken h) (account (h.next :: held) (taken ∪ Set.Ico h.next h'.next) h') := by
  have mem (q : Ptr) : q ∈ taken ∪ Set.Ico h.next h'.next ↔ q = h.next ∨ q ∈ taken := by
    have hq : h.next ≤ q ∧ q < h.next + 1 ↔ q = h.next :=
      ⟨fun ⟨hl, hu⟩ => Nat.le_antisymm (Nat.le_of_lt_succ hu) hl, fun he => he ▸ ⟨Nat.le_refl _, Nat.lt_succ_self _⟩⟩
    rw [hg.next, Set.mem_union, Set.mem_Ico, hq, or_comm]
  have m : Moves [] (account held taken h) ⟨h.next :: held, fun q => q = h.next ∨ (account held taken h).taken q,
      fun q => q = h.next ∨ (account held taken h).live q⟩ :=
    .take (fun hm => Nat.lt_irrefl _ (hn _ hm)) (.refl _)
  convert m using 1
  rw [account, Ledger.mk.injEq]
  refine ⟨rfl, funext fun q => propext (mem q), funext fun q => propext ?_⟩
  rw [mem, hg.blocks]
  by_cases hq : q = h.next
  case pos => simp [hq]
  case neg => simp [hq, account]

theorem account_freed (hb : h'.blocks = update h.blocks p none) :
    Moves [] (account (p :: held) taken h) (account held taken h') := by
  have m : Moves [] (account (p :: held) taken h) ⟨held, (account held taken h).taken,
      fun q => q ≠ p ∧ (account (p :: held) taken h).live q⟩ := .give (.refl _)
  convert m using 1
  rw [account, Ledger.mk.injEq]
  refine ⟨rfl, rfl, funext fun q => propext ?_⟩
  rw [hb]
  by_cases hq : q = p
  case pos => simp [hq]
  case neg => simp [hq, account]

theorem Ico_self_union : taken ∪ Set.Ico h.next h.next = taken := by
  rw [Set.Ico_self, Set.union_empty]

-- The copy of a key is one more block.
theorem account_copyHash (hc : CopyHash hash bytes flags h thsh h') (hn : ∀ p ∈ taken, p < h.next)
    (he : e.hash = thsh) (hf : e.flags = flags) :
    Moves [] (account held taken h) (account (keyTokens e ++ held) (taken ∪ Set.Ico h.next h'.next) h') := by
  subst hf
  cases hc
  case given hc =>
    rw [keyTokens_given hc, Ico_self_union]
    exact .refl _
  case null =>
    rw [keyTokens_unused he, Ico_self_union]
    exact .refl _
  case copy hc hg =>
    rw [keyTokens_copy hc he]
    exact account_grown hg hn

end Account

end RoverOS.Hashtable
