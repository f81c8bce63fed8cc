import RoverOS.Hashtable.Theorems.Find
import RoverOS.Kmalloc.Theorems.Interface

-- What the functions of the table do to the map that its entries stand for.

open List (Perm)
open Function (update update_apply update_self update_of_ne)
open Buckets (Represents)

namespace RoverOS.Hashtable

open Kmalloc

-- The entries in use.
def entries (table : Hashtable) (i : Nat) : List Hashbucket :=
  if i < table.bucketCount then (table.buckets i).live else []

-- The memory of a key is in use, and its copy is an intact block.
def Owned (h : Kmalloc.Heap) (e : Hashbucket) : Prop :=
  ∀ p, e.hash = some p →
    p < h.next ∧ (HasCopy e.flags → h.blocks p = some e.hashLen ∧ Intact (h.mem p) e.hashLen)

structure Inv (table : Hashtable) (h : Kmalloc.Heap) (m : Key → Option Word) : Prop where
  count      : 0 < table.bucketCount
  represents : Represents (index table.bucketCount) (keyOf h.mem) Hashbucket.data table.entries m
  heads      : ∀ i < table.bucketCount, (table.buckets i).head.hash = none →
    (table.buckets i).chain = []
  owned      : ∀ {i e}, e ∈ table.entries i → Owned h e
  unique     : ∀ {i j} {e e' : Hashbucket}, e ∈ table.entries i → e' ∈ table.entries j →
    HasCopy e.flags → HasCopy e'.flags → e.hash = e'.hash → e = e'

-- `table'` differs from `table` in the bucket `ent` only.
structure Rebuilt (table table' : Hashtable) (ent : Nat) : Prop where
  count  : table'.bucketCount = table.bucketCount
  others : ∀ j ≠ ent, table'.entries j = table.entries j
  heads  : ∀ i < table.bucketCount, (table'.buckets i).head.hash = none →
    (table'.buckets i).chain = []

variable {table table' : Hashtable} {h h' : Kmalloc.Heap} {m : Key → Option Word} {ent i : Nat}
variable {e e' : Hashbucket} {p hash : Ptr} {P : Ptr → Prop} {bucket : Bucket} {slot : Slot}
variable {bytes : Nat} {flags : BitVec 8} {data : Word} {memcpy : Memcpy} {key : Key}

theorem index_lt (h : 0 < table.bucketCount) (key : List (BitVec 8)) :
    index table.bucketCount key < table.bucketCount :=
  Nat.mod_lt _ h

theorem entries_of_lt (hi : i < table.bucketCount) : table.entries i = (table.buckets i).live :=
  if_pos hi

theorem hash_ne_none (he : e ∈ table.entries i) : e.hash ≠ none := by
  rw [entries] at he
  split at he
  case isTrue  => exact (mem_used.mp he).right
  case isFalse => cases he

theorem Owned.keep (o : Owned h e) (k : Kept P h h')
    (hP : HasCopy e.flags → ∀ p, e.hash = some p → P p) : Owned h' e := by
  intro p hp
  have ⟨hlt, ho⟩ := o p hp
  refine ⟨Nat.lt_of_lt_of_le hlt k.next, fun hc => ?_⟩
  rw [k.mem hlt, k.blocks hlt (hP hc p hp)]
  exact ho hc

theorem Owned.keyOf_keep (o : Owned h e) (k : Kept P h h') : keyOf h'.mem e = keyOf h.mem e :=
  keyOf_congr fun p hp => k.mem (o p hp).left

theorem setBucket_rebuilt (ht : ∀ i < table.bucketCount, (table.buckets i).head.hash = none →
    (table.buckets i).chain = []) (hb : bucket.head.hash = none → bucket.chain = []) :
    Rebuilt table (table.setBucket ent bucket) ent where
  count       := rfl
  others j hj := by simp [entries, setBucket, hj]
  heads i hi  := by
    by_cases h : i = ent
    case pos => simpa [setBucket, h] using hb
    case neg => simpa [setBucket, h] using ht i hi

theorem entries_setBucket (hi : ent < table.bucketCount) :
    (table.setBucket ent bucket).entries ent = bucket.live := by
  simp [entries, setBucket, hi]

section Inv

variable (inv : Inv table h m)
include inv

theorem Inv.keep (k : Kept P h h')
    (hP : ∀ i, ∀ e ∈ table.entries i, HasCopy e.flags → ∀ p, e.hash = some p → P p) :
    Inv table h' m where
  count      := inv.count
  represents := inv.represents.congr fun _ _ he => (inv.owned he).keyOf_keep k
  heads      := inv.heads
  owned he   := (inv.owned he).keep k (hP _ _ he)
  unique     := inv.unique

theorem Inv.insert (r : Rebuilt table table' ent) (hp : Perm (table'.entries ent) (e :: table.entries ent))
    (hi : index table.bucketCount (keyOf h.mem e) = ent) (hm : m (keyOf h.mem e) = none)
    (o : Owned h e) (hu : HasCopy e.flags → ∀ {i e'}, e' ∈ table.entries i → HasCopy e'.flags →
      e'.hash ≠ e.hash) : Inv table' h (update m (keyOf h.mem e) (some e.data)) := by
  have mem {i e'} (he : e' ∈ table'.entries i) : e' = e ∨ e' ∈ table.entries i := by
    by_cases h : i = ent
    case pos =>
      subst h
      exact List.mem_cons.mp (hp.mem_iff.mp he)
    case neg => exact .inr (r.others i h ▸ he)
  refine ⟨r.count ▸ inv.count, ?represents, r.count ▸ r.heads, ?owned, ?unique⟩
  case represents =>
    rw [r.count]
    exact inv.represents.insert hi hp r.others hm
  case owned =>
    intro i e' he
    cases mem he
    case inl he => exact he ▸ o
    case inr he => exact inv.owned he
  case unique =>
    intro i j e₁ e₂ h₁ h₂ hc₁ hc₂ he
    cases mem h₁
    case inl h₁ =>
      cases mem h₂
      case inl h₂ => rw [h₁, h₂]
      case inr h₂ => exact absurd (h₁ ▸ he).symm (hu (h₁ ▸ hc₁) h₂ hc₂)
    case inr h₁ =>
      cases mem h₂
      case inl h₂ => exact absurd (h₂ ▸ he) (hu (h₂ ▸ hc₂) h₁ hc₁)
      case inr h₂ => exact inv.unique h₁ h₂ hc₁ hc₂ he

theorem Inv.remove (r : Rebuilt table table' ent)
    (hp : Perm (table.entries ent) (e :: table'.entries ent)) :
    Inv table' h (update m (keyOf h.mem e) none) ∧
      ∀ {i e'}, e' ∈ table'.entries i → e' ∈ table.entries i ∧ e' ≠ e := by
  have he : e ∈ table.entries ent := hp.mem_iff.mpr (.head _)
  have mem {i e'} (he' : e' ∈ table'.entries i) : e' ∈ table.entries i ∧ e' ≠ e := by
    by_cases h : i = ent
    case pos =>
      subst h
      have hd := (hp.pairwise_iff fun h => h.symm).mp (inv.represents.distinct i)
      refine ⟨hp.mem_iff.mpr (.tail _ he'), fun hee => ?_⟩
      exact List.rel_of_pairwise_cons hd he' (hee ▸ rfl)
    case neg =>
      rw [r.others i h] at he'
      refine ⟨he', fun hee => h ?_⟩
      rw [← inv.represents.place he, ← inv.represents.place he', hee]
  refine ⟨⟨r.count ▸ inv.count, ?represents, r.count ▸ r.heads, ?owned, ?unique⟩, mem⟩
  case represents =>
    rw [r.count]
    exact inv.represents.remove hp r.others
  case owned  => exact fun he => inv.owned (mem he).left
  case unique => exact fun h₁ h₂ => inv.unique (mem h₁).left (mem h₂).left

-- `table'` has lost the entry `e`, and another one can be put in its place.
structure Cleared (table : Hashtable) (h : Kmalloc.Heap) (m : Key → Option Word) (key : Key)
    (place : Place) (e : Hashbucket) (table' : Hashtable) : Prop where
  mem    : e ∈ table.entries place.ent
  holds  : keyOf h.mem e = key
  inv    : Inv table' h (update m key none)
  others : ∀ i, ∀ e' ∈ table'.entries i, e' ∈ table.entries i ∧ e' ≠ e
  refill : ∀ e', e'.hash ≠ none → Rebuilt table' (table.set place e') place.ent ∧
    Perm ((table.set place e').entries place.ent) (e' :: table'.entries place.ent)

omit inv in
theorem Rebuilt.symm_trans {t₁ t₂ : Hashtable} (r₁ : Rebuilt table t₁ ent)
    (r₂ : Rebuilt table t₂ ent) : Rebuilt t₁ t₂ ent where
  count       := r₂.count.trans r₁.count.symm
  others j hj := (r₂.others j hj).trans (r₁.others j hj).symm
  heads       := r₁.count ▸ r₂.heads

theorem Inv.cleared {place : Place} (hf : Finds table h.mem key (some (place, e)))
    (hn : e'.hash = none) : Cleared table h m key place e (table.set place e') := by
  cases hf
  case found slot hc hs hu hk =>
    have hi := index_lt inv.count key
    have rebuilt (x : Hashbucket) : Rebuilt table (table.set ⟨index table.bucketCount key, slot⟩ x)
        (index table.bucketCount key) := by
      refine setBucket_rebuilt inv.heads fun hn => ?_
      cases slot
      case head   => exact hc rfl
      case node i =>
        have hn := inv.heads _ hi hn
        simp [Bucket.set, hn]
    obtain ⟨rest, hr, hr'⟩ := hs.live_perm
    have hr' (x : Hashbucket) : Perm ((table.set ⟨index table.bucketCount key, slot⟩ x).entries
        (index table.bucketCount key)) (used [x] ++ rest) := by
      rw [set, entries_setBucket hi]
      exact hr' x
    rw [used_cons_some hu, ← entries_of_lt hi] at hr
    have hrest := hr' e'
    rw [used_cons_none hn] at hrest
    obtain ⟨inv', others⟩ := inv.remove (rebuilt e') (hr.trans (hrest.symm.cons e))
    refine ⟨hr.mem_iff.mpr (.head _), hk, hk ▸ inv', fun _ _ => others, fun x hx => ?_⟩
    refine ⟨(rebuilt e').symm_trans (rebuilt x), (hr' x).trans ?_⟩
    rw [used_cons_some hx]
    exact hrest.symm.cons x

end Inv

section Ops

variable (inv : Inv table h m) (hl : h.lock = false)
include inv hl

-- The copy of a key is freed with its entry.
theorem Inv.freed {place : Place} (c : Cleared table h m key place e table') (hc : HasCopy e.flags) :
    ∃ h', kfree e.hash h = .ok h' ∧ Kept (fun p => e.hash ≠ some p) h h' ∧ h'.lock = false ∧
      Inv table' h' (update m key none) := by
  cases hp : e.hash
  case none   => exact absurd hp (hash_ne_none c.mem)
  case some p =>
    have ⟨_, ho⟩ := inv.owned c.mem p hp
    have ⟨hb, hi⟩ := ho hc
    have k := (kept_free (h := h) (p := p))
    refine ⟨_, kfree_ok hl hb hi, ⟨k.next, k.mem, fun hq hne => k.blocks hq fun he => hne (he ▸ rfl)⟩, hl, ?_⟩
    refine c.inv.keep k fun i e' he' hc' q hq hqp => ?_
    have ⟨he', hne⟩ := c.others i e' he'
    exact hne (inv.unique he' c.mem hc' hc (by rw [hq, hp, hqp]))

variable (hkey : readKey (h.mem hash) bytes = key)
include hkey

theorem Inv.remove_spec
    (hf : Findable h.mem key (table.buckets (index table.bucketCount key))) :
    ∃ table' h', hashtableRemove table hash bytes h = .ok (table', h') ∧
      Inv table' h' (update m key none) := by
  have hi := index_lt inv.count key
  have ⟨r, hr, hs⟩ := findKey_spec hkey (inv.heads _ hi) hf
  rw [hashtableRemove, hr]
  cases r
  case none =>
    cases hs
    case absent ha =>
      refine ⟨table, h, rfl, ?_⟩
      have hm := inv.represents.eq_none (k := key) (entries_of_lt hi ▸ ha)
      rwa [Function.update_eq_self_iff.mpr hm.symm]
  case some r =>
    have ⟨place, e⟩ := r
    have c : Cleared table h m key place e (table.set place { e with hash := none, data := 0 }) :=
      inv.cleared hs rfl
    by_cases hc : HasCopy e.flags
    case pos =>
      have ⟨h', hfree, _, _, inv'⟩ := inv.freed hl c hc
      refine ⟨_, h', ?_, inv'⟩
      simp [hc, hfree, bind, Except.bind]
      rfl
    case neg =>
      refine ⟨_, h, ?_, c.inv⟩
      simp [hc, bind, Except.bind]
      rfl

end Ops

-- The heap copies the key in full.
structure Copyable (memcpy : Memcpy) (h : Kmalloc.Heap) (hash : Ptr) (bytes : Nat) : Prop where
  pos    : 0 < bytes
  lt     : bytes < maxRequest
  copies : Copies memcpy (setRedzone (h.mem h.next) bytes) (h.mem hash) bytes

-- What an entry with the flags needs from the memory at `p`.
structure Stored (h : Kmalloc.Heap) (flags : BitVec 8) (bytes : Nat) (key : Key) (p : Ptr) : Prop where
  next : p < h.next
  copy : HasCopy flags → h.blocks p = some bytes ∧ Intact (h.mem p) bytes
  key  : readKey (h.mem p) bytes = key

theorem Stored.owned (s : Stored h flags bytes key p) : Owned h ⟨some p, bytes, flags, data⟩ := by
  intro q hq
  cases hq
  exact ⟨s.next, s.copy⟩

theorem copyKey_spec (flags : BitVec 8) (hl : h.lock = false) (hc : Copyable memcpy h hash bytes)
    (hn : hash < h.next) (hkey : readKey (h.mem hash) bytes = key) :
    ∃ h', copyKey memcpy hash bytes h = .ok (some h.next, h') ∧ Kept P h h' ∧ h'.lock = false ∧
      Stored h' flags bytes key h.next := by
  let h₁ := h.grow bytes
  have hdest : h₁.mem h.next = setRedzone (h.mem h.next) bytes := update_self ..
  have hsrc : h₁.mem hash = h.mem hash := h.kept_grow (P := P).mem hn
  have hb : h₁.blocks h.next = some bytes := update_self ..
  refine ⟨{ h₁ with mem := update h₁.mem h.next (memcpy (h₁.mem h.next) (h₁.mem hash) bytes) }, ?_, ?_,
    hl, ⟨Nat.lt_succ_self _, fun _ => ⟨hb, ?_⟩, ?_⟩⟩
  · rw [copyKey, kmalloc_ok hl hc.pos hc.lt]
    rfl
  · have k : Kept P h h₁ := h.kept_grow
    exact ⟨k.next, fun hp => (update_of_ne (Nat.ne_of_lt hp) _ _).trans (k.mem hp), k.blocks⟩
  · simp only [update_self, hdest, hsrc]
    exact hc.copies.intact intact_setRedzone
  · rw [← hkey, readKey_inj]
    refine ⟨rfl, fun i hi => ?_⟩
    simp only [update_self, hdest, hsrc]
    rw [hc.copies i (by omega), if_pos hi]

section Ops

variable (inv : Inv table h m) (hl : h.lock = false) (hkey : readKey (h.mem hash) bytes = key)
variable (hn : hash < h.next)
include inv hl hkey hn

theorem Inv.updateHash_spec {place : Place} (c : Cleared table h m key place e table')
    (hc : ¬HasCopy e.flags → HasCopy flags → Copyable memcpy h hash bytes) :
    ∃ p h', updateHash memcpy e hash bytes flags h = .ok (some p, h') ∧
      Inv table' h' (update m key none) ∧ Stored h' flags bytes key p ∧
      (HasCopy flags → ∀ i, ∀ e' ∈ table'.entries i, HasCopy e'.flags → e'.hash ≠ some p) := by
  have fresh : ∀ i, ∀ e' ∈ table'.entries i, e'.hash ≠ some h.next := by
    intro i e' he' hp
    have ⟨hlt, _⟩ := c.inv.owned he' _ hp
    exact Nat.lt_irrefl _ hlt
  cases hp : e.hash
  case none => exact absurd hp (hash_ne_none c.mem)
  case some p =>
    have ⟨hlt, ho⟩ := inv.owned c.mem p hp
    have hread : readKey (h.mem p) e.hashLen = key := by rw [← keyOf_some hp, c.holds]
    have hlen : e.hashLen = bytes := (readKey_inj.mp (hread.trans hkey.symm)).left
    rw [hlen] at hread ho
    by_cases hce : HasCopy e.flags
    case pos =>
      by_cases hcf : HasCopy flags
      case pos =>
        have ⟨hb, hi⟩ := ho hce
        have k : Kept (fun _ => True) h { h with lock := true } := ⟨Nat.le_refl _, fun _ => rfl, fun _ _ => rfl⟩
        refine ⟨p, _, ?_, c.inv.keep k (fun _ _ _ _ _ _ => trivial), ⟨hlt, fun _ => ho hce, hread⟩, ?_⟩
        · rw [updateHash, if_pos hce, if_pos hcf, hp, krealloc_same hl hb hi]
        · intro _ i e' he' hc' hp'
          have ⟨he', hne⟩ := c.others i e' he'
          exact hne (inv.unique he' c.mem hc' hce (hp'.trans hp.symm))
      case neg =>
        have ⟨h', hfree, k, _, inv'⟩ := inv.freed hl c hce
        refine ⟨hash, h', ?_, inv', ⟨Nat.lt_of_lt_of_le hn k.next, fun h => absurd h hcf, ?_⟩, fun h => absurd h hcf⟩
        · rw [updateHash, if_pos hce, if_neg hcf, hfree]
          rfl
        · rw [k.mem hn, hkey]
    case neg =>
      by_cases hcf : HasCopy flags
      case pos =>
        have ⟨h', hcopy, k, _, hs⟩ := copyKey_spec (P := fun _ => True) flags hl (hc hce hcf) hn hkey
        refine ⟨h.next, h', ?_, c.inv.keep k (fun _ _ _ _ _ _ => trivial), hs, fun _ i e' he' _ => fresh i e' he'⟩
        rw [updateHash, if_neg hce, if_pos hcf, hcopy]
      case neg =>
        refine ⟨p, h, ?_, c.inv, ⟨hlt, fun h => absurd h hcf, hread⟩, fun h => absurd h hcf⟩
        rw [updateHash, if_neg hce, if_neg hcf, hp]

theorem Inv.update_spec (data : Word)
    (hf : Findable h.mem key (table.buckets (index table.bucketCount key)))
    (hc : ∀ i, ∀ e ∈ table.entries i, keyOf h.mem e = key → ¬HasCopy e.flags → HasCopy flags →
      Copyable memcpy h hash bytes) :
    ∃ table' h', hashtableUpdate memcpy table data hash bytes flags h =
        .ok ((m key).isSome, table', h') ∧
      Inv table' h' (if (m key).isSome then update m key (some data) else m) := by
  have hi := index_lt inv.count key
  have ⟨r, hr, hs⟩ := findKey_spec hkey (inv.heads _ hi) hf
  rw [hashtableUpdate, hr]
  cases r
  case none =>
    cases hs
    case absent ha =>
      have hm := inv.represents.eq_none (k := key) (entries_of_lt hi ▸ ha)
      rw [hm]
      exact ⟨table, h, rfl, inv⟩
  case some r =>
    have ⟨place, e⟩ := r
    have c : Cleared table h m key place e (table.set place { e with hash := none }) :=
      inv.cleared hs rfl
    have hm : m key = some e.data := by rw [← c.holds, inv.represents.get c.mem]
    have ⟨p, h', hu, inv', hst, hne⟩ :=
      inv.updateHash_spec hl hkey hn c (hc _ _ c.mem c.holds)
    have ⟨r, hp⟩ := c.refill ⟨some p, bytes, flags, data⟩ (fun h => nomatch h)
    have hk : keyOf h'.mem ⟨some p, bytes, flags, data⟩ = key := by rw [keyOf_some rfl, hst.key]
    have hplace : index table.bucketCount key = place.ent := by
      rw [← c.holds, inv.represents.place c.mem]
    have hins := inv'.insert r hp (by rw [hk]; exact hplace) (by rw [hk, update_self]) hst.owned
      fun hc i e' he' hc' => hne hc i e' he' hc'
    rw [hk, Function.update_idem] at hins
    rw [hm]
    refine ⟨_, h', ?_, hins⟩
    simp only [bind, Except.bind, hu]
    rfl

end Ops

section Insert

-- A node that is used again is the last one of its chain with an entry behind it.
def Reusable : List (Ptr × Hashbucket) → Prop
  | (_, test) :: next :: chain =>
    if test.hash = none then ∀ n ∈ next :: chain, n.snd.hash = none else Reusable (next :: chain)
  | _ => True

variable {chain chain' : List (Ptr × Hashbucket)}

theorem used_eq_nil {l : List Hashbucket} (hn : ∀ e ∈ l, e.hash = none) : used l = [] := by
  refine List.eq_nil_iff_forall_not_mem.mpr fun e he => ?_
  have ⟨he, hu⟩ := mem_used.mp he
  exact hu (hn e he)

theorem reuseNode_perm (he : e.hash ≠ none) (hu : Reusable chain)
    (hr : reuseNode e chain = some chain') :
    Perm (used (chain'.map Prod.snd)) (e :: used (chain.map Prod.snd)) := by
  induction chain generalizing chain'
  case nil => cases hr
  case cons n chain hi =>
    cases chain
    case nil => cases hr
    case cons next chain =>
      rw [reuseNode] at hr
      split at hr
      case isTrue hn =>
        cases hr
        rw [Reusable, if_pos hn] at hu
        have hnil : used ((next :: chain).map Prod.snd) = [] := by
          refine used_eq_nil fun e he => ?_
          have ⟨n, hm, he⟩ := List.mem_map.mp he
          exact he ▸ hu n hm
        rw [List.map_cons, List.map_cons, used_cons_none hn, hnil, used_cons_some he]
        rfl
      case isFalse hn =>
        rw [Reusable, if_neg hn] at hu
        have ⟨rest, hr', he'⟩ := Option.map_eq_some_iff.mp hr
        subst he'
        rw [List.map_cons, List.map_cons, used_cons_some hn, used_cons_some hn]
        exact ((hi hu hr').cons n.snd).trans (.swap ..)

theorem used_concat_perm {node : Ptr} (he : e.hash ≠ none) :
    Perm (used ((chain ++ [(node, e)]).map Prod.snd)) (e :: used (chain.map Prod.snd)) := by
  have hs : used [e] = [e] := used_cons_some he
  rw [List.map_append, used, List.filter_append]
  exact List.perm_append_comm.trans (.of_eq (congrArg (· ++ _) hs))

theorem appendNode_spec (e : Hashbucket) (chain : List (Ptr × Hashbucket)) (hl : h.lock = false) :
    ∃ node h', appendNode e chain h = .ok (chain ++ [(node, e)], h') ∧
      Kept (fun _ => True) h h' := by
  refine ⟨h.next, h.grow sizeofHashbucket, ?_, h.kept_grow⟩
  rw [appendNode, kmalloc_ok hl (by decide) (by decide)]
  rfl

theorem copyHash_spec (hl : h.lock = false) (hkey : readKey (h.mem hash) bytes = key)
    (hn : hash < h.next) (hc : HasCopy flags → Copyable memcpy h hash bytes) :
    ∃ p h', copyHash memcpy hash bytes flags h = .ok (some p, h') ∧ Kept (fun _ => True) h h' ∧
      h'.lock = false ∧ Stored h' flags bytes key p ∧ (HasCopy flags → h.next ≤ p) := by
  rw [copyHash]
  by_cases hcf : HasCopy flags
  case pos =>
    have ⟨h', hcopy, k, hl', hs⟩ := copyKey_spec (P := fun _ => True) flags hl (hc hcf) hn hkey
    exact ⟨h.next, h', by rw [if_pos hcf, hcopy], k, hl', hs, fun _ => Nat.le_refl _⟩
  case neg =>
    have absurd {Q : Prop} (h : HasCopy flags) : Q := absurd h hcf
    exact ⟨hash, h, by rw [if_neg hcf], .refl _, hl, ⟨hn, absurd, hkey⟩, absurd⟩

theorem Inv.insert_spec (data : Word) (inv : Inv table h m) (hl : h.lock = false)
    (hkey : readKey (h.mem hash) bytes = key) (hn : hash < h.next) (hm : m key = none)
    (hc : HasCopy flags → Copyable memcpy h hash bytes)
    (hu : Reusable (table.buckets (index table.bucketCount key)).chain) :
    ∃ table' h', hashtableInsert memcpy table data hash bytes flags h = .ok (table', h') ∧
      Inv table' h' (update m key (some data)) := by
  have hent : hashData (h.mem hash) bytes table.bucketCount = index table.bucketCount key := by
    rw [← hkey]
    rfl
  obtain ⟨p, h₁, hthsh, k, hl₁, hst, hne⟩ := copyHash_spec hl hkey hn hc
  have inv₁ : Inv table h₁ m := inv.keep k fun _ _ _ _ _ _ => trivial
  have hi := index_lt inv.count key
  let e : Hashbucket := ⟨some p, bytes, flags, data⟩
  have he : e.hash ≠ none := Option.some_ne_none p
  have hk : keyOf h₁.mem e = key := by rw [keyOf_some rfl, hst.key]
  -- The entry goes to its bucket, in whatever node.
  have link {bucket : Bucket} (hb : bucket.head.hash = none → bucket.chain = [])
      (hp : Perm bucket.live (e :: (table.buckets (index table.bucketCount key)).live)) :
      Inv (table.setBucket (index table.bucketCount key) bucket) h₁ (update m key (some data)) := by
    have hins := inv₁.insert (setBucket_rebuilt inv.heads hb) (e := e)
      (by rwa [entries_setBucket hi, entries_of_lt hi]) (by rw [hk]) (by rw [hk, hm]) hst.owned
      fun hc i e' he' _ hp => Nat.not_le_of_lt (inv.owned he' p hp).left (hne hc)
    rwa [hk] at hins
  rw [hashtableInsert, hent, hthsh]
  simp only [bind, Except.bind]
  by_cases hh : (table.buckets (index table.bucketCount key)).head.hash = none
  case pos =>
    rw [if_pos hh]
    refine ⟨_, h₁, rfl, link (fun _ => rfl) ?_⟩
    rw [Bucket.live, Bucket.live, inv.heads _ hi hh, used_cons_none hh]
    exact .of_eq (used_cons_some he)
  case neg =>
    rw [if_neg hh]
    split
    case h_1 chain hr =>
      refine ⟨_, h₁, rfl, link (fun h => absurd h hh) ?_⟩
      rw [Bucket.live, Bucket.live, used_cons_some hh, used_cons_some hh]
      exact ((reuseNode_perm he hu hr).cons _).trans (.swap ..)
    case h_2 =>
      let bucket := table.buckets (index table.bucketCount key)
      obtain ⟨node, h₂, ha, k₂⟩ := appendNode_spec e bucket.chain hl₁
      have inv₂ : Inv (table.setBucket (index table.bucketCount key)
          ⟨bucket.head, bucket.chain ++ [(node, e)]⟩) h₁ (update m key (some data)) := by
        refine link (fun h => absurd h hh) ?_
        rw [Bucket.live, Bucket.live, used_cons_some hh, used_cons_some hh]
        exact ((used_concat_perm he).cons _).trans (.swap ..)
      rw [ha]
      exact ⟨_, h₂, rfl, inv₂.keep k₂ fun _ _ _ _ _ _ => trivial⟩

end Insert

theorem Inv.fetch_spec (inv : Inv table h m) (hkey : readKey (h.mem hash) bytes = key)
    (hf : Findable h.mem key (table.buckets (index table.bucketCount key))) :
    hashtableFetch table hash bytes h = .ok (m key) := by
  have hi := index_lt inv.count key
  have ⟨r, hr, hs⟩ := findKey_spec hkey (inv.heads _ hi) hf
  rw [hashtableFetch, hr]
  cases r
  case none =>
    cases hs
    case absent ha =>
      rw [inv.represents.eq_none (entries_of_lt hi ▸ ha)]
      rfl
  case some r =>
    have ⟨place, e⟩ := r
    have c : Cleared table h m key place e (table.set place { e with hash := none }) :=
      inv.cleared hs rfl
    rw [← c.holds, inv.represents.get c.mem]
    rfl

-- The rest of the kernel leaves the memory of the keys alone.
theorem Inv.other (inv : Inv table h m) (hn : h.next ≤ h'.next)
    (hk : ∀ i, ∀ e ∈ table.entries i, ∀ p, e.hash = some p →
      h'.mem p = h.mem p ∧ (HasCopy e.flags → h'.blocks p = h.blocks p)) :
    Inv table h' m where
  count      := inv.count
  represents := inv.represents.congr fun i e he => keyOf_congr fun p hp => (hk i e he p hp).left
  heads      := inv.heads
  owned he   := by
    intro p hp
    have ⟨hlt, ho⟩ := inv.owned he p hp
    have ⟨hm, hb⟩ := hk _ _ he p hp
    refine ⟨Nat.lt_of_lt_of_le hlt hn, fun hc => ?_⟩
    rw [hm, hb hc]
    exact ho hc
  unique     := inv.unique

def Empty (bucket : Bucket) : Prop :=
  bucket.head.hash = none ∧ bucket.chain = []

theorem inv_empty (hc : 0 < table.bucketCount)
    (he : ∀ i < table.bucketCount, Empty (table.buckets i)) : Inv table h fun _ => none := by
  have nil (i : Nat) : table.entries i = [] := by
    rw [entries]
    split
    case isTrue hi =>
      obtain ⟨hh, hc⟩ := he i hi
      rw [Bucket.live, hc, used_cons_none hh]
      rfl
    case isFalse => rfl
  have absurd {i e} {Q : Prop} (h : e ∈ table.entries i) : Q := by
    rw [nil] at h
    cases h
  refine ⟨hc, ⟨absurd, fun i => nil i ▸ .nil, ?_⟩, fun i hi _ => (he i hi).right, absurd, absurd⟩
  intro k v
  constructor
  case mp =>
    intro h
    cases h
  case mpr =>
    rintro ⟨_, he, _⟩
    exact absurd he

end RoverOS.Hashtable
