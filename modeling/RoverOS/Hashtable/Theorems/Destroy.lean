import RoverOS.Hashtable.Theorems.Release
import RoverOS.Libc.String

-- Destroying a table frees the blocks that it knows of, in some order.

open List (Perm)

namespace RoverOS.Hashtable

open Kmalloc

-- What `freeKey` and `hashtableDestroy` pass to `kfree`.
def keyFrees (e : Hashbucket) : List (Option Ptr) :=
  if HasCopy e.flags then [e.hash] else []

def Bucket.frees (bucket : Bucket) : List (Option Ptr) :=
  keyFrees bucket.head ++ bucket.chain.flatMap fun (node, key) => keyFrees key ++ [some node]

def frees (table : Hashtable) : List (Option Ptr) :=
  (List.range table.bucketCount).flatMap fun i => (table.buckets i).frees

def freeAll (ps : List (Option Ptr)) (h : Kmalloc.Heap) : Except Exit Kmalloc.Heap :=
  ps.foldlM (fun h p => kfree p h) h

variable {memcpy : Memcpy} {s s' : Own} {ops : List (Own × OwnOp)} {op : OwnOp} {ptr array p : Ptr}
variable {table : Hashtable} {h h' h₀ : Kmalloc.Heap} {e : Hashbucket} {bucket : Bucket} {r : Option Ptr}
variable {ps qs : List (Option Ptr)} {chain : List (Ptr × Hashbucket)} {i buckets : Nat}

section Frees

theorem freeAll_append : freeAll (ps ++ qs) h = freeAll ps h >>= freeAll qs :=
  List.foldlM_append

theorem freeAll_flatMap {α : Type} {l : List α} {f : α → List (Option Ptr)} :
    freeAll (l.flatMap f) h = l.foldlM (fun h x => freeAll (f x) h) h := by
  induction l generalizing h
  case nil => rfl
  case cons x l hi =>
    rw [List.flatMap_cons, freeAll_append, List.foldlM_cons]
    exact congrArg _ (funext fun _ => hi)

theorem freeHash_eq : freeHash e h = freeAll (keyFrees e) h := by
  rw [freeHash, keyFrees]
  split
  case isTrue  => simp [freeAll]
  case isFalse => rfl

theorem freeKey_eq : freeKey bucket h = freeAll bucket.frees h := by
  rw [freeKey, Bucket.frees, freeAll_append, freeHash_eq]
  refine congrArg _ (funext fun h => ?_)
  rw [freeAll_flatMap]
  congr 1
  funext h n
  dsimp only
  rw [freeAll_append, freeHash_eq]
  exact congrArg _ (funext fun h => by simp [freeAll])

theorem hashtableDestroy_eq : hashtableDestroy (some ptr) (some array) table h =
    freeAll (table.frees ++ [some array, some ptr]) h := by
  rw [hashtableDestroy, if_neg (Option.some_ne_none _), if_neg (Option.some_ne_none _), freeAll_append, frees,
    freeAll_flatMap]
  simp only [freeKey_eq]
  refine congrArg _ (funext fun h => ?_)
  simp [freeAll]

theorem fine_freed {q : Ptr} :
    Fine { h with blocks := Function.update h.blocks p none } q ↔ q ≠ p ∧ Fine h q := by
  by_cases hq : q = p
  case pos => simp [Fine, hq]
  case neg => simp [Fine, hq]

-- Every block is freed once: when it comes up again, it is no block any more.
theorem freeAll_ok_iff : freeAll ps h = .ok h' ↔
    (ps ≠ [] → h.lock = false) ∧ ps.Nodup ∧ (∀ r ∈ ps, ∃ p, r = some p ∧ Fine h p) ∧
      h' = { h with blocks := fun p => if some p ∈ ps then none else h.blocks p } := by
  induction ps generalizing h
  case nil =>
    simp only [freeAll, List.foldlM_nil, pure, Except.pure, Except.ok.injEq, List.not_mem_nil, if_false]
    exact ⟨fun he => ⟨fun hn => absurd rfl hn, .nil, fun _ hr => hr.elim, he.symm⟩, fun h => h.2.2.2.symm⟩
  case cons r ps hi =>
    have blocks {p : Ptr} : (fun q => if some q ∈ ps then none else Function.update h.blocks p none q) =
        fun q => if some q ∈ some p :: ps then none else h.blocks q := by
      funext q
      by_cases hq : q = p
      case pos => simp [hq]
      case neg => simp [hq]
    rw [freeAll, List.foldlM_cons, Except.bind_ok_iff]
    constructor
    case mp =>
      rintro ⟨h₁, hk, hf⟩
      have ⟨hl, p, sz, hr, hb, hin, hh⟩ := kfree_cases hk
      have ⟨_, hn, ha, he⟩ := hi.mp hf
      subst hh hr
      have kept {r : Option Ptr} (hr : r ∈ ps) : ∃ q, r = some q ∧ q ≠ p ∧ Fine h q := by
        have ⟨q, hq, hf⟩ := ha r hr
        exact ⟨q, hq, fine_freed.mp hf⟩
      refine ⟨fun _ => hl, List.nodup_cons.mpr ⟨fun hm => ?_, hn⟩, List.forall_mem_cons.mpr ⟨?_, fun r hr => ?_⟩, ?_⟩
      · have ⟨q, hq, hne, _⟩ := kept hm
        exact hne (Option.some.inj hq).symm
      · exact ⟨p, rfl, sz, hb, hin⟩
      · have ⟨q, hq, _, hf⟩ := kept hr
        exact ⟨q, hq, hf⟩
      · rw [he, ← blocks]
    case mpr =>
      rintro ⟨hlock, hnodup, hall, he⟩
      have hl := hlock (List.cons_ne_nil _ _)
      have ⟨⟨p, hp, sz, hb, hin⟩, ha⟩ := List.forall_mem_cons.mp hall
      subst hp
      have ⟨hr, hn⟩ := List.nodup_cons.mp hnodup
      refine ⟨_, kfree_ok hl hb hin, hi.mpr ⟨fun _ => hl, hn, fun r hm => ?_, ?_⟩⟩
      · have ⟨q, hq, hf⟩ := ha r hm
        exact ⟨q, hq, fine_freed.mpr ⟨fun he => hr (he ▸ hq ▸ hm), hf⟩⟩
      · rw [he, ← blocks]

end Frees

section Copies

theorem keyFrees_eq (hc : HasCopy e.flags → e.hash ≠ none) : keyFrees e = (keyTokens e).map some := by
  rw [keyFrees, keyTokens]
  split
  case isTrue hf =>
    obtain ⟨p, hp⟩ := Option.ne_none_iff_exists'.mp (hc hf)
    rw [hp]
    rfl
  case isFalse => rfl

theorem Bucket.frees_eq (hc : ∀ e ∈ bucket.entries, HasCopy e.flags → e.hash ≠ none) :
    bucket.frees = bucket.tokens.map some := by
  have ⟨head, chain⟩ := List.forall_mem_cons.mp hc
  rw [Bucket.frees, Bucket.tokens, List.map_append, keyFrees_eq head, chainTokens, List.map_flatMap]
  congr 1
  refine List.flatMap_congr fun n hn => ?_
  dsimp only
  rw [keyFrees_eq (chain n.snd (List.mem_map_of_mem hn)), List.map_append]
  rfl

theorem frees_eq (hc : ∀ i < table.bucketCount, ∀ e ∈ (table.buckets i).entries, HasCopy e.flags → e.hash ≠ none) :
    table.frees = table.tokens.map some := by
  rw [frees, tokens, List.map_flatMap]
  exact List.flatMap_congr fun i hi => Bucket.frees_eq (hc i (List.mem_range.mp hi))

-- Every entry that says it has a copy gives the pointer to `kfree`.
theorem mem_frees (hi : i < table.bucketCount) (he : e ∈ (table.buckets i).entries) (hc : HasCopy e.flags) :
    e.hash ∈ table.frees := by
  refine List.mem_flatMap.mpr ⟨i, List.mem_range.mpr hi, ?_⟩
  have hm : e.hash ∈ keyFrees e := by simp [keyFrees, hc]
  rcases List.mem_cons.mp he with rfl | he
  · exact List.mem_append_left _ hm
  · have ⟨n, hn, hs⟩ := List.mem_map.mp he
    subst hs
    exact List.mem_append_right _ (List.mem_flatMap.mpr ⟨n, hn, List.mem_append_left _ hm⟩)

theorem mem_tokens (hp : p ∈ table.tokens) :
    (∃ i < table.bucketCount, ∃ e ∈ (table.buckets i).entries, HasCopy e.flags ∧ e.hash = some p) ∨
      p ∈ table.nodes := by
  have ⟨i, hi, hp⟩ := List.mem_flatMap.mp hp
  rcases List.mem_append.mp hp with hp | hp
  · exact .inl ⟨i, List.mem_range.mp hi, _, List.mem_cons_self .., mem_keyTokens.mp hp⟩
  · have ⟨n, hn, hp⟩ := List.mem_flatMap.mp hp
    rcases List.mem_append.mp hp with hp | hp
    · have he : n.snd ∈ (table.buckets i).entries := .tail _ (List.mem_map_of_mem hn)
      exact .inl ⟨i, List.mem_range.mp hi, _, he, mem_keyTokens.mp hp⟩
    · refine .inr (List.mem_flatMap.mpr ⟨i, hi, ?_⟩)
      rw [List.mem_singleton.mp hp]
      exact List.mem_map_of_mem hn

end Copies

section Release

theorem Destroyable.frees_eq (hd : Destroyable s) :
    s.table.frees ++ [some array, some ptr] = (s.table.tokens ++ [array, ptr]).map some := by
  have copied : ∀ i < s.table.bucketCount, ∀ e ∈ (s.table.buckets i).entries, HasCopy e.flags → e.hash ≠ none := by
    intro i hi e he hc
    have ⟨q, hq, _⟩ := hd.copies i hi e he hc
    exact hq ▸ Option.some_ne_none q
  rw [Hashtable.frees_eq copied, List.map_append]
  rfl

-- `hashtableDestroy` could only return with an intact copy behind each entry that says it has one.
theorem exact_of_released (hr : Released ptr array s) : (s.account ptr array).Exact ∧ Destroyable s := by
  have ⟨h, hd, ht, _⟩ := hr
  rw [hashtableDestroy_eq] at hd
  have ⟨hl, _, ha, hh⟩ := freeAll_ok_iff.mp hd
  have destroyable : Destroyable s :=
    ⟨hl (by simp), fun i hi e he hc => ha _ (List.mem_append_left _ (mem_frees hi he hc))⟩
  refine ⟨fun p hp => ?_, destroyable⟩
  have hn := ht p hp.left
  rw [hh, destroyable.frees_eq] at hn
  dsimp only at hn
  split at hn
  case isTrue hm =>
    have ⟨q, hq, he⟩ := List.mem_map.mp hm
    cases he
    exact hq
  case isFalse => exact absurd hn hp.right

variable (k : Keeps ptr array s)
include k

theorem Keeps.fine_held (hd : Destroyable s) (hp : p ∈ s.table.tokens ++ [array, ptr]) : Fine s.heap p := by
  rcases List.mem_append.mp hp with hp | hp
  · rcases mem_tokens hp with ⟨i, hi, e, he, hc, hh⟩ | hn
    · have ⟨q, hq, hf⟩ := hd.copies i hi e he hc
      cases hh.symm.trans hq
      exact hf
    · exact k.fine p (.inl hn)
  · exact k.fine p (.inr (by simpa using hp))

theorem Keeps.released_of_exact (hx : (s.account ptr array).Exact) (hd : Destroyable s) : Released ptr array s := by
  have he : s.table.frees ++ [some array, some ptr] = (s.table.tokens ++ [array, ptr]).map some := hd.frees_eq
  have mem {p : Ptr} : some p ∈ s.table.frees ++ [some array, some ptr] ↔ p ∈ s.table.tokens ++ [array, ptr] := by
    rw [he]
    exact List.mem_map_of_injective (Option.some_injective _)
  refine ⟨_, hashtableDestroy_eq.trans (freeAll_ok_iff.mpr ⟨fun _ => hd.lock, ?_, fun r hr => ?_, rfl⟩),
    fun p hp => ?_, fun p hp => if_neg fun hm => hp ?_⟩
  · rw [he]
    exact k.valid.nodup.map (Option.some_injective _)
  · rw [he] at hr
    have ⟨p, hp, hr⟩ := List.mem_map.mp hr
    exact ⟨p, hr.symm, k.fine_held hd hp⟩
  · dsimp only
    split
    case isTrue     => rfl
    case isFalse hm =>
      by_contra hb
      exact hm (mem.mpr (hx p ⟨hp, hb⟩))
  · exact k.valid.taken p (k.valid.live p (mem.mp hm))

theorem Keeps.released_iff_exact : Released ptr array s ↔ (s.account ptr array).Exact ∧ Destroyable s :=
  ⟨exact_of_released, fun h => k.released_of_exact h.left h.right⟩

end Release

section Run

variable {leftover : Bytes → Nat → Bucket}

theorem create_cases (hc : hashtableCreate leftover buckets h₀ = .ok ((ptr, array, table), h)) :
    0 < table.bucketCount ∧ ptr = h₀.next ∧ array = h₀.next + 1 ∧ h.next = h₀.next + 2 ∧
      Fine h ptr ∧ Fine h array := by
  have ⟨⟨t, h₁⟩, h₁k, hc⟩ := Except.bind_ok_iff.mp hc
  cases t
  case none => cases hc
  case some t =>
    have ⟨⟨a, h₂⟩, h₂k, hc⟩ := Except.bind_ok_iff.mp hc
    cases a
    case none => cases hc
    case some a =>
      rcases kmalloc_cases h₁k with ⟨_, hz, _⟩ | ⟨ht, hg₁⟩
      · cases hz
      rcases kmalloc_cases h₂k with ⟨_, _, hn, _⟩ | ⟨ha, hg₂⟩
      · cases hn
      cases hc
      have hn : h₀.next < h₁.next := by
        rw [hg₁.next]
        exact Nat.lt_succ_self _
      have hp := Option.some.inj ht
      have f₁ := (kmalloc_spares h₁k).right ptr rfl
      have f₂ := (kmalloc_spares h₂k).right array rfl
      have f₃ := (kmalloc_spares h₂k).left.fine (hp ▸ hn) id f₁
      refine ⟨Nat.pos_of_mul_pos_left hg₂.pos, hp, ?_, ?_, f₃, f₂⟩
      · rw [Option.some.inj ha, hg₁.next]
      · rw [hg₂.next, hg₁.next]

-- A new table, and the two blocks that it has been made of.
def Own.created (h₀ : Kmalloc.Heap) (table : Hashtable) (h : Kmalloc.Heap) : Own where
  table := table
  heap  := h
  taken := Set.Ico h₀.next h.next

variable (hc : hashtableCreate leftover buckets h₀ = .ok ((ptr, array, table), h))
variable (he : ∀ i < table.bucketCount, Empty (table.buckets i))
include hc he

theorem keeps_created :
    Keeps ptr array (Own.created h₀ table h) ∧ ((Own.created h₀ table h).account ptr array).Exact := by
  obtain ⟨hcount, hp, ha, hn, fp, fa⟩ := create_cases hc
  have mem (q : Ptr) : q ∈ Set.Ico h₀.next h.next ↔ q = array ∨ q = ptr := by
    rw [Set.mem_Ico, hn, hp, ha]
    unfold Ptr at *
    omega
  have held : ((Own.created h₀ table h).account ptr array).held = [array, ptr] := by
    rw [Own.account, Hashtable.account, Own.created, tokens_empty he]
    rfl
  have fine {q : Ptr} (hq : q = array ∨ q = ptr) : Fine h q :=
    hq.elim (fun hq => hq ▸ fa) fun hq => hq ▸ fp
  refine ⟨⟨hcount, fun i hi _ => (he i hi).right, ⟨?nodup, fun q hq => ?live, fun q hq => hq.left⟩,
    fun q hq => hq.right, fun q hq => fine (hq.resolve_left fun hq => ?fine)⟩, fun q hq => ?exact⟩
  case nodup =>
    rw [held, hp, ha]
    simp
  case live =>
    rw [held] at hq
    have hq : q = array ∨ q = ptr := by simpa using hq
    obtain ⟨sz, hb, _⟩ := fine hq
    exact ⟨(mem q).mpr hq, fun hn => by cases hb.symm.trans hn⟩
  case fine =>
    have hm : q ∈ table.tokens := nodes_sub hq
    rw [tokens_empty he] at hm
    cases hm
  case exact =>
    rw [held]
    simpa using (mem q).mp hq.left

-- Destroying a table gives back all that its calls have taken exactly when none of them has put an entry
-- into a node in the middle of a chain.
theorem released_iff (hs : History (OwnStep memcpy) (Own.created h₀ table h) ops s) :
    Released ptr array s ↔ (∀ x ∈ ops, ¬Cuts x.fst x.snd) ∧ Destroyable s := by
  have ⟨init, exact⟩ := keeps_created hc he
  have k : Keeps ptr array s := hs.invariant init fun k hs => (k.step hs).left
  have hx : (s.account ptr array).Exact ↔
      ((Own.created h₀ table h).account ptr array).Exact ∧ ∀ x ∈ ops, ¬Cuts x.fst x.snd := by
    refine hs.iff_forall (fun s => (s.account ptr array).Exact) Cuts init (fun k hs => (k.step hs).left) fun k hs => ?_
    have ⟨_, ⟨lost, hl, hm⟩, _⟩ := k.step hs
    rw [Ledger.exact_moves k.valid hm, hl]
  rw [k.released_iff_exact, hx, and_iff_right exact]

-- No call of the table frees or resizes a block that it has not taken.
theorem calls_spare_others (hs : History (OwnStep memcpy) (Own.created h₀ table h) ops s)
    (hop : ∀ h, op ≠ .other h) (hstep : OwnStep memcpy s op s') (hp : p ∉ s.taken) (hlt : p < s.heap.next) :
    s'.heap.blocks p = s.heap.blocks p := by
  obtain ⟨init, _⟩ := keeps_created hc he
  have k : Keeps ptr array s := hs.invariant init fun k hs => (k.step hs).left
  obtain ⟨_, _, hsp⟩ := k.step hstep
  exact (hsp hop).blocks hlt hp

end Run

section Example

-- A table of one bucket at 5 with its bucket at 6, a key that nobody has copied, and a copy at 7 of
-- another one, in the node at 8.
def blankBucket (_ : Bytes) (_ : Nat) : Bucket :=
  emptyTable.buckets 0

def createdHeap : Kmalloc.Heap :=
  (fourKeys.grow sizeofHashtable).grow sizeofHashbucket

def copiedHeap : Kmalloc.Heap :=
  let h := createdHeap.grow 1
  { h with mem := Function.update h.mem 7 (copyBytes (h.mem 7) (h.mem 2) 1) }

def ownCreated : Own :=
  .created fourKeys emptyTable createdHeap

def ownFirst : Own :=
  ownCreated.after (chainOf []) createdHeap

def ownSecond : Own :=
  ownFirst.after (ownFirst.table.setBucket 0 ⟨⟨some 1, 1, 0, 10⟩, [(8, ⟨some 7, 1, flagCopy, 20⟩)]⟩)
    (copiedHeap.grow sizeofHashbucket)

theorem create_emptyTable : hashtableCreate blankBucket 1 fourKeys = .ok ((5, 6, emptyTable), createdHeap) :=
  rfl

theorem insert_first : OwnStep copyBytes ownCreated (.insert 10 1 1 0) ownFirst :=
  .insert rfl

theorem insert_second : OwnStep copyBytes ownFirst (.insert 20 2 1 flagCopy) ownSecond :=
  .insert rfl

theorem released_iff_twoKeys : Released 5 6 ownSecond := by
  have hs : History (OwnStep copyBytes) ownCreated
      ([] ++ [(ownCreated, .insert 10 1 1 0)] ++ [(ownFirst, .insert 20 2 1 flagCopy)]) ownSecond :=
    .snoc (.snoc (.nil _) insert_first) insert_second
  have start (op : OwnOp) : ¬Cuts ownCreated op := by
    cases op
    case insert => exact fun hc => hc.left rfl
    all_goals exact id
  have first : ¬Cuts ownFirst (.insert 20 2 1 flagCopy) := by
    rintro ⟨_, front, node, next, back, hs, _⟩
    have hn : [] = front ++ node :: next :: back := hs
    simp at hn
  refine (released_iff create_emptyTable empty_emptyTable hs).mpr ⟨?_, rfl, ?_⟩
  · simp only [List.nil_append, List.forall_mem_append, List.forall_mem_singleton]
    exact ⟨start _, first⟩
  · intro i hi e he hc
    have hi : i = 0 := Nat.lt_one_iff.mp hi
    subst hi
    rcases List.mem_cons.mp he with rfl | he
    · exact absurd rfl hc
    · rw [List.mem_singleton.mp he]
      exact ⟨7, rfl, 1, rfl, by decide⟩

-- The key at 2 is not the table's.
theorem calls_spare_others_twoKeys : ownSecond.heap.blocks 2 = ownFirst.heap.blocks 2 := by
  refine calls_spare_others create_emptyTable empty_emptyTable (.snoc (.nil _) insert_first)
    (fun _ => OwnOp.noConfusion) insert_second ?_ (by decide)
  rintro (h | h)
  · exact absurd h.left (by decide)
  · exact absurd h.left (by decide)

end Example

end RoverOS.Hashtable
