import RoverOS.Hashtable.Basic
import RoverOS.Library.Buckets

-- The live entries of a bucket, and when `findKey` finds the right one.

open List (Perm)

namespace RoverOS.Hashtable

open Kmalloc

abbrev Key := List (BitVec 8)

def index (count : Nat) (key : Key) : Nat :=
  (djb2 key).toNat % count

def keyOf (mem : Ptr → Bytes) (e : Hashbucket) : Key :=
  (e.hash.map fun p => readKey (mem p) e.hashLen).getD []

def used (entries : List Hashbucket) : List Hashbucket :=
  entries.filter (·.hash.isSome)

def Bucket.live (bucket : Bucket) : List Hashbucket :=
  used (bucket.head :: bucket.chain.map Prod.snd)

def Bucket.Has (bucket : Bucket) (e : Hashbucket) : Slot → Prop
  | .head   => bucket.head = e
  | .node i => ∃ node, bucket.chain[i]? = some (node, e)

-- No unused node with the length of the key comes before the node of the key.
def Clear (mem : Ptr → Bytes) (key : Key) : List (Ptr × Hashbucket) → Prop
  | []                 => True
  | (_, test) :: chain =>
    (test.hash = none → test.hashLen ≠ key.length) ∧
      ((test.hash ≠ none ∧ keyOf mem test = key) ∨ Clear mem key chain)

instance Clear.decide (mem : Ptr → Bytes) (key : Key) : ∀ chain, Decidable (Clear mem key chain)
  | []                 => .isTrue trivial
  | (_, test) :: chain =>
    have : Decidable (Clear mem key chain) := Clear.decide mem key chain
    inferInstanceAs (Decidable ((test.hash = none → test.hashLen ≠ key.length) ∧
      ((test.hash ≠ none ∧ keyOf mem test = key) ∨ Clear mem key chain)))

-- An entry without a chain is taken for the key without a look at it, and with a chain it is not
-- looked at either.
def Findable (mem : Ptr → Bytes) (key : Key) (bucket : Bucket) : Prop :=
  bucket.head.hash = none ∨
    (bucket.chain = [] ∧ keyOf mem bucket.head = key) ∨
    (bucket.chain ≠ [] ∧ keyOf mem bucket.head ≠ key ∧ key.length < 2 ^ 32 ∧
      Clear mem key bucket.chain)

instance (mem : Ptr → Bytes) (key : Key) (bucket : Bucket) : Decidable (Findable mem key bucket) :=
  have : Decidable (bucket.chain = []) := decidable_of_iff _ List.isEmpty_iff
  inferInstanceAs (Decidable (_ ∨ _ ∨ (_ ∧ _ ∧ _ ∧ _)))

-- What a search for a key finds in a chain.
inductive Search (mem : Ptr → Bytes) (key : Key) (chain : List (Ptr × Hashbucket)) :
    Option (Nat × Hashbucket) → Prop
  | absent : (∀ n ∈ chain, n.snd.hash ≠ none → keyOf mem n.snd ≠ key) → Search mem key chain none
  | found {i : Nat} {node : Ptr} {e : Hashbucket} :
    chain[i]? = some (node, e) → e.hash ≠ none → keyOf mem e = key →
    Search mem key chain (some (i, e))

variable {mem : Ptr → Bytes} {hash : Bytes} {bytes : Nat} {e e' test : Hashbucket} {p : Ptr}
variable {chain : List (Ptr × Hashbucket)} {bucket : Bucket} {slot : Slot}

@[simp]
theorem readKey_length {b : Bytes} {n : Nat} : (readKey b n).length = n := by
  simp [readKey]

theorem readKey_inj {b c : Bytes} {n k : Nat} :
    readKey b n = readKey c k ↔ n = k ∧ ∀ i < n, b i = c i := by
  constructor
  case mp =>
    intro h
    have hn : n = k := by simpa using congrArg List.length h
    subst hn
    exact ⟨rfl, by simpa [readKey] using h⟩
  case mpr =>
    intro ⟨hn, h⟩
    subst hn
    simpa [readKey] using h

theorem keyOf_some (h : e.hash = some p) : keyOf mem e = readKey (mem p) e.hashLen := by
  simp [keyOf, h]

theorem keyOf_congr {mem' : Ptr → Bytes} (h : ∀ p, e.hash = some p → mem' p = mem p) :
    keyOf mem' e = keyOf mem e := by
  cases he : e.hash
  case none   => simp [keyOf, he]
  case some p => rw [keyOf_some he, keyOf_some he, h p he]

theorem matchKey_eq (hb : bytes < 2 ^ 32) (hc : test.hash = none → test.hashLen ≠ bytes) :
    matchKey mem hash bytes test =
      .ok (decide (test.hash ≠ none ∧ keyOf mem test = readKey hash bytes)) := by
  cases hp : test.hash
  case none => simp [matchKey, hc hp]
  case some p =>
    by_cases hl : test.hashLen = bytes
    case neg => simp [matchKey, hl, keyOf_some hp, readKey_inj]
    case pos =>
      have hk : keyOf mem test = readKey hash bytes ↔ ∀ i < bytes, hash i = mem p i := by
        rw [keyOf_some hp, readKey_inj, hl]
        simp only [true_and, eq_comm]
      simp only [matchKey, hl, hp, ne_eq, not_true_eq_false, if_false, if_pos hb, Nat.min_eq_left (Nat.le_of_lt hb)]
      split
      case isTrue h  => simp [hk.mpr h]
      case isFalse h => simp [mt hk.mp h]

theorem searchChain_spec (hb : bytes < 2 ^ 32) (hc : Clear mem (readKey hash bytes) chain) :
    ∃ key, searchChain mem hash bytes chain = .ok key ∧ Search mem (readKey hash bytes) chain key := by
  induction chain
  case nil => exact ⟨none, rfl, .absent fun _ h => absurd h List.not_mem_nil⟩
  case cons n chain hi =>
    obtain ⟨node, test⟩ := n
    obtain ⟨hu, hc⟩ := hc
    rw [readKey_length] at hu
    rw [searchChain, matchKey_eq hb hu]
    by_cases hm : test.hash ≠ none ∧ keyOf mem test = readKey hash bytes
    case pos =>
      refine ⟨some (0, test), ?_, .found rfl hm.left hm.right⟩
      simp [hm]
      rfl
    case neg =>
      obtain ⟨key, hs, hk⟩ := hi (hc.resolve_left hm)
      refine ⟨key.map (Prod.map (· + 1) id), ?_, ?_⟩
      · rw [hs, decide_eq_false hm]
        rfl
      · cases hk
        case absent ha =>
          refine .absent fun n hn => ?_
          cases hn
          case head    => exact fun hn hk => hm ⟨hn, hk⟩
          case tail hn => exact ha n hn
        case found hi hn hk => exact .found hi hn hk

@[simp]
theorem used_cons_some (h : e.hash ≠ none) {l : List Hashbucket} : used (e :: l) = e :: used l := by
  rw [used, List.filter_cons_of_pos (by simpa [Option.isSome_iff_ne_none] using h), used]

@[simp]
theorem used_cons_none (h : e.hash = none) {l : List Hashbucket} : used (e :: l) = used l := by
  rw [used, List.filter_cons_of_neg (by simp [h]), used]

theorem mem_used {l : List Hashbucket} : e ∈ used l ↔ e ∈ l ∧ e.hash ≠ none := by
  simp [used, Option.isSome_iff_ne_none]

theorem used_cons_perm {l rest : List Hashbucket} (h : Perm (used l) (used [e'] ++ rest)) :
    Perm (used (e :: l)) (used [e'] ++ (used [e] ++ rest)) := by
  have hs : used (e :: l) = used [e] ++ used l := by
    rw [used, used, used, ← List.filter_append, List.singleton_append]
  rw [hs]
  refine (h.append_left _).trans ?_
  simpa using List.perm_append_comm.append_right rest

theorem used_modify_perm {i : Nat} {node : Ptr} (h : chain[i]? = some (node, e)) :
    ∃ rest, Perm (used (chain.map Prod.snd)) (used [e] ++ rest) ∧
      ∀ e', Perm (used ((chain.modify i fun (node, _) => (node, e')).map Prod.snd))
        (used [e'] ++ rest) := by
  induction chain generalizing i
  case nil => cases h
  case cons n chain hi =>
    cases i
    case zero =>
      cases h
      refine ⟨used (chain.map Prod.snd), ?_, fun e' => ?_⟩ <;> simp [used, ← List.filter_append]
    case succ i =>
      have ⟨rest, hr, hr'⟩ := hi h
      exact ⟨used [n.snd] ++ rest, used_cons_perm hr, fun e' => used_cons_perm (hr' e')⟩

-- Writing an entry to a slot replaces one entry.
theorem Bucket.Has.live_perm (h : bucket.Has e slot) :
    ∃ rest, Perm bucket.live (used [e] ++ rest) ∧
      ∀ e', Perm (bucket.set e' slot).live (used [e'] ++ rest) := by
  cases slot
  case head =>
    have h : bucket.head = e := h
    refine ⟨used (bucket.chain.map Prod.snd), ?_, fun e' => ?_⟩ <;>
      simp [Bucket.live, Bucket.set, used, h, ← List.filter_append]
  case node i =>
    have ⟨node, h⟩ := h
    have ⟨rest, hr, hr'⟩ := used_modify_perm h
    exact ⟨used [bucket.head] ++ rest, used_cons_perm hr, fun e' => used_cons_perm (hr' e')⟩

-- The bucket of a key, and its entry there.
inductive Finds (table : Hashtable) (mem : Ptr → Bytes) (key : Key) :
    Option (Place × Hashbucket) → Prop
  | absent : (∀ e ∈ (table.buckets (index table.bucketCount key)).live, keyOf mem e ≠ key) →
    Finds table mem key none
  | found {slot : Slot} {e : Hashbucket} :
    (table.buckets (index table.bucketCount key)).Has e slot →
    (slot = .head → (table.buckets (index table.bucketCount key)).chain = []) →
    e.hash ≠ none → keyOf mem e = key →
    Finds table mem key (some (⟨index table.bucketCount key, slot⟩, e))

theorem Search.finds {table : Hashtable} {key : Key} {r : Option (Nat × Hashbucket)}
    (hn : keyOf mem (table.buckets (index table.bucketCount key)).head ≠ key)
    (h : Search mem key (table.buckets (index table.bucketCount key)).chain r) :
    Finds table mem key (r.map fun (i, e) => (⟨index table.bucketCount key, .node i⟩, e)) := by
  cases h
  case absent ha =>
    refine .absent fun e he => ?_
    have ⟨he, hu⟩ := mem_used.mp he
    cases he
    case head => exact hn
    case tail he =>
      have ⟨n, hn, he⟩ := List.mem_map.mp he
      subst he
      exact ha n hn hu
  case found hi hu hk => exact .found ⟨_, hi⟩ (fun h => nomatch h) hu hk

-- Where it is findable, a key is found exactly when the bucket has it.
theorem findKey_spec {table : Hashtable} {hash : Ptr} {h : Kmalloc.Heap} {key : Key}
    (hkey : readKey (h.mem hash) bytes = key)
    (hh : (table.buckets (index table.bucketCount key)).head.hash = none →
      (table.buckets (index table.bucketCount key)).chain = [])
    (hf : Findable h.mem key (table.buckets (index table.bucketCount key))) :
    ∃ r, findKey table hash bytes h = .ok r ∧ Finds table h.mem key r := by
  subst hkey
  have hent : hashData (h.mem hash) bytes table.bucketCount =
      index table.bucketCount (readKey (h.mem hash) bytes) := rfl
  rw [findKey, hent]
  by_cases hn : (table.buckets (index table.bucketCount (readKey (h.mem hash) bytes))).head.hash = none
  case pos =>
    refine ⟨none, by simp [hn], .absent fun e he => ?_⟩
    have ⟨he, hu⟩ := mem_used.mp he
    rw [hh hn] at he
    exact absurd (List.mem_singleton.mp he ▸ hn) hu
  case neg =>
    dsimp only
    rw [if_neg hn]
    cases hf.resolve_left hn
    case inl hf =>
      rw [hf.left]
      exact ⟨_, rfl, @Finds.found _ _ _ .head _ rfl (fun _ => hf.left) hn hf.right⟩
    case inr hf =>
      have ⟨hc, hk, hb, hclear⟩ := hf
      rw [readKey_length] at hb
      have ⟨r, hs, hr⟩ := searchChain_spec hb hclear
      refine ⟨_, ?_, hr.finds hk⟩
      split
      case h_1 he => exact absurd he hc
      case h_2 =>
        rw [hs]
        rfl

end RoverOS.Hashtable
