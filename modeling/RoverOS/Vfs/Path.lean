import RoverOS.Vfs.Basic

-- `parsePath` with the way in which it reads the path, and looks names up, left open.

namespace RoverOS.Vfs

open Kmalloc

abbrev Read := Nat → Except Exit (BitVec 8)

abbrev Fetch := Hashtable → Ptr → Nat → Kmalloc.Heap → Except Exit (Option Word)

section With

variable (read : Read) (fetch : Fetch) (fuel : Nat)

def pathNameLengthWith : Nat → Nat → Except Exit Nat
  | 0,        _    => .error .halt
  | fuel + 1, base => do
    let c ← read base
    if c = 0#8 then return 0
    else if c = slash then return 0
    else do
      let i ← pathNameLengthWith fuel (u32 (base + 1))
      return u32 (i + 1)

def parseFromWith (path : Nat → Ptr) (s : Vfs) :
    Nat → Ptr → Option Ptr → Nat → Except Exit (Option Ptr × Option Ptr)
  | 0,         _,      _,   _    => .error .halt
  | rounds + 1, header, mnt, base => do
    let slen ← pathNameLengthWith read fuel base
    if slen = 0 then return (some header, mnt)
    let type ← s.headerType header
    if type ≠ vfsTypeMount then return (none, mnt)
    match s.mounts header with
    | none            => .error .fault
    | some mountpoint =>
      match ← fetch mountpoint.table (path base) slen s.heap with
      | none      => return (none, some header)
      | some data =>
        let type ← s.headerType data.toNat
        if type = vfsTypeFile then return (some data.toNat, some header)
        parseFromWith path s rounds data.toNat (some header) (u32 (base + (slen + 1)))

def parsePathWith (path : Nat → Ptr) (s : Vfs) : Except Exit (Option Ptr × Option Ptr) := do
  let slen ← pathNameLengthWith read fuel 1
  match ← fetch s.children (path 1) slen s.heap with
  | none      => return (none, none)
  | some data =>
    if data = 0 then return (none, none)
    let type ← s.headerType data.toNat
    if type = vfsTypeFile then return (some data.toNat, none)
    parseFromWith read fetch fuel path s fuel data.toNat none (u32 (1 + (slen + 1)))

end With

-- The memory from `str` on is there.
def readAny (str : Bytes) : Read :=
  fun i => .ok (str i)

-- A read behind the index `nul` is one outside of the string.
def readUpTo (str : Bytes) (nul : Nat) : Read :=
  fun i => if i ≤ nul then .ok (str i) else .error .fault

variable {read : Read} {fetch : Fetch} {fuel rounds base : Nat} {path : Nat → Ptr} {s : Vfs} {str : Bytes}

section Agree

theorem pathNameLengthWith_readAny : pathNameLengthWith (readAny str) fuel base = pathNameLength str fuel base := by
  induction fuel generalizing base
  case zero => rfl
  case succ fuel hi =>
    rw [pathNameLengthWith, pathNameLength, hi]
    rfl

theorem parseFromWith_readAny {header : Ptr} {mnt : Option Ptr} :
    parseFromWith (readAny (s.heap.mem (path 0))) Hashtable.hashtableFetch fuel path s rounds header mnt base =
      parseFrom fuel path s rounds header mnt base := by
  induction rounds generalizing header mnt base
  case zero => rfl
  case succ rounds hi =>
    rw [parseFromWith]
    simp only [pathNameLengthWith_readAny, hi]
    rfl

-- `parsePath` reads whatever is in memory, with the lookups of the hash table.
theorem parsePathWith_readAny :
    parsePathWith (readAny (s.heap.mem (path 0))) Hashtable.hashtableFetch fuel path s = parsePath fuel path s := by
  rw [parsePathWith]
  simp only [pathNameLengthWith_readAny, parseFromWith_readAny]
  rfl

end Agree

section Refine

-- Where `x` returns, `y` returns the same.
def Refines {α : Type} (x y : Except Exit α) : Prop :=
  ∀ a, x = .ok a → y = .ok a

theorem Refines.refl {α : Type} (x : Except Exit α) : Refines x x :=
  fun _ h => h

theorem Refines.bind {α β : Type} {x y : Except Exit α} {f g : α → Except Exit β} (h : Refines x y)
    (hf : ∀ a, Refines (f a) (g a)) : Refines (x >>= f) (y >>= g) := by
  intro b hb
  obtain ⟨a, ha, hb⟩ := Except.bind_ok_iff.mp hb
  exact Except.bind_ok_iff.mpr ⟨a, h a ha, hf a b hb⟩

theorem Refines.ite {α : Type} {c : Prop} [Decidable c] {x x' y y' : Except Exit α} (ht : Refines x y)
    (hf : Refines x' y') : Refines (if c then x else x') (if c then y else y') := by
  split
  case isTrue  => exact ht
  case isFalse => exact hf

variable {read' : Read} {fuel' rounds' : Nat}

theorem pathNameLengthWith_refines (hr : ∀ i, Refines (read i) (read' i)) (hf : fuel ≤ fuel') :
    Refines (pathNameLengthWith read fuel base) (pathNameLengthWith read' fuel' base) := by
  induction fuel generalizing base fuel'
  case zero => exact fun _ h => nomatch h
  case succ fuel hi =>
    obtain ⟨fuel', rfl⟩ := Nat.exists_eq_add_of_le' hf
    rw [← Nat.add_assoc, pathNameLengthWith, pathNameLengthWith]
    refine (hr base).bind fun c => .ite (.refl _) (.ite (.refl _) ?_)
    exact (hi (by omega)).bind fun i => .refl _

theorem parseFromWith_refines {header : Ptr} {mnt : Option Ptr} (hr : ∀ i, Refines (read i) (read' i))
    (hf : fuel ≤ fuel') (hn : rounds ≤ rounds') :
    Refines (parseFromWith read fetch fuel path s rounds header mnt base)
      (parseFromWith read' fetch fuel' path s rounds' header mnt base) := by
  induction rounds generalizing rounds' header mnt base
  case zero => exact fun _ h => nomatch h
  case succ rounds hi =>
    obtain ⟨rounds', rfl⟩ := Nat.exists_eq_add_of_le' hn
    rw [← Nat.add_assoc, parseFromWith, parseFromWith]
    refine (pathNameLengthWith_refines hr hf).bind fun slen => .ite (.refl _) ?_
    refine Refines.bind (.refl _) fun type => .ite (.refl _) ?_
    cases s.mounts header
    case none => exact .refl _
    case some mountpoint =>
      refine Refines.bind (.refl _) fun data => ?_
      cases data
      case none      => exact .refl _
      case some data => exact Refines.bind (.refl _) fun type => .ite (.refl _) (hi (by omega))

-- More fuel, and more memory that can be read, do not change what a call returns.
theorem parsePathWith_refines (hr : ∀ i, Refines (read i) (read' i)) (hf : fuel ≤ fuel') :
    Refines (parsePathWith read fetch fuel path s) (parsePathWith read' fetch fuel' path s) := by
  refine (pathNameLengthWith_refines hr hf).bind fun slen => ?_
  refine Refines.bind (.refl _) fun data => ?_
  cases data
  case none      => exact .refl _
  case some data =>
    exact .ite (.refl _) (Refines.bind (.refl _) fun type => .ite (.refl _) (parseFromWith_refines hr hf hf))

theorem readUpTo_refines {nul : Nat} (i : Nat) : Refines (readUpTo str nul i) (readAny str i) := by
  intro b h
  rw [readUpTo] at h
  split at h
  case isTrue  => exact h
  case isFalse => cases h

-- A run that stays inside of the string is a run of `parsePath`.
theorem parsePath_of_readUpTo {nul : Nat} {r : Option Ptr × Option Ptr}
    (h : parsePathWith (readUpTo (s.heap.mem (path 0)) nul) Hashtable.hashtableFetch fuel path s = .ok r) :
    parsePath fuel path s = .ok r := by
  rw [← parsePathWith_readAny]
  exact parsePathWith_refines readUpTo_refines (Nat.le_refl _) r h

end Refine

section First

variable {n d : Nat}

def Stops (c : BitVec 8) : Prop :=
  c = 0#8 ∨ c = slash

-- The name from `base` on has `n` characters, with the index going around at `2 ^ 32`.
structure First (read : Read) (base n : Nat) : Prop where
  small  : n < 2 ^ 32
  before : ∀ j < n, ∃ c, read (u32 (base + j)) = .ok c ∧ ¬Stops c
  stop   : ∃ c, read (u32 (base + n)) = .ok c ∧ Stops c

theorem u32_u32_add : u32 (u32 base + n) = u32 (base + n) :=
  Nat.mod_add_mod _ _ _

theorem u32_u32 : u32 (u32 n) = u32 n :=
  Nat.mod_mod _ _

theorem First.reads {j : Nat} (f : First read base n) (hj : j ≤ n) : ∃ c, read (u32 (base + j)) = .ok c := by
  rcases Nat.lt_or_eq_of_le hj with hlt | rfl
  · obtain ⟨c, hc, _⟩ := f.before j hlt
    exact ⟨c, hc⟩
  · obtain ⟨c, hc, _⟩ := f.stop
    exact ⟨c, hc⟩

theorem First.length (f : First read base n) (hb : base < 2 ^ 32) (hf : n < fuel) :
    pathNameLengthWith read fuel base = .ok n := by
  induction n generalizing base fuel <;> obtain ⟨fuel, rfl⟩ := Nat.exists_eq_add_of_lt hf
  case zero =>
    obtain ⟨c, hc, hs⟩ := f.stop
    rw [Nat.add_zero, u32_of_lt hb] at hc
    rw [pathNameLengthWith, hc]
    rcases hs with rfl | rfl
    · rfl
    · rfl
  case succ n hi =>
    obtain ⟨c, hc, hn⟩ := f.before 0 (Nat.succ_pos n)
    rw [Nat.add_zero, u32_of_lt hb] at hc
    have hn := not_or.mp hn
    have hsmall := f.small
    have hnext (j : Nat) : u32 (u32 (base + 1) + j) = u32 (base + (j + 1)) := by
      rw [u32_u32_add, Nat.add_assoc, Nat.add_comm 1]
    have f' : First read (u32 (base + 1)) n := by
      refine ⟨by omega, fun j hj => ?_, ?_⟩
      · rw [hnext]
        exact f.before (j + 1) (by omega)
      · rw [hnext]
        exact f.stop
    have hr : pathNameLengthWith read (n + 1 + fuel) (u32 (base + 1)) = .ok n := hi f' (u32_lt _) (by omega)
    rw [pathNameLengthWith, hc]
    simp only [bind, Except.bind, if_neg hn.left, if_neg hn.right, hr]
    rw [u32_of_lt hsmall]
    rfl

-- The loop cannot go around more than once.
theorem first_of_length (hb : base < 2 ^ 32) (h : pathNameLengthWith read fuel base = .ok n) :
    First read base n := by
  have hex : ∃ m, n = u32 m ∧ (∀ j < m, ∃ c, read (u32 (base + j)) = .ok c ∧ ¬Stops c) ∧
      ∃ c, read (u32 (base + m)) = .ok c ∧ Stops c := by
    induction fuel generalizing base n
    case zero => cases h
    case succ fuel hi =>
      obtain ⟨c, hc, h⟩ := Except.bind_ok_iff.mp h
      have hc' : read (u32 (base + 0)) = .ok c := by rwa [Nat.add_zero, u32_of_lt hb]
      split at h
      case isTrue h0 =>
        cases h
        exact ⟨0, rfl, fun j hj => absurd hj (Nat.not_lt_zero j), c, hc', .inl h0⟩
      case isFalse h0 =>
        split at h
        case isTrue hs =>
          cases h
          exact ⟨0, rfl, fun j hj => absurd hj (Nat.not_lt_zero j), c, hc', .inr hs⟩
        case isFalse hs =>
          obtain ⟨i, hr, h⟩ := Except.bind_ok_iff.mp h
          cases h
          obtain ⟨m, rfl, hbefore, hstop⟩ := hi (u32_lt _) hr
          have hnext (j : Nat) : u32 (u32 (base + 1) + j) = u32 (base + (j + 1)) := by
            rw [u32_u32_add, Nat.add_assoc, Nat.add_comm 1]
          simp only [hnext] at hbefore hstop
          refine ⟨m + 1, u32_u32_add, fun j hj => ?_, hstop⟩
          cases j
          case zero   => exact ⟨c, hc', not_or.mpr ⟨h0, hs⟩⟩
          case succ j => exact hbefore j (by omega)
  obtain ⟨m, rfl, hbefore, hstop⟩ := hex
  have hm : m < 2 ^ 32 := by
    by_contra hge
    obtain ⟨c, hc, hs⟩ := hstop
    obtain ⟨c', hc', hn⟩ := hbefore (m - 2 ^ 32) (by omega)
    have he : u32 (base + (m - 2 ^ 32)) = u32 (base + m) := by
      unfold u32
      omega
    rw [he, hc] at hc'
    cases hc'
    exact hn hs
  rw [u32_of_lt hm]
  exact ⟨hm, hbefore, hstop⟩

-- Where the loop can stop after `d` steps, it stops.
theorem exists_first (hd : d < 2 ^ 32) (hread : ∀ j ≤ d, ∃ c, read (u32 (base + j)) = .ok c)
    (hstop : ∃ c, read (u32 (base + d)) = .ok c ∧ Stops c) : ∃ n ≤ d, First read base n := by
  induction d using Nat.strong_induction_on
  case h d hi =>
    by_cases hb : ∀ j < d, ∃ c, read (u32 (base + j)) = .ok c ∧ ¬Stops c
    case pos => exact ⟨d, Nat.le_refl d, hd, hb, hstop⟩
    case neg =>
      push Not at hb
      obtain ⟨j, hj, hall⟩ := hb
      obtain ⟨c, hc⟩ := hread j (Nat.le_of_lt hj)
      obtain ⟨n, hn, f⟩ := hi j hj (by omega) (fun k hk => hread k (by omega)) ⟨c, hc, hall c hc⟩
      exact ⟨n, by omega, f⟩

end First

end RoverOS.Vfs
