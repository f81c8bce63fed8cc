import RoverOS.Strings.Basic

-- When both libraries do what `string.h` promises.

open Function (update update_self update_of_ne)

namespace RoverOS.Strings

variable {m m' : Mem} {a b x p dest src ptr s1 s2 : Word} {l l' : List Byte} {i k n fuel : Nat}
variable {bytes : Word → Byte} {c : BitVec 32} {s t : List Byte}

section Stores

theorem offset_zero : offset p 0 = p :=
  BitVec.add_zero p

theorem offset_succ : offset (p + 1) i = offset p (i + 1) := by
  unfold offset
  bv_omega

theorem offset_add : offset (offset p i) k = offset p (i + k) := by
  unfold offset
  bv_omega

theorem offset_inj (hi : i < 2 ^ 64) (hk : k < 2 ^ 64) : offset p i = offset p k ↔ i = k := by
  unfold offset
  bv_omega

@[simp]
theorem written_store {v : Byte} : (m.store a v).written = a :: m.written := rfl

theorem written_storeAll :
    x ∈ (m.storeAll a l).written ↔ (∃ i < l.length, x = offset a i) ∨ x ∈ m.written := by
  induction l generalizing m a
  case nil => simp [Mem.storeAll]
  case cons v l hi =>
    rw [Mem.storeAll, hi, written_store, List.mem_cons, ← or_assoc]
    refine or_congr_left ?_
    constructor
    case mp =>
      rintro (⟨i, hlt, rfl⟩ | rfl)
      · exact ⟨i + 1, Nat.succ_lt_succ hlt, offset_succ⟩
      · exact ⟨0, Nat.succ_pos _, offset_zero.symm⟩
    case mpr =>
      rintro ⟨i, hlt, rfl⟩
      cases i
      case zero   => exact .inr offset_zero
      case succ i => exact .inl ⟨i, Nat.lt_of_succ_lt_succ hlt, offset_succ.symm⟩

theorem bytes_storeAll_of_not_mem (h : ∀ i < l.length, x ≠ offset a i) :
    (m.storeAll a l).bytes x = m.bytes x := by
  induction l generalizing m a
  case nil => rfl
  case cons v l hi =>
    rw [Mem.storeAll, hi fun i hi => offset_succ ▸ h (i + 1) (Nat.succ_lt_succ hi)]
    have hne := h 0 (Nat.succ_pos _)
    rw [offset_zero] at hne
    exact update_of_ne hne _ _

theorem bytes_storeAll (hl : l.length ≤ 2 ^ 64) (hi : i < l.length) :
    (m.storeAll a l).bytes (offset a i) = l[i] := by
  induction l generalizing m a i
  case nil => cases hi
  case cons v l ih =>
    rw [List.length_cons] at hl hi
    cases i
    case zero =>
      rw [Mem.storeAll, bytes_storeAll_of_not_mem, offset_zero]
      · exact update_self ..
      · intro j hj he
        rw [offset_succ, offset_inj (by omega) (by omega)] at he
        omega
    case succ i =>
      rw [Mem.storeAll, ← offset_succ, ih (by omega) (by omega)]
      rfl

theorem storeAll_append : m.storeAll a (l ++ l') = (m.storeAll a l).storeAll (offset a l.length) l' := by
  induction l generalizing m a
  case nil => rw [List.nil_append, Mem.storeAll, List.length_nil, offset_zero]
  case cons v l hi => rw [List.cons_append, Mem.storeAll, Mem.storeAll, hi, List.length_cons, offset_succ]

-- Two ranges from one address on are the same only when they have the same length.
theorem range_le (hk : k < 2 ^ 64) (h : ∀ x, (∃ i < n, x = offset p i) → ∃ i < k, x = offset p i)
    (hn : n < 2 ^ 64) : n ≤ k := by
  by_contra hlt
  obtain ⟨i, hi, he⟩ := h (offset p k) ⟨k, by omega, rfl⟩
  rw [offset_inj hk (by omega)] at he
  omega

end Stores

section Loop

-- The number of times that the body of a `loop` is run.
def loopCount (rcx : Word) : Nat :=
  if rcx = 0 then 2 ^ 64 else rcx.toNat

theorem loopCount_pos (rcx : Word) : 0 < loopCount rcx := by
  unfold loopCount
  split
  case isTrue    => exact Nat.two_pow_pos 64
  case isFalse h => bv_omega

theorem loopCount_pred {rcx : Word} (h : rcx - 1 ≠ 0) : loopCount rcx = loopCount (rcx - 1) + 1 := by
  unfold loopCount
  rw [if_neg h]
  split <;> bv_omega

theorem loop_eq {σ : Type} {body : σ → σ} {rcx : Word} {s : σ} :
    Asm.loop body rcx s = body^[loopCount rcx] s := by
  induction rcx, s using Asm.loop.induct body
  case case1 rcx s h =>
    have hc : loopCount rcx = 1 := by
      unfold loopCount
      split <;> bv_omega
    rw [Asm.loop, if_pos h, hc]
    rfl
  case case2 rcx s h hi =>
    rw [Asm.loop, if_neg h, hi, loopCount_pred h]
    rfl

-- What a body adds to the written addresses, the loop has written.
theorem mem_iterate {σ : Type} {body : σ → σ} {mem : σ → Mem} {st : σ} (hk : 0 < k)
    (hf : x ∈ (mem (body st)).written)
    (hs : ∀ st, x ∈ (mem st).written → x ∈ (mem (body st)).written) :
    x ∈ (mem (body^[k] st)).written := by
  induction k
  case zero => exact absurd hk (Nat.lt_irrefl 0)
  case succ k hi =>
    rw [Function.iterate_succ_apply']
    cases k
    case zero   => exact hf
    case succ k => exact hs _ (hi (Nat.succ_pos k))

end Loop

section Memcpy

-- `dest[i]` is `src[i]` for `i` below `len`, and nothing else is written.
structure Copies (f : Mem → Mem) (bytes : Word → Byte) (dest src : Word) (len : Nat) : Prop where
  written : ∀ x, x ∈ (f ⟨bytes, []⟩).written ↔ ∃ i < len, x = offset dest i
  copied  : ∀ i < len, (f ⟨bytes, []⟩).bytes (offset dest i) = bytes (offset src i)

theorem C.written_memcpy {len : Nat} :
    x ∈ (C.memcpy dest src len m).written ↔ (∃ i < len, x = offset dest (i + 1)) ∨ x ∈ m.written := by
  induction len generalizing m
  case zero => simp [C.memcpy]
  case succ len hi =>
    rw [C.memcpy, hi, written_store, List.mem_cons, ← or_assoc]
    refine or_congr_left ?_
    constructor
    case mp =>
      rintro (⟨i, hlt, rfl⟩ | rfl)
      · exact ⟨i, Nat.lt_succ_of_lt hlt, rfl⟩
      · exact ⟨len, Nat.lt_succ_self len, rfl⟩
    case mpr =>
      rintro ⟨i, hlt, rfl⟩
      cases Nat.eq_or_lt_of_le (Nat.le_of_lt_succ hlt)
      case inl he => exact .inr (he ▸ rfl)
      case inr hl => exact .inl ⟨i, hl, rfl⟩

-- The first byte is left out, and one behind the last is written.
theorem C.memcpy_copies_iff {len : Nat} (hl : len < 2 ^ 64) :
    Copies (C.memcpy dest src len) bytes dest src len ↔ len = 0 := by
  constructor
  case mp =>
    intro h
    by_contra hne
    have hw := (h.written dest).mpr ⟨0, by omega, offset_zero.symm⟩
    obtain ⟨i, hi, he⟩ | hw := C.written_memcpy.mp hw
    · have hz : offset dest 0 = offset dest (i + 1) := offset_zero.trans he
      rw [offset_inj (by omega) (by omega)] at hz
      cases hz
    · cases hw
  case mpr =>
    intro hz
    subst hz
    exact ⟨fun x => by simp [C.memcpy], fun i hi => absurd hi (Nat.not_lt_zero i)⟩

theorem Asm.dest_mem_memcpy {rdi rsi rdx : Word} : rdi ∈ (Asm.memcpy rdi rsi rdx m).written := by
  rw [Asm.memcpy, loop_eq]
  exact @mem_iterate _ _ _ _ Asm.Copy.mem _ (loopCount_pos rsi) (List.mem_cons_self ..)
    fun _ h => List.mem_cons_of_mem _ h

theorem Asm.memcpy_not_copies_none {rdi rsi rdx : Word} :
    ¬Copies (Asm.memcpy rdi rsi rdx) bytes dest src 0 := by
  intro h
  obtain ⟨i, hi, _⟩ := (h.written rdi).mp Asm.dest_mem_memcpy
  exact Nat.not_lt_zero i hi

end Memcpy

section Memset

-- The low byte of `c` is written to the first `n` bytes and to no others.
structure Fills (f : Mem → Mem) (bytes : Word → Byte) (ptr : Word) (c : BitVec 32) (n : Nat) : Prop where
  written : ∀ x, x ∈ (f ⟨bytes, []⟩).written ↔ ∃ i < n, x = offset ptr i
  filled  : ∀ i < n, (f ⟨bytes, []⟩).bytes (offset ptr i) = lowByte c

def SameBytes (c : BitVec 32) : Prop :=
  ∀ b ∈ intBytes c, b = lowByte c

instance (c : BitVec 32) : Decidable (SameBytes c) :=
  inferInstanceAs (Decidable (∀ b ∈ intBytes c, _))

theorem storeAll_fills_iff (hl : l.length < 2 ^ 64) (hn : n < 2 ^ 64) :
    Fills (·.storeAll ptr l) bytes ptr c n ↔ l.length = n ∧ ∀ b ∈ l, b = lowByte c := by
  constructor
  case mp =>
    intro h
    have hw (x : Word) : (∃ i < l.length, x = offset ptr i) ↔ ∃ i < n, x = offset ptr i := by
      rw [← h.written x, written_storeAll]
      simp
    have he : l.length = n :=
      Nat.le_antisymm (range_le hn (fun x => (hw x).mp) hl) (range_le hl (fun x => (hw x).mpr) hn)
    refine ⟨he, fun b hb => ?_⟩
    obtain ⟨i, hi, rfl⟩ := List.getElem_of_mem hb
    rw [← bytes_storeAll (Nat.le_of_lt hl) hi (m := ⟨bytes, []⟩) (a := ptr)]
    exact h.filled i (he ▸ hi)
  case mpr =>
    rintro ⟨rfl, hb⟩
    refine ⟨fun x => by simp [written_storeAll], fun i hi => ?_⟩
    rw [bytes_storeAll (Nat.le_of_lt hl) hi]
    exact hb _ (List.getElem_mem hi)

theorem C.memsetInts_eq :
    C.memsetInts ptr c i k m = m.storeAll (offset ptr (4 * i)) (List.replicate k (intBytes c)).flatten := by
  induction k generalizing m i
  case zero => rfl
  case succ k hi =>
    rw [C.memsetInts, hi, List.replicate_succ, List.flatten_cons, storeAll_append, offset_add]
    rfl

theorem length_ints : (List.replicate k (intBytes c)).flatten.length = 4 * k := by
  rw [List.length_flatten, List.map_replicate, List.sum_replicate_nat, Nat.mul_comm]
  rfl

-- Only whole words are written, and each of their bytes is one of `c`.
theorem C.memset_fills_iff (hn : n < 2 ^ 64) :
    Fills (C.memset ptr c n) bytes ptr c n ↔ n % 4 = 0 ∧ (n = 0 ∨ SameBytes c) := by
  have hf : C.memset ptr c n = (·.storeAll ptr (List.replicate (n / 4) (intBytes c)).flatten) := by
    funext m
    rw [C.memset, C.memsetInts_eq, Nat.mul_zero, offset_zero]
  have hl := length_ints (k := n / 4) (c := c)
  rw [hf, storeAll_fills_iff (by omega) hn, hl]
  constructor
  case mp =>
    rintro ⟨h4, hb⟩
    refine ⟨by omega, ?_⟩
    by_cases hz : n = 0
    case pos => exact .inl hz
    case neg =>
      refine .inr fun b hm => hb b (List.mem_flatten.mpr ⟨_, List.mem_replicate.mpr ⟨?_, rfl⟩, hm⟩)
      omega
  case mpr =>
    rintro ⟨h4, hb⟩
    refine ⟨by omega, fun b hm => ?_⟩
    obtain ⟨w, hw, hm⟩ := List.mem_flatten.mp hm
    obtain ⟨hk, rfl⟩ := List.mem_replicate.mp hw
    exact hb.resolve_left (fun hz => hk (by omega)) b hm

theorem Asm.iterate_fill {sil : Byte} {rdi : Word} :
    (Asm.Fill.lp sil)^[k] { rdi, mem := m } =
      { rdi := offset rdi k, mem := m.storeAll rdi (List.replicate k sil) } := by
  induction k generalizing rdi m
  case zero => rw [Function.iterate_zero, id, offset_zero]; rfl
  case succ k hi =>
    rw [Function.iterate_succ_apply, Asm.Fill.lp, hi, offset_succ, List.replicate_succ]
    rfl

-- Without a byte to write, the loop goes around all of the memory.
theorem Asm.memset_fills_iff {rdx : Word} :
    Fills (Asm.memset ptr c rdx) bytes ptr c rdx.toNat ↔ rdx ≠ 0 := by
  constructor
  case mp =>
    rintro h rfl
    have hw : ptr ∈ (Asm.memset ptr c 0 ⟨bytes, []⟩).written := by
      rw [Asm.memset, loop_eq]
      exact @mem_iterate _ _ _ _ Asm.Fill.mem _ (loopCount_pos 0) (List.mem_cons_self ..)
        fun _ h => List.mem_cons_of_mem _ h
    obtain ⟨i, hi, _⟩ := (h.written ptr).mp hw
    exact Nat.not_lt_zero i hi
  case mpr =>
    intro hne
    have hf : Asm.memset ptr c rdx = (·.storeAll ptr (List.replicate rdx.toNat (lowByte c))) := by
      funext m
      rw [Asm.memset, loop_eq, loopCount, if_neg hne, Asm.iterate_fill]
    rw [hf, storeAll_fills_iff (by rw [List.length_replicate]; exact rdx.isLt) rdx.isLt]
    exact ⟨List.length_replicate, fun b hb => (List.mem_replicate.mp hb).right⟩

end Memset

-- The characters of the string at `a`, without its terminator.
def IsString (bytes : Word → Byte) : Word → List Byte → Prop
  | a, []     => bytes a = 0
  | a, b :: s => b ≠ 0 ∧ bytes a = b ∧ IsString bytes (a + 1) s

instance IsString.decidable (bytes : Word → Byte) : (a : Word) → (s : List Byte) → Decidable (IsString bytes a s)
  | a, []     => inferInstanceAs (Decidable (bytes a = 0))
  | a, b :: s =>
    have := IsString.decidable bytes (a + 1) s
    inferInstanceAs (Decidable (b ≠ 0 ∧ bytes a = b ∧ IsString bytes (a + 1) s))

section Strcpy

-- The characters and the terminator are written, and nothing else.
def CopiesString (f : Nat → Mem → Except Exit (Word × Mem)) (bytes : Word → Byte) (s1 : Word)
    (s : List Byte) : Prop :=
  ∃ fuel r m', f fuel ⟨bytes, []⟩ = .ok (r, m') ∧
    (∀ x, x ∈ m'.written ↔ ∃ i < (s ++ [0]).length, x = offset s1 i) ∧
    ∀ i (hi : i < (s ++ [0]).length), m'.bytes (offset s1 i) = (s ++ [0])[i]

-- Only characters are copied.
theorem C.strcpy_ne_zero {r : Word} (h : C.strcpy fuel s1 s2 m = .ok (r, m'))
    (hm : ∀ x ∈ m.written, m.bytes x ≠ 0) : ∀ x ∈ m'.written, m'.bytes x ≠ 0 := by
  induction fuel generalizing s1 s2 m
  case zero => cases h
  case succ fuel hi =>
    rw [C.strcpy] at h
    split at h
    case isTrue =>
      cases h
      exact hm
    case isFalse hne =>
      refine hi h fun x hx => ?_
      by_cases he : x = s1
      case pos =>
        subst he
        simpa [Mem.store] using hne
      case neg =>
        have hx := (List.mem_cons.mp hx).resolve_left he
        simpa [Mem.store, he] using hm x hx

-- The terminator is missing.
theorem C.strcpy_not_copies : ¬CopiesString (C.strcpy · s1 s2) bytes s1 s := by
  rintro ⟨fuel, r, m', h, hw, hb⟩
  have hl : s.length < (s ++ [0]).length := by simp
  have hz := hb s.length hl
  rw [List.getElem_concat_length rfl] at hz
  exact C.strcpy_ne_zero h (fun x hx => absurd hx List.not_mem_nil) _ ((hw _).mpr ⟨_, hl, rfl⟩) hz

theorem IsString.congr {bytes' : Word → Byte} (h : IsString bytes a s)
    (hb : ∀ i ≤ s.length, bytes' (offset a i) = bytes (offset a i)) : IsString bytes' a s := by
  induction s generalizing a
  case nil =>
    have h0 := hb 0 (Nat.zero_le _)
    rw [offset_zero] at h0
    exact h0.trans h
  case cons v s hi =>
    obtain ⟨hv, ha, hs⟩ := h
    have h0 := hb 0 (Nat.zero_le _)
    rw [offset_zero] at h0
    refine ⟨hv, h0.trans ha, hi hs fun i hle => ?_⟩
    rw [offset_succ]
    exact hb (i + 1) (Nat.succ_le_succ hle)

theorem Asm.strcpyLoop_eq (h : IsString m.bytes s2 s)
    (ha : ∀ i ≤ s.length, ∀ j ≤ s.length, offset s1 i ≠ offset s2 j) :
    Asm.strcpyLoop (s.length + 1) s1 s2 m = .ok (m.storeAll s1 (s ++ [0])) := by
  induction s generalizing s1 s2 m
  case nil =>
    have h0 : m.bytes s2 = 0 := h
    rw [Asm.strcpyLoop, if_pos h0, h0]
    rfl
  case cons v s hi =>
    obtain ⟨hv, hs2, hs⟩ := h
    rw [List.length_cons, Asm.strcpyLoop, hs2, if_neg hv, hi]
    · rfl
    · refine hs.congr fun i hle => update_of_ne (fun he => ?_) _ _
      refine ha 0 (Nat.zero_le _) (i + 1) (Nat.succ_le_succ hle) ?_
      rw [offset_zero, ← offset_succ]
      exact he.symm
    · intro i hi j hj
      rw [offset_succ, offset_succ]
      exact ha _ (Nat.succ_le_succ hi) _ (Nat.succ_le_succ hj)

theorem Asm.strcpy_copies (h : IsString bytes s2 s) (hl : s.length < 2 ^ 64)
    (ha : ∀ i ≤ s.length, ∀ j ≤ s.length, offset s1 i ≠ offset s2 j) :
    CopiesString (Asm.strcpy · s1 s2) bytes s1 s := by
  refine ⟨s.length + 1, s1, Mem.storeAll ⟨bytes, []⟩ s1 (s ++ [0]), ?_, fun x => ?_, fun i hi => ?_⟩
  · change Asm.strcpy (s.length + 1) s1 s2 ⟨bytes, []⟩ = _
    rw [Asm.strcpy, Asm.strcpyLoop_eq h ha]
    rfl
  · rw [written_storeAll]
    simp
  · exact bytes_storeAll (by rw [List.length_append]; exact hl) hi

end Strcpy

section Strcmp

-- 0 is returned exactly when the strings are equal.
def Compares (f : Nat → Except Exit Int) (s t : List Byte) : Prop :=
  ∃ fuel v, f fuel = .ok v ∧ (v = 0 ↔ s = t)

-- How far the strings are the same.
def common : List Byte → List Byte → Nat
  | a :: s, b :: t => if a = b then common s t + 1 else 0
  | _,      _      => 0

theorem C.strcmp_step {v : Int} : (∃ fuel, C.strcmp s1 s2 bytes fuel i = .ok v) ↔ i < 2 ^ 31 ∧
    if bytes (offset s1 i) ≠ bytes (offset s2 i) then v = i
    else if bytes (offset s1 i) = 0 then v = 0
    else ∃ fuel, C.strcmp s1 s2 bytes fuel (i + 1) = .ok v := by
  constructor
  case mp =>
    rintro ⟨fuel, h⟩
    cases fuel
    case zero => cases h
    case succ fuel =>
      rw [C.strcmp] at h
      split at h
      case isTrue => cases h
      case isFalse hi =>
        refine ⟨Nat.lt_of_not_le hi, ?_⟩
        split at h
        case isTrue hne =>
          rw [if_pos hne]
          exact (Except.ok.inj h).symm
        case isFalse he =>
          rw [if_neg he]
          split at h
          case isTrue hz =>
            rw [if_pos hz]
            exact (Except.ok.inj h).symm
          case isFalse hz =>
            rw [if_neg hz]
            exact ⟨fuel, h⟩
  case mpr =>
    rintro ⟨hi, h⟩
    split at h
    case isTrue hne =>
      subst h
      refine ⟨1, ?_⟩
      rw [C.strcmp, if_neg (Nat.not_le_of_lt hi), if_pos hne]
    case isFalse he =>
      split at h
      case isTrue hz =>
        subst h
        refine ⟨1, ?_⟩
        rw [C.strcmp, if_neg (Nat.not_le_of_lt hi), if_neg he, if_pos hz]
      case isFalse hz =>
        obtain ⟨fuel, h⟩ := h
        refine ⟨fuel + 1, ?_⟩
        rw [C.strcmp, if_neg (Nat.not_le_of_lt hi), if_neg he, if_neg hz, h]

-- The index of the first difference is returned, which may be 0.
theorem C.strcmp_ok_iff {v : Int} (hs : IsString bytes (offset s1 i) s) (ht : IsString bytes (offset s2 i) t) :
    (∃ fuel, C.strcmp s1 s2 bytes fuel i = .ok v) ↔
      i + common s t < 2 ^ 31 ∧ v = if s = t then 0 else ((i + common s t : Nat) : Int) := by
  induction s generalizing t i
  case nil =>
    have h1 : bytes (offset s1 i) = 0 := hs
    rw [C.strcmp_step, h1]
    cases t
    case nil =>
      have h2 : bytes (offset s2 i) = 0 := ht
      simp [h2, common]
    case cons w t =>
      have hne : (0 : Byte) ≠ bytes (offset s2 i) := ht.right.left ▸ ht.left.symm
      rw [if_pos hne]
      simp [common]
  case cons v' s hi =>
    obtain ⟨hv, h1, hs⟩ := hs
    rw [C.strcmp_step, h1]
    cases t
    case nil =>
      have h2 : bytes (offset s2 i) = 0 := ht
      rw [h2, if_pos hv]
      simp [common]
    case cons w t =>
      obtain ⟨hw, h2, ht⟩ := ht
      rw [h2]
      by_cases he : v' = w
      case neg => simp [he, common]
      case pos =>
        subst he
        have next (p : Word) : offset p i + 1 = offset p (i + 1) := offset_add (i := i) (k := 1)
        rw [next] at hs ht
        simp only [ne_eq, not_true_eq_false, if_false, if_neg hv, common, if_true, List.cons.injEq, true_and]
        rw [hi hs ht, Nat.add_right_comm i 1, Nat.add_assoc i]
        refine and_iff_right_of_imp fun h => ?_
        have := h.left
        omega

theorem C.strcmp_compares_iff (hs : IsString bytes s1 s) (ht : IsString bytes s2 t) :
    Compares (C.strcmp s1 s2 bytes · 0) s t ↔ common s t < 2 ^ 31 ∧ (s = t ∨ common s t ≠ 0) := by
  rw [← offset_zero (p := s1)] at hs
  rw [← offset_zero (p := s2)] at ht
  have hv (v : Int) := C.strcmp_ok_iff (v := v) hs ht
  rw [Nat.zero_add] at hv
  constructor
  case mp =>
    rintro ⟨fuel, v, h, hz⟩
    obtain ⟨hlt, rfl⟩ := (hv v).mp ⟨fuel, h⟩
    refine ⟨hlt, ?_⟩
    by_cases he : s = t
    case pos => exact .inl he
    case neg =>
      rw [if_neg he] at hz
      exact .inr fun hc => he (hz.mp (congrArg Int.ofNat hc))
  case mpr =>
    rintro ⟨hlt, hc⟩
    obtain ⟨fuel, h⟩ := (hv _).mpr ⟨hlt, rfl⟩
    refine ⟨fuel, _, h, ?_⟩
    split
    case isTrue he  => exact ⟨fun _ => he, fun _ => rfl⟩
    case isFalse he =>
      have hne := hc.resolve_left he
      exact ⟨fun h => absurd (Int.ofNat.inj h) hne, fun h => absurd h he⟩

-- The loop ends with different bytes, or with two terminators. The first string bounds it, whatever there
-- is at the second address.
theorem Asm.scmpLoop_ok (s2 : Word) (hs : IsString bytes s1 s) (hf : s.length < fuel) :
    ∃ al cl, Asm.scmpLoop bytes fuel s1 s2 = .ok (al, cl) ∧ (al = cl ↔ IsString bytes s2 s) := by
  obtain ⟨fuel, rfl⟩ := Nat.exists_eq_succ_of_ne_zero (Nat.ne_of_gt (Nat.zero_lt_of_lt hf))
  induction s generalizing fuel s1 s2
  case nil =>
    have h1 : bytes s1 = 0 := hs
    refine ⟨0, bytes s2, ?_, eq_comm⟩
    rw [Asm.scmpLoop, h1]
    split
    case isTrue  => rfl
    case isFalse => simp
  case cons v s hi =>
    obtain ⟨hv, h1, hs⟩ := hs
    by_cases he : bytes s2 = v
    case neg =>
      refine ⟨v, bytes s2, ?_, ⟨fun h => absurd h.symm he, fun h => absurd h.right.left he⟩⟩
      rw [Asm.scmpLoop, h1]
      exact if_pos fun h => he h.symm
    case pos =>
      rw [List.length_cons] at hf
      obtain ⟨fuel, rfl⟩ := Nat.exists_eq_succ_of_ne_zero (n := fuel) (by omega)
      obtain ⟨al, cl, hl, heq⟩ := hi (s2 + 1) hs fuel (by omega)
      refine ⟨al, cl, ?_, heq.trans ⟨fun h => ⟨hv, he, h⟩, fun h => h.right.right⟩⟩
      rw [Asm.scmpLoop, h1, he]
      exact (if_neg (not_not.mpr rfl)).trans ((if_pos hv).trans hl)

theorem Asm.strcmp_ok (s2 : Word) (hs : IsString bytes s1 s) (hf : s.length < fuel) :
    ∃ v, Asm.strcmp s1 s2 bytes fuel = .ok v ∧ (v = 0 ↔ IsString bytes s2 s) := by
  obtain ⟨al, cl, h, he⟩ := Asm.scmpLoop_ok s2 hs hf
  have hn : al = cl ↔ al.toNat = cl.toNat := BitVec.toNat_inj.symm
  by_cases hlt : al < cl
  case pos =>
    have hl : al.toNat < cl.toNat := hlt
    refine ⟨(cl.toNat - al.toNat : Nat), ?_, ?_⟩
    · rw [Asm.strcmp, h]
      exact if_pos hlt
    · rw [← he, hn]
      omega
  case neg =>
    have hl : ¬al.toNat < cl.toNat := hlt
    refine ⟨(al.toNat - cl.toNat : Nat), ?_, ?_⟩
    · rw [Asm.strcmp, h]
      exact if_neg hlt
    · rw [← he, hn]
      omega

-- An address has one string.
theorem IsString.iff_eq (ht : IsString bytes a t) : IsString bytes a s ↔ s = t := by
  refine ⟨fun hs => ?_, fun h => h ▸ ht⟩
  induction s generalizing t a
  case nil =>
    cases t
    case nil      => rfl
    case cons w t => exact absurd (ht.right.left.symm.trans hs) ht.left
  case cons v s hi =>
    cases t
    case nil      => exact absurd (hs.right.left.symm.trans ht) hs.left
    case cons w t => rw [hs.right.left.symm.trans ht.right.left, hi ht.right.right hs.right.right]

theorem Asm.strcmp_compares (hs : IsString bytes s1 s) (ht : IsString bytes s2 t) :
    Compares (Asm.strcmp s1 s2 bytes) s t := by
  obtain ⟨v, h, hv⟩ := Asm.strcmp_ok s2 hs (Nat.lt_succ_self s.length)
  exact ⟨_, v, h, hv.trans ht.iff_eq⟩

end Strcmp

-- The inputs on which both versions of a function do what they are for.
theorem libraries_agree_iff (bytes : Word → Byte) (dest src ptr s1 s2 len n : Word) (c : BitVec 32)
    (s t : List Byte) :
    ¬(Copies (C.memcpy dest src len.toNat) bytes dest src len.toNat ∧
      Copies (Asm.memcpy dest src len) bytes dest src len.toNat) ∧
    ((Fills (C.memset ptr c n.toNat) bytes ptr c n.toNat ∧
      Fills (Asm.memset ptr c n) bytes ptr c n.toNat) ↔ n ≠ 0 ∧ n.toNat % 4 = 0 ∧ SameBytes c) ∧
    (IsString bytes s2 s → ¬(CopiesString (C.strcpy · s1 s2) bytes s1 s ∧
      CopiesString (Asm.strcpy · s1 s2) bytes s1 s)) ∧
    (IsString bytes s1 s → IsString bytes s2 t →
      ((Compares (C.strcmp s1 s2 bytes · 0) s t ∧ Compares (Asm.strcmp s1 s2 bytes) s t) ↔
        common s t < 2 ^ 31 ∧ (s = t ∨ common s t ≠ 0))) := by
  refine ⟨?memcpy, ?memset, ?strcpy, ?strcmp⟩
  case memcpy =>
    rintro ⟨hc, ha⟩
    have hz := (C.memcpy_copies_iff len.isLt).mp hc
    rw [hz] at ha
    exact Asm.memcpy_not_copies_none ha
  case memset =>
    rw [C.memset_fills_iff n.isLt, Asm.memset_fills_iff]
    have hz : n.toNat = 0 ↔ n = 0 := by bv_omega
    rw [hz]
    constructor
    case mp  => exact fun ⟨⟨h4, hs⟩, hne⟩ => ⟨hne, h4, hs.resolve_left hne⟩
    case mpr => exact fun ⟨hne, h4, hs⟩ => ⟨⟨h4, .inr hs⟩, hne⟩
  case strcpy =>
    intro _ h
    exact C.strcpy_not_copies h.left
  case strcmp =>
    intro hs ht
    rw [C.strcmp_compares_iff hs ht]
    exact and_iff_left (Asm.strcmp_compares hs ht)

-- The strings "ab" at 0x1000 and "ac" at 0x2000.
def twoStrings (a : Word) : Byte :=
  if a = 0x1000 ∨ a = 0x2000 then 0x61
  else if a = 0x1001 then 0x62
  else if a = 0x2001 then 0x63
  else 0

-- A zeroed `uint64_t`, and the comparison of two strings that differ behind their first byte.
theorem libraries_agree_zeroed :
    (Fills (C.memset 0x1000 0 (8 : Word).toNat) twoStrings 0x1000 0 (8 : Word).toNat ∧
      Fills (Asm.memset 0x1000 0 8) twoStrings 0x1000 0 (8 : Word).toNat) ∧
    Compares (C.strcmp 0x1000 0x2000 twoStrings · 0) [0x61, 0x62] [0x61, 0x63] ∧
      Compares (Asm.strcmp 0x1000 0x2000 twoStrings) [0x61, 0x62] [0x61, 0x63] := by
  have hs : IsString twoStrings 0x1000 [0x61, 0x62] := by decide
  have ht : IsString twoStrings 0x2000 [0x61, 0x63] := by decide
  have ⟨_, hset, _, hcmp⟩ := libraries_agree_iff twoStrings 0 0 0x1000 0x1000 0x2000 0 8 0 [0x61, 0x62] [0x61, 0x63]
  have hc : common [0x61, 0x62] [0x61, 0x63] = 1 := by decide
  exact ⟨hset.mpr (by decide), (hcmp hs ht).mpr ⟨by rw [hc]; decide, .inr (by decide)⟩⟩

-- A single byte is not copied, but the one behind it.
theorem memcpy_skips_first : ¬∀ bytes dest src (len : Word),
    Copies (C.memcpy dest src len.toNat) bytes dest src len.toNat ∧
      Copies (Asm.memcpy dest src len) bytes dest src len.toNat := by
  intro h
  have hc := (h (fun _ => 0) 0x1000 0x2000 1).left
  exact absurd ((C.memcpy_copies_iff (by decide)).mp hc) (by decide)

end RoverOS.Strings
