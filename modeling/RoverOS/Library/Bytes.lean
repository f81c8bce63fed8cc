import Mathlib

-- A memory of bytes, with little-endian loads and stores.

open Function (update update_self update_of_ne)

namespace Bytes

abbrev Memory := Nat → BitVec 8

variable {m m' : Memory} {a b i n k v : Nat}

-- The `n` bytes from `a` on.
def load (m : Memory) (a : Nat) : Nat → Nat
  | 0     => 0
  | n + 1 => (m a).toNat + 256 * load m (a + 1) n

-- What does not fit into `n` bytes is cut off.
def store (m : Memory) (a : Nat) : Nat → Nat → Memory
  | 0,     _ => m
  | n + 1, v => store (update m a (BitVec.ofNat 8 v)) (a + 1) n (v / 256)

theorem store_outside (h : i < a ∨ a + n ≤ i) : store m a n v i = m i := by
  induction n generalizing m a v
  case zero => rfl
  case succ n hi => rw [store, hi (by omega), update_of_ne (by omega)]

theorem load_congr (h : ∀ i, a ≤ i → i < a + n → m' i = m i) : load m' a n = load m a n := by
  induction n generalizing a
  case zero => rfl
  case succ n hi =>
    rw [load, load, h a (by omega) (by omega), hi fun i hl hu => h i (by omega) (by omega)]

theorem load_store_of_apart (h : b + k ≤ a ∨ a + n ≤ b) :
    load (store m a n v) b k = load m b k :=
  load_congr fun _ _ _ => store_outside (by omega)

theorem load_lt : load m a n < 256 ^ n := by
  induction n generalizing a
  case zero => exact Nat.one_pos
  case succ n hi =>
    have h := hi (a := a + 1)
    have hb := (m a).isLt
    rw [load, Nat.pow_succ]
    omega

theorem load_store_mod : load (store m a n v) a n = v % 256 ^ n := by
  induction n generalizing m a v
  case zero => simp [load, Nat.mod_one]
  case succ n hi =>
    have hv : v / 256 % 256 ^ n = v % 256 ^ (n + 1) / 256 := by
      rw [Nat.pow_succ, Nat.mul_comm, Nat.mod_mul_right_div_self]
    have hm : v % 256 ^ (n + 1) % 256 = v % 256 :=
      Nat.mod_mod_of_dvd v (Nat.dvd_mul_left 256 (256 ^ n))
    rw [load, store, hi, store_outside (by omega), update_self, BitVec.toNat_ofNat, hv]
    omega

theorem load_store (h : v < 256 ^ n) : load (store m a n v) a n = v := by
  rw [load_store_mod, Nat.mod_eq_of_lt h]

-- The `n` bytes of `v`, the lowest one first.
def bytesOf (v : Nat) : Nat → List (BitVec 8)
  | 0     => []
  | n + 1 => BitVec.ofNat 8 v :: bytesOf (v / 256) n

@[simp]
theorem length_bytesOf : (bytesOf v n).length = n := by
  induction n generalizing v
  case zero => rfl
  case succ n hi => simp [bytesOf, hi]

-- The bytes from `a` on are those of the list.
def Has (m : Memory) : Nat → List (BitVec 8) → Prop
  | _, []     => True
  | a, b :: l => m a = b ∧ Has m (a + 1) l

theorem has_iff {l : List (BitVec 8)} : Has m a l ↔ ∀ i (h : i < l.length), m (a + i) = l[i] := by
  induction l generalizing a
  case nil => simp [Has]
  case cons b l hl =>
    simp only [Has, hl]
    constructor
    · rintro ⟨hb, h⟩ i hi
      cases i
      case zero   => exact hb
      case succ i => simpa [Nat.add_assoc, Nat.add_comm 1] using h i (by simpa using hi)
    · intro h
      refine ⟨h 0 (by simp), fun i hi => ?_⟩
      have hb := h (i + 1) (by simpa using hi)
      rw [List.getElem_cons_succ] at hb
      rwa [Nat.add_assoc, Nat.add_comm 1]

theorem has_append {l l' : List (BitVec 8)} :
    Has m a (l ++ l') ↔ Has m a l ∧ Has m (a + l.length) l' := by
  induction l generalizing a
  case nil => simp [Has]
  case cons b l hl => simp [Has, hl, and_assoc, Nat.add_assoc, Nat.add_comm 1]

theorem Has.load (h : Has m a (bytesOf v n)) : load m a n = v % 256 ^ n := by
  induction n generalizing a v
  case zero => simp [Bytes.load, Nat.mod_one]
  case succ n hi =>
    have hv : v % 256 ^ (n + 1) = v % 256 + 256 * (v / 256 % 256 ^ n) := by
      rw [Nat.pow_succ, Nat.mul_comm, Nat.mod_mul]
    rw [Bytes.load, hi h.right, h.left, BitVec.toNat_ofNat, hv]

theorem Has.load_eq (h : Has m a (bytesOf v n)) (hv : v < 256 ^ n) : Bytes.load m a n = v := by
  rw [h.load, Nat.mod_eq_of_lt hv]

end Bytes
