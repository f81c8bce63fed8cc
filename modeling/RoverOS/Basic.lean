import Mathlib

-- The machine's 64-bit words, and the ways a kernel function can end without its result.

namespace RoverOS

abbrev Word := BitVec 64

-- A `uint32_t` holds a count up to `2 ^ 32`.
def u32 (n : Nat) : Nat := n % 2 ^ 32

@[simp]
theorem u32_of_lt {n : Nat} (h : n < 2 ^ 32) : u32 n = n :=
  Nat.mod_eq_of_lt h

theorem u32_lt (n : Nat) : u32 n < 2 ^ 32 :=
  Nat.mod_lt _ (by decide)

theorem u32_succ {n : Nat} : u32 (u32 n + 1) = u32 (n + 1) := by
  unfold u32
  omega

-- `uint64_t` values that are only added, subtracted and compared are natural numbers.
def u64 (n : Nat) : Nat := n % 2 ^ 64

@[simp]
theorem u64_of_lt {n : Nat} (h : n < 2 ^ 64) : u64 n = n :=
  Nat.mod_eq_of_lt h

-- `a - b` as a `uint64_t`.
def sub64 (a b : Nat) : Nat := u64 (a + 2 ^ 64 - b)

theorem sub64_eq {a b : Nat} (h : b ≤ a) (hd : a - b < 2 ^ 64) : sub64 a b = a - b := by
  rw [sub64, u64, (by omega : a + 2 ^ 64 - b = (a - b) + 2 ^ 64), Nat.add_mod_right]
  exact Nat.mod_eq_of_lt hd

theorem sub64_of_le {a b : Nat} (h : b ≤ a) (ha : a < 2 ^ 64) : sub64 a b = a - b :=
  sub64_eq h (by omega)

def u8 (n : Nat) : Nat := n % 2 ^ 8

@[simp]
theorem u8_of_lt {n : Nat} (h : n < 2 ^ 8) : u8 n = n :=
  Nat.mod_eq_of_lt h

def u16 (n : Nat) : Nat := n % 2 ^ 16

@[simp]
theorem u16_of_lt {n : Nat} (h : n < 2 ^ 16) : u16 n = n :=
  Nat.mod_eq_of_lt h

inductive Exit
  | refused     -- the function returns `false` and has changed nothing
  | halt        -- a kernel panic, a failed `KASSERT`, or a lock that is never released
  | fault       -- memory outside of every object is read or written
  | unsequenced -- C leaves the order of two accesses open, and the order would matter
  deriving DecidableEq, Repr

-- `GET_LOCK` spins while the lock is held, and nobody else releases it.
def getLock (lock : Bool) : Except Exit Unit :=
  if lock then .error .halt else .ok ()

theorem getLock_of_free {lock : Bool} (h : lock = false) : getLock lock = .ok () := by
  rw [h]
  rfl

theorem getLock_ok {lock : Bool} {u : Unit} (h : getLock lock = .ok u) : lock = false := by
  cases lock
  case false => rfl
  case true  => simp [getLock] at h

-- A `do` block of kernel calls succeeds exactly when each of its calls does.
theorem Except.bind_ok_iff {ε α β : Type} {x : Except ε α} {f : α → Except ε β} {b : β} :
    (x >>= f) = .ok b ↔ ∃ a, x = .ok a ∧ f a = .ok b := by
  cases x <;> simp [bind, Except.bind]

-- A closed run is evaluated for what is read off its result.
theorem Except.exists_ok_of_map {ε α β : Type} {x : Except ε α} {f : α → β} {b : β}
    (h : x.map f = .ok b) : ∃ a, x = .ok a ∧ f a = b := by
  cases x
  case error => cases h
  case ok a  => exact ⟨a, rfl, Except.ok.inj h⟩

end RoverOS
