import Mathlib

-- A stack of words of 8 bytes that grows down in a memory of 64-bit addresses.

open Function (update update_self update_of_ne)

structure Stack (V : Type) where
  sp  : BitVec 64
  mem : BitVec 64 → V

namespace Stack

variable {V : Type} {s s' : Stack V} {v : V} {vs ws : List V} {i n : Nat}

-- Where the `i`th word from the top is.
def slot (sp : BitVec 64) (i : Nat) : BitVec 64 := sp + BitVec.ofNat 64 (8 * i)

def push (v : V) (s : Stack V) : Stack V where
  sp  := s.sp - 8
  mem := update s.mem (s.sp - 8) v

def top (s : Stack V) : V := s.mem s.sp

def drop (s : Stack V) : Stack V :=
  { s with sp := s.sp + 8 }

-- The words on the top, the uppermost one first.
def Holds (s : Stack V) (vs : List V) : Prop :=
  ∀ i (h : i < vs.length), s.mem (slot s.sp i) = vs[i]

@[simp]
theorem slot_zero (sp : BitVec 64) : slot sp 0 = sp := by
  simp [slot]

theorem slot_succ (sp : BitVec 64) (i : Nat) : slot (sp + 8) i = slot sp (i + 1) := by
  rw [slot, slot, Nat.mul_add, Nat.add_comm, BitVec.ofNat_add, BitVec.add_assoc]
  rfl

theorem slot_sub (sp : BitVec 64) (i : Nat) : slot (sp - 8) (i + 1) = slot sp i := by
  rw [← slot_succ, BitVec.sub_add_cancel]

-- The address space is larger than any stack.
theorem slot_ne {sp : BitVec 64} (hi : i + 1 < 2 ^ 61) : slot sp i ≠ sp - 8 := by
  intro h
  rw [slot] at h
  bv_omega

section Holds

theorem Holds.nil : s.Holds [] := by
  intro i h
  cases h

theorem Holds.push (h : s.Holds vs) (hl : vs.length < 2 ^ 61) : (s.push v).Holds (v :: vs) := by
  intro i hi
  cases i
  case zero   => simp [Stack.push]
  case succ i =>
    have hi' : i < vs.length := Nat.lt_of_succ_lt_succ hi
    have hne : slot s.sp i ≠ s.sp - 8 := slot_ne (by omega)
    simp only [Stack.push, slot_sub, update_of_ne hne]
    exact h i hi'

theorem Holds.top (h : s.Holds (v :: vs)) : s.top = v := by
  have h₀ := h 0 (Nat.zero_lt_succ _)
  rw [slot_zero] at h₀
  exact h₀

theorem Holds.drop (h : s.Holds (v :: vs)) : s.drop.Holds vs := by
  intro i hi
  have hs := h (i + 1) (Nat.succ_lt_succ hi)
  rw [← slot_succ] at hs
  exact hs

-- Only the memory of the words counts.
theorem Holds.congr (h : s.Holds vs) (hsp : s'.sp = s.sp)
    (hm : ∀ i < vs.length, s'.mem (slot s.sp i) = s.mem (slot s.sp i)) : s'.Holds vs := by
  intro i hi
  rw [hsp, hm i hi]
  exact h i hi

end Holds

end Stack
