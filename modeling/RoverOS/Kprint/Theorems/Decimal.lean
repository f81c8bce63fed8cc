import RoverOS.Kprint.Basic
import RoverOS.Library.Numeral
import RoverOS.Library.Run

-- Which decimal numbers are printed as they are.

open Numeral (Denotes)
open Run (Steps)

namespace RoverOS.Kprint

def decDigits : List Byte :=
  ['0', '1', '2', '3', '4', '5', '6', '7', '8', '9'].map char

-- `l` is the decimal representation of `v`.
def Decimal (l : List Byte) (v : Int) : Prop :=
  if v < 0 then ∃ l', l = char '-' :: l' ∧ Denotes decDigits l' v.natAbs
  else Denotes decDigits l v.natAbs

-- The functions that print to the debug port.
inductive Call
  | char (ch : Byte)
  | string (str : CString.Short)
  | hex (num : Word) (bytes : Nat) (caps : Bool)
  | uint (val : Word)
  | int (val : Word)
  | kprintf (args : Args) (func : CString.Short) (level : Nat) (str : CString)

namespace Call

def run (s : Console) : Call → Except Exit Console
  | .char ch                     => .ok (kprintChar ch s)
  | .string str                  => .ok (kprintString str s)
  | .hex num bytes caps          => .ok (writeHex num bytes caps s)
  | .uint val                    => writeUint val s
  | .int val                     => writeInt val s
  | .kprintf args func level str => Kprint.kprintf args func level str s

def Step (s : Console) (call : Call) (s' : Console) : Prop :=
  call.run s = .ok s'

end Call

-- Reached from the kernel's start by any calls.
def Reached (s : Console) : Prop :=
  Steps Call.Step (fun _ _ => True) boot s

-- A number that is printed in decimal, by one of the two functions or by a conversion of `kprintf`.
inductive Number
  | uint (val : Word)
  | int (val : Word)
  | percentU (sizeModifier : Nat) (arg : Word)
  | percentI (sizeModifier : Nat) (arg : Word)

namespace Number

def print (args : Args) (s : Console) : Number → Except Exit Console
  | .uint val                  => writeUint val s
  | .int val                   => writeInt val s
  | .percentU sizeModifier arg => (convert args sizeModifier (char 'u') arg s).map Prod.fst
  | .percentI sizeModifier arg => (convert args sizeModifier (char 'i') arg s).map Prod.fst

-- An argument is an `int` or an `unsigned int` unless it is said to be long.
def value : Number → Int
  | .uint val                  => val.toNat
  | .int val                   => val.toInt
  | .percentU sizeModifier arg => if sizeModifier = sizeofUint64 then arg.toNat else (arg.setWidth 32).toNat
  | .percentI sizeModifier arg => if sizeModifier = sizeofUint64 then arg.toInt else (arg.setWidth 32).toInt

-- The number is printed, its decimal representation and nothing else.
def Printed (args : Args) (s : Console) (n : Number) : Prop :=
  ∃ s' l, n.print args s = .ok s' ∧ s'.out = s.out ++ l ∧ Decimal l n.value

end Number

-- The second character of the buffer is still the one that the kernel started with.
def Fresh (s : Console) : Prop := s.revbuff[1]? = some 0

namespace Fresh

variable {s s' : Console} {num val : Word} {bits n i bytes : Nat} {mask : Word} {caps leading : Bool}

theorem boot : Fresh boot := rfl

theorem kprintChar {ch : Byte} (h : Fresh s) : Fresh (kprintChar ch s) := h

theorem kprintString {str : CString.Short} (h : Fresh s) : Fresh (kprintString str s) :=
  List.foldlRecOn (motive := Fresh) _ _ h fun _ h _ _ => h

theorem hexLoop (h : Fresh s) : Fresh (hexLoop num bits caps n i mask leading s) := by
  induction n generalizing i mask leading s
  case zero =>
    rw [Kprint.hexLoop]
    split_ifs <;> exact h
  case succ n hind =>
    rw [Kprint.hexLoop]
    split_ifs
    case pos => exact hind h
    case neg => exact hind h.kprintChar

theorem writeHex (h : Fresh s) : Fresh (writeHex num bytes caps s) :=
  h.hexLoop

-- One character is printed, whatever the number is.
theorem writeUint_one (val : Word) (h : Fresh s) :
    ∃ s' ch, writeUint val s = .ok s' ∧ s'.out = s.out ++ [ch] ∧ Fresh s' ∧
      (val = 0 → ch = char '0') ∧ (val ≠ 0 → ¬Denotes decDigits [ch] val.toNat) := by
  by_cases hz : val = 0
  case pos => exact ⟨_, char '0', if_pos hz, rfl, h, fun _ => rfl, fun hn => absurd hz hn⟩
  case neg =>
    by_cases hv : val > 9
    case pos =>
      refine ⟨_, _, (if_neg hz).trans (if_pos hv), rfl, h, fun he => absurd he hz, fun _ hd => ?_⟩
      have hlt : val.toNat < 10 := hd.of_singleton.right
      have hgt : 9 < val.toNat := hv
      omega
    case neg =>
      obtain ⟨s', hok, hout, hkept⟩ := writeUint_digit (s := s) hz (BitVec.not_lt.mp hv)
      have hzero : s.revbuff[1] = 0 := (Vector.getElem?_eq_some_iff.mp h).choose_spec
      rw [hzero] at hout
      have hf : Fresh s' := Vector.getElem?_eq_some_iff.mpr ⟨by decide, hkept.trans hzero⟩
      refine ⟨s', 0, hok, hout, hf, fun he => absurd he hz, fun _ hd => ?_⟩
      have hmem : (0 : Byte) ∉ decDigits := by decide
      exact hmem hd.of_singleton.left

theorem writeUint (hok : writeUint val s = .ok s') (h : Fresh s) : Fresh s' := by
  obtain ⟨s₂, ch, hok₂, _, hf, _⟩ := writeUint_one val h
  rw [hok] at hok₂
  cases hok₂
  exact hf

theorem writeInt (hok : writeInt val s = .ok s') (h : Fresh s) : Fresh s' := by
  rw [Kprint.writeInt] at hok
  split_ifs at hok
  case pos => exact writeUint hok h.kprintChar
  case neg => exact writeUint hok h

theorem convert {args : Args} {size : Nat} {ch : Byte} {arg : Word} {r : Console × Nat}
    (hok : convert args size ch arg s = .ok r) (h : Fresh s) : Fresh r.1 := by
  rcases convert_ok hok with ⟨v, hw⟩ | ⟨caps, hw⟩ | hw | hw | ⟨v, hw⟩ | hw
  case inl                         => exact writeInt hw h
  case inr.inl                     => exact hw ▸ h.writeHex
  case inr.inr.inl                 => exact hw ▸ h.kprintChar
  case inr.inr.inr.inl             => exact hw ▸ h.kprintString
  case inr.inr.inr.inr.inl         => exact writeUint hw h
  case inr.inr.inr.inr.inr         => exact hw ▸ h

theorem scanChar {args : Args} {sc sc' : Scanner} {ch : Byte} (hok : scanChar args sc ch = .ok sc')
    (h : Fresh sc.console) : Fresh sc'.console := by
  rw [Kprint.scanChar] at hok
  obtain ⟨i, _, hok⟩ := Except.bind_ok_iff.mp hok
  split_ifs at hok
  case pos => cases hok; exact h
  case pos => cases hok; exact h
  case neg =>
    obtain ⟨r, hr, hok⟩ := Except.bind_ok_iff.mp hok
    cases hok
    exact convert hr h
  case pos => cases hok; exact h
  case neg => cases hok; exact h.kprintChar

theorem scan {args : Args} {chars : List Byte} {sc sc' : Scanner}
    (hok : chars.foldlM (Kprint.scanChar args) sc = .ok sc') (h : Fresh sc.console) : Fresh sc'.console := by
  induction chars generalizing sc
  case nil =>
    cases hok
    exact h
  case cons ch rest hind =>
    obtain ⟨sc₁, h₁, hok⟩ := Except.bind_ok_iff.mp hok
    exact hind hok (scanChar h₁ h)

theorem header {func : CString.Short} {level : Nat} (h : Fresh s) : Fresh (header func level s) := by
  rw [Kprint.header]
  split_ifs
  case pos => exact h
  case neg => exact h.kprintString

theorem kprintf {args : Args} {func : CString.Short} {level : Nat} {str : CString}
    (hok : kprintf args func level str s = .ok s') (h : Fresh s) : Fresh s' := by
  obtain ⟨sc, hfold, hok⟩ := Except.bind_ok_iff.mp hok
  rw [atNul] at hok
  split_ifs at hok
  cases hok
  exact scan hfold h.header

theorem step {call : Call} (h : Fresh s) (hs : call.Step s s') : Fresh s' := by
  cases call
  case char                         => cases hs; exact h.kprintChar
  case string                       => cases hs; exact h.kprintString
  case hex                          => cases hs; exact h.writeHex
  case uint                         => exact writeUint hs h
  case int                          => exact writeInt hs h
  case kprintf args func level str  => exact kprintf hs h

theorem of_reached (h : Reached s) : Fresh s :=
  Steps.invariant (I := Fresh) h boot fun hf _ hs => hf.step hs

end Fresh

section Right

variable {args : Args} {s : Console} {ch : Byte} {l : List Byte} {v : Int}

theorem decimal_of_nonneg (hv : 0 ≤ v) : Decimal l v ↔ Denotes decDigits l v.natAbs := by
  rw [Decimal, if_neg (Int.not_lt.mpr hv)]

theorem decimal_zero : Decimal [char '0'] 0 := by
  rw [decimal_of_nonneg (by decide)]
  exact Numeral.denotes_singleton (by decide : char '0' ∈ decDigits)

-- A sign is not a number.
theorem not_decimal_singleton (hv : v < 0) : ¬Decimal [ch] v := by
  rw [Decimal, if_pos hv]
  rintro ⟨l', he, hd⟩
  exact hd.nonempty (List.cons.inj he).right.symm

-- `writeUint` prints one character, and so it is right about 0 only, whatever number it stands for.
theorem writeUint_decimal (h : Fresh s) (val : Word) (hv : 0 ≤ v → v.natAbs = val.toNat) (hz : v = 0 ↔ val = 0) :
    (∃ s' l, writeUint val s = .ok s' ∧ s'.out = s.out ++ l ∧ Decimal l v) ↔ v = 0 := by
  obtain ⟨s', ch, hok, hout, _, hzero, hne⟩ := h.writeUint_one val
  constructor
  case mp =>
    rintro ⟨s₂, l, hok₂, hout₂, hd⟩
    rw [hok] at hok₂
    cases hok₂
    rw [hout] at hout₂
    obtain rfl : [ch] = l := List.append_cancel_left hout₂
    by_contra hv₀
    rcases Int.lt_or_le v 0 with hlt | hle
    case inl => exact not_decimal_singleton hlt hd
    case inr =>
      rw [decimal_of_nonneg hle, hv hle] at hd
      exact hne (fun he => hv₀ (hz.mpr he)) hd
  case mpr =>
    intro hv₀
    refine ⟨s', [ch], hok, hout, ?_⟩
    rw [hzero (hz.mp hv₀), hv₀]
    exact decimal_zero

theorem slt_zero_iff (val : Word) : val.slt 0 = true ↔ val.toInt < 0 := by
  rw [BitVec.slt_iff_toInt_lt]
  rfl

theorem natAbs_toInt {w : Nat} {val : BitVec w} (h : 0 ≤ val.toInt) : val.toInt.natAbs = val.toNat := by
  have hb := val.isLt
  rw [BitVec.toInt_eq_toNat_cond] at h ⊢
  split_ifs at h ⊢ <;> omega

theorem natAbs_toInt_neg {val : Word} (h : val.toInt < 0) : val.toInt.natAbs = (-val).toNat := by
  have hb := val.isLt
  rw [BitVec.toNat_neg]
  rw [BitVec.toInt_eq_toNat_cond] at h ⊢
  split_ifs at h ⊢ <;> omega

theorem toInt_eq_zero_iff {w : Nat} (val : BitVec w) : val.toInt = 0 ↔ val = 0 := by
  constructor
  case mp =>
    intro h
    exact BitVec.eq_of_toInt_eq (h.trans BitVec.toInt_zero.symm)
  case mpr =>
    intro h
    rw [h]
    exact BitVec.toInt_zero

theorem writeInt_decimal (h : Fresh s) (val : Word) :
    (∃ s' l, writeInt val s = .ok s' ∧ s'.out = s.out ++ l ∧ Decimal l val.toInt) ↔ val.toInt = 0 := by
  rcases Int.lt_or_le val.toInt 0 with hlt | hle
  case inr =>
    rw [writeInt, if_neg (fun hs => Int.not_lt.mpr hle ((slt_zero_iff val).mp hs))]
    exact writeUint_decimal h val natAbs_toInt (toInt_eq_zero_iff val)
  case inl =>
    have hminus : Fresh (kprintChar (char '-') s) := h.kprintChar
    obtain ⟨s', ch, hok, hout, _, _, hne⟩ := hminus.writeUint_one (-val)
    have hz : -val ≠ 0 := by
      intro he
      have hn := natAbs_toInt_neg hlt
      rw [he] at hn
      exact Int.ne_of_lt hlt (Int.natAbs_eq_zero.mp hn)
    refine iff_of_false ?_ (Int.ne_of_lt hlt)
    rintro ⟨s₂, l, hok₂, hout₂, hd⟩
    rw [writeInt, if_pos ((slt_zero_iff val).mpr hlt), hok] at hok₂
    cases hok₂
    rw [hout, kprintChar, List.append_assoc] at hout₂
    obtain rfl : [char '-'] ++ [ch] = l := List.append_cancel_left hout₂
    rw [Decimal, if_pos hlt] at hd
    obtain ⟨l', he, hd⟩ := hd
    cases he
    rw [natAbs_toInt_neg hlt] at hd
    exact hne hz hd

variable {sizeModifier : Nat} {arg : Word}

theorem convert_u : (convert args sizeModifier (char 'u') arg s).map Prod.fst =
    writeUint (if sizeModifier = sizeofUint64 then arg else (arg.setWidth 32).setWidth 64) s := by
  rw [convert, if_neg (by decide), if_neg (by decide), if_neg (by decide), if_neg (by decide),
    if_neg (by decide), if_pos rfl]
  cases writeUint _ s <;> rfl

theorem convert_i : (convert args sizeModifier (char 'i') arg s).map Prod.fst =
    writeInt (if sizeModifier = sizeofUint64 then arg else (arg.setWidth 32).setWidth 64) s := by
  rw [convert, if_pos rfl]
  cases writeInt _ s <;> rfl

theorem toNat_int : ((arg.setWidth 32).setWidth 64).toNat = (arg.setWidth 32).toNat := by
  have hb := (arg.setWidth 32).isLt
  rw [BitVec.toNat_setWidth]
  exact Nat.mod_eq_of_lt (by omega)

theorem int_eq_zero_iff : (arg.setWidth 32).setWidth 64 = 0 ↔ arg.setWidth 32 = 0 := by
  rw [← BitVec.toNat_inj, toNat_int, ← BitVec.toNat_inj]
  rfl

theorem natCast_toNat_eq_zero_iff {w : Nat} (val : BitVec w) : (val.toNat : Int) = 0 ↔ val = 0 := by
  rw [Int.natCast_eq_zero, ← BitVec.toNat_inj]
  simp

-- An `int` is read as an `unsigned int`, so that a negative one has no sign.
theorem writeInt_int : writeInt ((arg.setWidth 32).setWidth 64) s = writeUint ((arg.setWidth 32).setWidth 64) s := by
  have hb := (arg.setWidth 32).isLt
  have hlt : 2 * ((arg.setWidth 32).setWidth 64).toNat < 2 ^ 64 := by
    rw [toNat_int]
    omega
  rw [writeInt, if_neg]
  rw [slt_zero_iff, BitVec.toInt_eq_toNat_of_lt hlt]
  exact Int.not_lt.mpr (Int.natCast_nonneg _)

end Right

-- A number is printed right exactly when it is 0: one between 1 and 9 is printed as a NUL, and one above
-- as a single character.
theorem printed_iff {args : Args} {s : Console} (h : Reached s) (n : Number) :
    n.Printed args s ↔ n.value = 0 := by
  have hf := Fresh.of_reached h
  cases n
  case uint val =>
    exact writeUint_decimal hf val (fun _ => Int.natAbs_natCast _) (natCast_toNat_eq_zero_iff val)
  case int val => exact writeInt_decimal hf val
  case percentU sizeModifier arg =>
    rw [Number.Printed, Number.print, convert_u, Number.value]
    split_ifs
    case pos => exact writeUint_decimal hf arg (fun _ => Int.natAbs_natCast _) (natCast_toNat_eq_zero_iff arg)
    case neg =>
      refine writeUint_decimal hf _ (fun _ => ?_) ((natCast_toNat_eq_zero_iff _).trans int_eq_zero_iff.symm)
      rw [Int.natAbs_natCast, toNat_int]
  case percentI sizeModifier arg =>
    rw [Number.Printed, Number.print, convert_i, Number.value]
    split_ifs
    case pos => exact writeInt_decimal hf arg
    case neg =>
      rw [writeInt_int]
      refine writeUint_decimal hf _ (fun hv => ?_) ((toInt_eq_zero_iff _).trans int_eq_zero_iff.symm)
      rw [natAbs_toInt hv, toNat_int]

section Numbers

-- 5 is printed as a NUL, and 42 as `:`.
theorem five_not_printed :
    ¬(Number.uint 5).Printed noArgs boot ∧ ¬(Number.percentU sizeofInt 42).Printed noArgs boot := by
  constructor
  case left =>
    intro h
    have hz := (writeUint_decimal Fresh.boot 5 (v := 5) (fun _ => rfl) (by decide)).mp h
    cases hz
  case right =>
    intro h
    rw [Number.Printed, Number.print, convert_u] at h
    have hz := (writeUint_decimal Fresh.boot 42 (v := 42) (fun _ => rfl) (by decide)).mp h
    cases hz

theorem zero_printed : (Number.uint 0).Printed noArgs boot :=
  (printed_iff (Steps.refl boot) (Number.uint 0)).mpr rfl

end Numbers

end RoverOS.Kprint
