import RoverOS.Basic

-- `kprintf.c`: the characters that the kernel sends to the debug port.

namespace RoverOS.Kprint

abbrev Byte := BitVec 8

-- The buffer of `writeUint`, and what has been sent.
structure Console where
  revbuff : Vector Byte 20
  out     : List Byte

-- The bytes in front of a NUL.
structure CString where
  chars   : List Byte
  nonzero : 0 ∉ chars

-- The ones that an `int` can count.
structure CString.Short extends CString where
  short : chars.length < 2 ^ 31

-- The kernel's data is zero when it starts.
def boot : Console where
  revbuff := .replicate 20 0
  out     := []

def char (c : Char) : Byte := BitVec.ofNat 8 c.toNat

def kprintChar (ch : Byte) (s : Console) : Console :=
  { s with out := s.out ++ [ch] }

def kprintString (str : CString.Short) (s : Console) : Console :=
  str.chars.foldl (fun s ch => kprintChar ch s) s

section Hex

def CAP_MASK : Byte := 0xDF

def nibbleChar (caps : Bool) (nibble : Byte) : Byte :=
  if nibble ≥ 0xA then
    let ch := nibble + 87
    if caps then ch &&& CAP_MASK else ch
  else nibble ||| 0x30

variable (num : Word) (bits : Nat) (caps : Bool)

-- `for(int i = 0;i < bits;i+=4)`, with `n` nibbles to go, and what stands behind the loop.
def hexLoop : Nat → Nat → Word → Bool → Console → Console
  | 0,     _, _,    leading, s => if leading then kprintChar (char '0') s else s
  | n + 1, i, mask, leading, s =>
    let nibble := ((num &&& mask) >>> (bits - (i + 4))).setWidth 8
    let mask := mask >>> 4
    if leading ∧ nibble = 0 then hexLoop n (i + 4) mask leading s
    else hexLoop n (i + 4) mask false (kprintChar (nibbleChar caps nibble) s)

-- Only defined for 1 to 8 bytes, as the mask is shifted by less than its width.
def writeHex (num : Word) (bytes : Nat) (caps : Bool) (s : Console) : Console :=
  let bits := bytes * 8
  let mask := (0xF000000000000000 : Word) >>> (64 - bits)
  hexLoop num bits caps (bits / 4) 0 mask true s

end Hex

section Decimal

-- `while(val != 0)`, with `n` characters of the buffer to go. Behind them ends the buffer.
def digitLoop : Nat → Nat → Word → Vector Byte 20 → Except Exit (Nat × Vector Byte 20)
  | 0,     idx, val, revbuff => if val = 0 then .ok (idx, revbuff) else .error .fault
  | n + 1, idx, val, revbuff =>
    if val = 0 then .ok (idx, revbuff)
    else
      let rem := val % 10
      digitLoop n (idx + 1) (val - rem) (revbuff.setIfInBounds idx (rem.setWidth 8 ||| 0x30))

-- `while(idx)`
def replayLoop : Nat → Console → Except Exit Console
  | 0,       s => .ok s
  | idx + 1, s =>
    match s.revbuff[idx + 1]? with
    | none    => .error .fault
    | some ch => replayLoop idx (kprintChar ch s)

def writeUint (val : Word) (s : Console) : Except Exit Console :=
  if val = 0 then .ok (kprintChar (char '0') s)
  else if val > 9 then .ok (kprintChar (val.setWidth 8 ||| char '0') s)
  else do
    let r ← digitLoop 20 0 val s.revbuff
    replayLoop r.1 { s with revbuff := r.2 }

-- The smallest number is its own negative.
def writeInt (val : Word) (s : Console) : Except Exit Console :=
  if val.slt 0 then writeUint (-val) (kprintChar (char '-') s) else writeUint val s

end Decimal

section Format

def DLEVEL_INFO  : Nat := 1
def DLEVEL_WARN  : Nat := 2
def DLEVEL_ERROR : Nat := 3
def DLEVEL_FATAL : Nat := 4
def DLEVEL_NONE  : Nat := 5

def dchar (level : Nat) : Byte :=
  if level = DLEVEL_INFO then char 'i'
  else if level = DLEVEL_WARN then char 'w'
  else if level = DLEVEL_ERROR then char 'e'
  else if level = DLEVEL_FATAL then char 'f'
  else char 'g'

def header (func : CString.Short) (level : Nat) (s : Console) : Console :=
  if level = DLEVEL_NONE then s
  else
    let s := kprintString func s
    let s := kprintChar (char '[') s
    let s := kprintChar (dchar level) s
    let s := kprintChar (char ']') s
    kprintChar (char ':') s

-- The arguments behind the format. What `text` says of an address is the string there.
structure Args where
  arg  : Nat → Word
  text : Word → CString.Short

theorem empty_short : ([] : List Byte).length < 2 ^ 31 := by decide

def emptyString : CString.Short where
  chars   := []
  nonzero := List.not_mem_nil
  short   := empty_short

-- There are none.
def noArgs : Args where
  arg  := fun _ => 0
  text := fun _ => emptyString

def sizeofInt    : Nat := 4
def sizeofUint8  : Nat := 1
def sizeofUint64 : Nat := 8

-- `str[i]` is the next character, `inside` says that it belongs to a conversion, and `arg` arguments
-- have been taken.
structure Scanner where
  console      : Console
  i            : Nat
  inside       : Bool
  sizeModifier : Nat
  arg          : Nat

variable (args : Args)

-- What a conversion prints of the argument, and how many arguments it takes.
def convert (sizeModifier : Nat) (ch : Byte) (arg : Word) (s : Console) : Except Exit (Console × Nat) :=
  let int := (arg.setWidth 32).setWidth 64
  if ch = char 'i' then do
    let s ← writeInt (if sizeModifier = sizeofUint64 then arg else int) s
    return (s, 1)
  else if ch = char 'X' then .ok (writeHex arg sizeModifier true s, 1)
  else if ch = char 'x' then .ok (writeHex arg sizeModifier false s, 1)
  else if ch = char 'c' then .ok (kprintChar (arg.setWidth 8) s, 1)
  else if ch = char 's' then .ok (kprintString (args.text arg) s, 1)
  else if ch = char 'u' then do
    let s ← writeUint (if sizeModifier = sizeofUint64 then arg else int) s
    return (s, 1)
  else .ok (s, 0)

-- `++i`, the overflow of which is undefined.
def next (i : Nat) : Except Exit Nat :=
  if i + 1 < 2 ^ 31 then .ok (i + 1) else .error .fault

-- What is done for one character of the format.
def scanChar (s : Scanner) (ch : Byte) : Except Exit Scanner := do
  let i ← next s.i
  if s.inside then
    if ch = char 'h' then return { s with i, sizeModifier := sizeofUint8 }
    else if ch = char 'l' then return { s with i, sizeModifier := sizeofUint64 }
    else do
      let r ← convert args s.sizeModifier ch (args.arg s.arg) s.console
      return { console := r.1, i, inside := false, sizeModifier := sizeofInt, arg := s.arg + r.2 }
  else if ch = char '%' then return { s with i, inside := true }
  else return { s with console := kprintChar ch s.console, i }

-- The NUL ends the loop, but it is skipped as a conversion that prints nothing. Then the character behind
-- it is read.
def atNul (s : Scanner) : Except Exit Console :=
  if s.inside then .error .fault else .ok s.console

def kprintf (func : CString.Short) (level : Nat) (str : CString) (s : Console) : Except Exit Console := do
  let scanner ← str.chars.foldlM (scanChar args)
    { console := header func level s, i := 0, inside := false, sizeModifier := sizeofInt, arg := 0 }
  atNul scanner

end Format

section Returns

variable {s : Console} {val : Word} {n idx size : Nat} {args : Args} {ch : Byte} {arg : Word}

theorem digitLoop_zero {revbuff : Vector Byte 20} : digitLoop n idx 0 revbuff = .ok (idx, revbuff) := by
  cases n
  case zero   => exact if_pos rfl
  case succ n => exact if_pos rfl

-- The one digit is stored in front of the character that is replayed.
theorem digitLoop_digit (hz : val ≠ 0) (hv : val ≤ 9) (revbuff : Vector Byte 20) :
    digitLoop 20 0 val revbuff = .ok (1, revbuff.setIfInBounds 0 (val.setWidth 8 ||| 0x30)) := by
  have hrem : val % 10 = val := by
    apply BitVec.eq_of_toNat_eq
    rw [BitVec.toNat_umod]
    exact Nat.mod_eq_of_lt (Nat.lt_succ_of_le (BitVec.le_def.mp hv))
  rw [digitLoop, if_neg hz]
  dsimp only
  rw [hrem, BitVec.sub_self]
  exact digitLoop_zero

theorem writeUint_digit (hz : val ≠ 0) (hv : val ≤ 9) : ∃ s', writeUint val s = .ok s' ∧
    s'.out = s.out ++ [s.revbuff[1]] ∧ s'.revbuff[1] = s.revbuff[1] := by
  have hset : ∀ ch, (s.revbuff.setIfInBounds 0 ch)[1] = s.revbuff[1] :=
    fun _ => Vector.getElem_setIfInBounds_ne _ (by decide)
  generalize hrev : s.revbuff.setIfInBounds 0 (val.setWidth 8 ||| 0x30) = revbuff
  have hone : revbuff[1] = s.revbuff[1] := hrev ▸ hset _
  refine ⟨{ revbuff, out := s.out ++ [s.revbuff[1]] }, ?_, rfl, hone⟩
  rw [writeUint, if_neg hz, if_neg (BitVec.not_lt.mpr hv), digitLoop_digit hz hv, hrev]
  have hget : revbuff[0 + 1]? = some s.revbuff[1] := by
    rw [Vector.getElem?_eq_getElem (by decide), hone]
  simp only [bind, Except.bind, replayLoop, hget]
  rfl

theorem writeUint_total (val : Word) (s : Console) : ∃ s', writeUint val s = .ok s' := by
  by_cases hz : val = 0
  case pos => exact ⟨_, if_pos hz⟩
  case neg =>
    by_cases hv : val > 9
    case pos => exact ⟨_, (if_neg hz).trans (if_pos hv)⟩
    case neg =>
      obtain ⟨s', hok, _⟩ := writeUint_digit (s := s) hz (BitVec.not_lt.mp hv)
      exact ⟨s', hok⟩

theorem writeInt_total (val : Word) (s : Console) : ∃ s', writeInt val s = .ok s' := by
  rw [writeInt]
  split_ifs
  case pos => exact writeUint_total _ _
  case neg => exact writeUint_total _ _

-- What a conversion may have printed.
theorem convert_ok {r : Console × Nat} (h : convert args size ch arg s = .ok r) :
    (∃ v, writeInt v s = .ok r.1) ∨ (∃ caps, r.1 = writeHex arg size caps s) ∨
    r.1 = kprintChar (arg.setWidth 8) s ∨ r.1 = kprintString (args.text arg) s ∨
    (∃ v, writeUint v s = .ok r.1) ∨ r.1 = s := by
  rw [convert] at h
  generalize (if size = sizeofUint64 then arg else (arg.setWidth 32).setWidth 64) = v at h
  split_ifs at h
  case pos =>
    obtain ⟨s', hw, hr⟩ := Except.bind_ok_iff.mp h
    cases hr
    exact .inl ⟨_, hw⟩
  case pos => cases h; exact .inr <| .inl ⟨_, rfl⟩
  case pos => cases h; exact .inr <| .inl ⟨_, rfl⟩
  case pos => cases h; exact .inr <| .inr <| .inl rfl
  case pos => cases h; exact .inr <| .inr <| .inr <| .inl rfl
  case pos =>
    obtain ⟨s', hw, hr⟩ := Except.bind_ok_iff.mp h
    cases hr
    exact .inr <| .inr <| .inr <| .inr <| .inl ⟨_, hw⟩
  case neg => cases h; exact .inr <| .inr <| .inr <| .inr <| .inr rfl

theorem convert_total (args : Args) (size : Nat) (ch : Byte) (arg : Word) (s : Console) :
    ∃ r, convert args size ch arg s = .ok r := by
  rw [convert]
  generalize (if size = sizeofUint64 then arg else (arg.setWidth 32).setWidth 64) = v
  obtain ⟨si, hi⟩ := writeInt_total v s
  obtain ⟨su, hu⟩ := writeUint_total v s
  rw [hi, hu]
  split_ifs <;> exact ⟨_, rfl⟩

end Returns

end RoverOS.Kprint
