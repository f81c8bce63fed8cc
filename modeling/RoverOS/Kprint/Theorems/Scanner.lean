import RoverOS.Kprint.Basic

-- When the scanner of `kprintf` stays inside of the format.

namespace RoverOS.Kprint

-- What a format is made of.
inductive Piece
  | char (ch : Byte)
  | conversion (sizeModifier : Nat) (ch : Byte)

def Modifier (ch : Byte) : Prop :=
  ch = Kprint.char 'h' ∨ ch = Kprint.char 'l'

-- The last modifier counts.
def sizeOf (modifiers : List Byte) : Nat :=
  modifiers.foldl (fun _ m => if m = char 'h' then sizeofUint8 else sizeofUint64) sizeofInt

inductive Pieces : List Byte → List Piece → Prop
  | nil : Pieces [] []
  | char {ch : Byte} {rest : List Byte} {pieces : List Piece} :
    ch ≠ Kprint.char '%' → Pieces rest pieces → Pieces (ch :: rest) (.char ch :: pieces)
  | conversion {modifiers rest : List Byte} {ch : Byte} {pieces : List Piece} :
    (∀ m ∈ modifiers, Modifier m) → ¬Modifier ch → Pieces rest pieces →
    Pieces (Kprint.char '%' :: (modifiers ++ ch :: rest)) (.conversion (sizeOf modifiers) ch :: pieces)

-- Behind the pieces comes a `%` that no conversion follows, only modifiers.
def CutOff (str : List Byte) (pieces : List Piece) : Prop :=
  ∃ whole modifiers, Pieces whole pieces ∧ (∀ m ∈ modifiers, Modifier m) ∧
    str = whole ++ char '%' :: modifiers

-- The pieces of a format. An unfinished conversion is none.
def Parsed (str : List Byte) (pieces : List Piece) : Prop :=
  Pieces str pieces ∨ CutOff str pieces

-- What a piece adds to the output, after some of the arguments have been taken.
def Piece.print (args : Args) (s : Console × Nat) : Piece → Except Exit (Console × Nat)
  | .char ch                    => .ok (kprintChar ch s.1, s.2)
  | .conversion sizeModifier ch => do
    let r ← convert args sizeModifier ch (args.arg s.2) s.1
    return (r.1, s.2 + r.2)

-- The call comes to its end, and has printed the pieces of the format one after the other.
def PrintsPieces (args : Args) (func : CString.Short) (level : Nat) (str : CString) (s : Console) : Prop :=
  ∃ pieces s', Parsed str.chars pieces ∧ kprintf args func level str s = .ok s' ∧
    (pieces.foldlM (Piece.print args) (header func level s, 0)).map Prod.fst = .ok s'

-- The format does not end in the middle of a conversion, and an `int` can count its characters.
def Finished (str : List Byte) : Prop :=
  (∀ pieces, ¬CutOff str pieces) ∧ str.length < 2 ^ 31

section Grammar

variable {str rest modifiers : List Byte} {ch : Byte}

-- Behind a `%` come modifiers, and then the conversion if there is one.
theorem split_modifiers (str : List Byte) : (∀ m ∈ str, Modifier m) ∨
    ∃ modifiers ch rest, (∀ m ∈ modifiers, Modifier m) ∧ ¬Modifier ch ∧ str = modifiers ++ ch :: rest := by
  induction str
  case nil => exact .inl (by simp)
  case cons ch str hind =>
    by_cases hm : Modifier ch
    case neg => exact .inr ⟨[], ch, str, by simp, hm, rfl⟩
    case pos =>
      rcases hind with hall | ⟨modifiers, ch', rest, hms, hn, he⟩
      case inl => exact .inl (by simpa [hm] using hall)
      case inr => exact .inr ⟨ch :: modifiers, ch', rest, by simpa [hm] using hms, hn, by rw [he]; rfl⟩

variable {pieces : List Piece}

theorem Parsed.char (hc : ch ≠ Kprint.char '%') (h : Parsed rest pieces) :
    Parsed (ch :: rest) (.char ch :: pieces) := by
  rcases h with h | ⟨whole, modifiers, h, hm, he⟩
  case inl => exact .inl (h.char hc)
  case inr => exact .inr ⟨ch :: whole, modifiers, h.char hc, hm, by rw [he]; rfl⟩

theorem Parsed.conversion (hm : ∀ m ∈ modifiers, Modifier m) (hc : ¬Modifier ch) (h : Parsed rest pieces) :
    Parsed (Kprint.char '%' :: (modifiers ++ ch :: rest)) (.conversion (sizeOf modifiers) ch :: pieces) := by
  rcases h with h | ⟨whole, modifiers', h, hm', he⟩
  case inl => exact .inl (h.conversion hm hc)
  case inr =>
    refine .inr ⟨Kprint.char '%' :: (modifiers ++ ch :: whole), modifiers', h.conversion hm hc, hm', ?_⟩
    rw [he]
    simp

-- Every format is made of pieces, up to an unfinished conversion at its end.
theorem exists_parsed (str : List Byte) : ∃ pieces, Parsed str pieces := by
  induction hn : str.length using Nat.strong_induction_on generalizing str
  case _ n hind =>
    cases str
    case nil => exact ⟨[], .inl .nil⟩
    case cons ch rest =>
      rw [List.length_cons] at hn
      by_cases hc : ch = Kprint.char '%'
      case neg =>
        obtain ⟨pieces, hp⟩ := hind rest.length (by omega) rest rfl
        exact ⟨_, hp.char hc⟩
      case pos =>
        rw [hc]
        rcases split_modifiers rest with hm | ⟨modifiers, ch', rest', hm, hc', he⟩
        case inl => exact ⟨[], .inr ⟨[], rest, .nil, hm, rfl⟩⟩
        case inr =>
          have hlt : rest'.length < n := by
            rw [he] at hn
            simp only [List.length_append, List.length_cons] at hn
            omega
          obtain ⟨pieces, hp⟩ := hind rest'.length hlt rest' rfl
          exact ⟨_, he ▸ hp.conversion hm hc'⟩

end Grammar

section Scan

variable {args : Args} {sc sc' : Scanner} {str rest modifiers : List Byte} {ch : Byte}
variable {pieces : List Piece}

-- The state between two pieces, in front of a `str` that `int` has room for.
structure Scanner.Between (sc : Scanner) (str : List Byte) : Prop where
  outside : sc.inside = false
  size    : sc.sizeModifier = sizeofInt
  room    : sc.i + str.length < 2 ^ 31

theorem begin_between (console : Console) (h : str.length < 2 ^ 31) :
    Scanner.Between { console, i := 0, inside := false, sizeModifier := sizeofInt, arg := 0 } str where
  outside := rfl
  size    := rfl
  room    := by rw [Nat.zero_add]; exact h

theorem next_of_lt {i : Nat} (h : i + 1 < 2 ^ 31) : next i = .ok (i + 1) := if_pos h

theorem scanChar_char (h : sc.Between (ch :: rest)) (hc : ch ≠ char '%') :
    scanChar args sc ch = .ok { sc with console := kprintChar ch sc.console, i := sc.i + 1 } := by
  have hroom := h.room
  rw [List.length_cons] at hroom
  simp only [scanChar, next_of_lt (by omega : sc.i + 1 < 2 ^ 31), h.outside, if_neg hc]
  rfl

theorem scanChar_percent (args : Args) (h : sc.Between (char '%' :: rest)) :
    scanChar args sc (char '%') = .ok { sc with i := sc.i + 1, inside := true } := by
  have hroom := h.room
  rw [List.length_cons] at hroom
  simp only [scanChar, next_of_lt (by omega : sc.i + 1 < 2 ^ 31), h.outside]
  rfl

-- The modifiers behind a `%` only change the size of its argument.
theorem scan_modifiers (args : Args) (sc : Scanner) (hi : sc.inside = true) (hr : sc.i + modifiers.length < 2 ^ 31)
    (hm : ∀ m ∈ modifiers, Modifier m) :
    modifiers.foldlM (scanChar args) sc = .ok { sc with
      i := sc.i + modifiers.length
      sizeModifier := modifiers.foldl (fun _ m => if m = char 'h' then sizeofUint8 else sizeofUint64) sc.sizeModifier } := by
  induction modifiers generalizing sc
  case nil => rfl
  case cons m ms hind =>
    rw [List.length_cons] at hr
    have hstep : scanChar args sc m = .ok { sc with
        i := sc.i + 1
        sizeModifier := if m = char 'h' then sizeofUint8 else sizeofUint64 } := by
      simp only [scanChar, next_of_lt (by omega : sc.i + 1 < 2 ^ 31), hi]
      rcases hm m (by simp) with rfl | rfl <;> rfl
    rw [List.foldlM_cons, hstep]
    have htail := hind { sc with
        i := sc.i + 1
        sizeModifier := if m = char 'h' then sizeofUint8 else sizeofUint64 } hi (by dsimp only; omega)
      (fun m' h' => hm m' (List.mem_cons_of_mem m h'))
    refine htail.trans ?_
    rw [List.length_cons, Nat.add_comm ms.length 1, ← Nat.add_assoc]
    rfl

theorem scanChar_conversion (sc : Scanner) {r : Console × Nat} (hi : sc.inside = true) (hr : sc.i + 1 < 2 ^ 31)
    (hc : ¬Modifier ch) (hconv : convert args sc.sizeModifier ch (args.arg sc.arg) sc.console = .ok r) :
    scanChar args sc ch = .ok
      { console := r.1, i := sc.i + 1, inside := false, sizeModifier := sizeofInt, arg := sc.arg + r.2 } := by
  obtain ⟨hh, hl⟩ := not_or.mp hc
  simp only [scanChar, next_of_lt hr, hi, if_neg hh, if_neg hl, hconv]
  rfl

-- The scanner gets through the pieces of a format, and prints each of them once.
theorem scan_pieces (args : Args) (sc : Scanner) (h : Pieces str pieces) (hb : sc.Between (str ++ rest)) :
    ∃ sc', str.foldlM (scanChar args) sc = .ok sc' ∧ sc'.Between rest ∧
      pieces.foldlM (Piece.print args) (sc.console, sc.arg) = .ok (sc'.console, sc'.arg) := by
  induction h generalizing sc
  case nil => exact ⟨sc, rfl, hb, rfl⟩
  case char ch str pieces hc _ hind =>
    have hroom := hb.room
    rw [List.cons_append, List.length_cons] at hroom
    obtain ⟨sc', hok, hb', hp⟩ := hind
      { sc with console := kprintChar ch sc.console, i := sc.i + 1 }
      ⟨hb.outside, hb.size, by dsimp only; omega⟩
    refine ⟨sc', ?_, hb', hp⟩
    rw [List.foldlM_cons, scanChar_char hb hc]
    exact hok
  case conversion modifiers str ch pieces hm hc _ hind =>
    have hroom := hb.room
    simp only [List.cons_append, List.append_assoc, List.length_cons, List.length_append] at hroom
    obtain ⟨r, hr⟩ := convert_total args (sizeOf modifiers) ch (args.arg sc.arg) sc.console
    have hper := scanChar_percent args hb
    have hmod := scan_modifiers args { sc with i := sc.i + 1, inside := true } rfl
      (by dsimp only; omega) hm
    dsimp only at hmod
    rw [hb.size] at hper hmod
    have hcon := scanChar_conversion
      { sc with i := sc.i + 1 + modifiers.length, inside := true, sizeModifier := sizeOf modifiers }
      rfl (by dsimp only; omega) hc hr
    obtain ⟨sc', hok, hb', hp⟩ := hind
      { console := r.1, i := sc.i + 1 + modifiers.length + 1, inside := false,
        sizeModifier := sizeofInt, arg := sc.arg + r.2 }
      ⟨rfl, rfl, by dsimp only; rw [List.length_append]; omega⟩
    refine ⟨sc', ?_, hb', ?_⟩
    case refine_1 =>
      rw [List.foldlM_cons, hper]
      refine (List.foldlM_append ..).trans ?_
      rw [hmod]
      change List.foldlM (scanChar args) _ (ch :: str) = _
      rw [List.foldlM_cons, ← sizeOf, hcon]
      exact hok
    case refine_2 =>
      rw [List.foldlM_cons, Piece.print, hr]
      exact hp

-- An unfinished conversion is left open.
theorem scan_cutOff (hb : sc.Between (char '%' :: modifiers)) (hm : ∀ m ∈ modifiers, Modifier m) :
    ∃ sc', (char '%' :: modifiers).foldlM (scanChar args) sc = .ok sc' ∧ sc'.inside = true := by
  have hroom := hb.room
  rw [List.length_cons] at hroom
  have hmod := scan_modifiers args { sc with i := sc.i + 1, inside := true } rfl
    (by dsimp only; omega) hm
  rw [List.foldlM_cons, scanChar_percent args hb]
  exact ⟨_, hmod, rfl⟩

theorem scanChar_i (h : scanChar args sc ch = .ok sc') : sc'.i = sc.i + 1 ∧ sc'.i < 2 ^ 31 := by
  obtain ⟨i, hi, h⟩ := Except.bind_ok_iff.mp h
  rw [next] at hi
  split_ifs at hi with hlt
  cases hi
  have hs : sc'.i = sc.i + 1 := by
    split_ifs at h
    case pos => cases h; rfl
    case pos => cases h; rfl
    case neg =>
      obtain ⟨r, _, h⟩ := Except.bind_ok_iff.mp h
      cases h
      rfl
    case pos => cases h; rfl
    case neg => cases h; rfl
  exact ⟨hs, hs ▸ hlt⟩

-- The scanner gets as far as an `int` counts.
theorem scan_length (h : str.foldlM (scanChar args) sc = .ok sc') (hi : sc.i < 2 ^ 31) :
    sc.i + str.length < 2 ^ 31 := by
  induction str generalizing sc
  case nil => exact hi
  case cons ch rest hind =>
    obtain ⟨sc₁, h₁, h⟩ := Except.bind_ok_iff.mp h
    obtain ⟨he, hlt⟩ := scanChar_i h₁
    have := hind h hlt
    rw [List.length_cons]
    omega

end Scan

-- A `%` without a conversion takes the NUL for one, and the character behind it is read.
theorem kprintf_prints_iff (args : Args) (func : CString.Short) (level : Nat) (str : CString) (s : Console) :
    PrintsPieces args func level str s ↔ Finished str.chars := by
  constructor
  case mp =>
    rintro ⟨_, s', _, hok, _⟩
    obtain ⟨sc, hscan, hnul⟩ := Except.bind_ok_iff.mp hok
    have hlen := scan_length hscan (Nat.two_pow_pos 31)
    rw [Nat.zero_add] at hlen
    refine ⟨?_, hlen⟩
    rintro pieces ⟨whole, modifiers, hp, hm, he⟩
    rw [he] at hscan hlen
    obtain ⟨sc₁, h₁, hb, _⟩ := scan_pieces args _ hp (begin_between _ hlen)
    obtain ⟨sc₂, h₂, hinside⟩ := scan_cutOff hb hm
    rw [List.foldlM_append, h₁] at hscan
    have hsc : sc₂ = sc := Except.ok.inj (h₂.symm.trans hscan)
    rw [atNul, ← hsc, hinside] at hnul
    cases hnul
  case mpr =>
    rintro ⟨hc, hlen⟩
    obtain ⟨pieces, hp | hcut⟩ := exists_parsed str.chars
    case inr => exact absurd hcut (hc pieces)
    case inl =>
      have hb := begin_between (header func level s) hlen
      rw [← List.append_nil str.chars] at hb
      obtain ⟨sc, hscan, hb', hprint⟩ := scan_pieces args _ hp hb
      refine ⟨pieces, sc.console, .inl hp, ?_, ?_⟩
      case refine_1 =>
        refine Except.bind_ok_iff.mpr ⟨sc, hscan, ?_⟩
        rw [atNul, hb'.outside]
        rfl
      case refine_2 =>
        rw [hprint]
        rfl

section Percent

theorem percent_nonzero : 0 ∉ [char 'a', char '%'] := by decide

-- `a%`
def percentFormat : CString where
  chars   := [char 'a', char '%']
  nonzero := percent_nonzero

theorem percentFormat_not_printed : ¬PrintsPieces noArgs emptyString DLEVEL_NONE percentFormat boot := by
  have h : kprintf noArgs emptyString DLEVEL_NONE percentFormat boot = .error .fault := rfl
  rintro ⟨_, s', _, hok, _⟩
  rw [h] at hok
  cases hok

end Percent

end RoverOS.Kprint
