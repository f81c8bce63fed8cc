import RoverOS.Kprint.Theorems.Decimal
import RoverOS.Kprint.Theorems.Hex
import RoverOS.Kprint.Theorems.Scanner

-- What a whole call of `kprintf` prints, and when it is what the format and its arguments say.

open Numeral (Denotes)

namespace RoverOS.Kprint

section Meaning

variable (args : Args)

-- What a piece stands for, with `arg` as its argument.
def Piece.Shows (arg : Word) (l : List Byte) : Piece → Prop
  | .char ch            => l = [ch]
  | .conversion size ch =>
    if ch = Kprint.char 'i' then Decimal l (Number.percentI size arg).value
    else if ch = Kprint.char 'X' then Denotes (hexDigits true) l (arg.toNat % 2 ^ (8 * size))
    else if ch = Kprint.char 'x' then Denotes (hexDigits false) l (arg.toNat % 2 ^ (8 * size))
    else if ch = Kprint.char 'c' then l = [arg.setWidth 8]
    else if ch = Kprint.char 's' then l = (args.text arg).chars
    else if ch = Kprint.char 'u' then Decimal l (Number.percentU size arg).value
    else l = []

def conversions : List Byte := ['i', 'X', 'x', 'c', 's', 'u'].map char

-- How many arguments a piece takes.
def Piece.takes : Piece → Nat
  | .char _          => 0
  | .conversion _ ch => if ch ∈ conversions then 1 else 0

-- The number that a piece prints in decimal.
def Piece.number (arg : Word) : Piece → List Number
  | .char _             => []
  | .conversion size ch =>
    if ch = Kprint.char 'i' then [.percentI size arg]
    else if ch = Kprint.char 'u' then [.percentU size arg]
    else []

-- What the pieces stand for, the first of them with the `n`th argument.
def Line : Nat → List Piece → List Byte → Prop
  | _, [],      l => l = []
  | n, p :: ps, l => ∃ a b, l = a ++ b ∧ p.Shows args (args.arg n) a ∧ Line (n + p.takes) ps b

def numbers : Nat → List Piece → List Number
  | _, []      => []
  | n, p :: ps => p.number (args.arg n) ++ numbers (n + p.takes) ps

end Meaning

-- What is printed in front of the format.
def tag (func : CString.Short) (level : Nat) : List Byte :=
  if level = DLEVEL_NONE then [] else func.chars ++ [char '[', dchar level, char ']', char ':']

-- `l` is printed. It is `Right` exactly when `good` holds, and nothing that is right is shorter.
structure Prints (Right : List Byte → Prop) (good : Prop) (s s' : Console) (l : List Byte) : Prop where
  out       : s'.out = s.out ++ l
  fresh     : Fresh s'
  right_iff : Right l ↔ good
  shortest  : ∀ l', Right l' → l.length ≤ l'.length

namespace Prints

variable {Right Right₁ Right₂ : List Byte → Prop} {good good₁ good₂ : Prop} {s s₁ s₂ : Console}
variable {l l₁ l₂ : List Byte}

theorem exact (ho : s₁.out = s.out ++ l) (hf : Fresh s₁) (hr : Right l) (hu : ∀ l', Right l' → l' = l)
    (hg : good) : Prints Right good s s₁ l where
  out           := ho
  fresh         := hf
  right_iff     := iff_of_true hr hg
  shortest l' h := (congrArg List.length (hu l' h)).ge

theorem congr (h : Prints Right good₁ s s₁ l) (hg : good₁ ↔ good₂) : Prints Right good₂ s s₁ l :=
  { h with right_iff := h.right_iff.trans hg }

-- Two parts that are no longer than they should be can only be right together when both of them are.
theorem append (h₁ : Prints Right₁ good₁ s s₁ l₁) (h₂ : Prints Right₂ good₂ s₁ s₂ l₂) :
    Prints (fun l => ∃ a b, l = a ++ b ∧ Right₁ a ∧ Right₂ b) (good₁ ∧ good₂) s s₂ (l₁ ++ l₂) where
  out       := by rw [h₂.out, h₁.out, List.append_assoc]
  fresh     := h₂.fresh
  right_iff := by
    constructor
    case mp =>
      intro ⟨a, b, he, ha, hb⟩
      have hla := h₁.shortest a ha
      have hlb := h₂.shortest b hb
      have hlen := congrArg List.length he
      rw [List.length_append, List.length_append] at hlen
      have ⟨hea, heb⟩ := List.append_inj he (by omega)
      exact ⟨h₁.right_iff.mp (hea ▸ ha), h₂.right_iff.mp (heb ▸ hb)⟩
    case mpr =>
      intro ⟨hg₁, hg₂⟩
      exact ⟨l₁, l₂, rfl, h₁.right_iff.mpr hg₁, h₂.right_iff.mpr hg₂⟩
  shortest  := by
    intro l' ⟨a, b, he, ha, hb⟩
    have hla := h₁.shortest a ha
    have hlb := h₂.shortest b hb
    rw [he, List.length_append, List.length_append]
    exact Nat.add_le_add hla hlb

end Prints

section Numbers

variable {args : Args} {s s' : Console} {val arg : Word} {v : Int} {l : List Byte} {size : Nat}

theorem Decimal.length_pos (h : Decimal l v) : 0 < l.length := by
  rw [Decimal] at h
  split_ifs at h
  case pos =>
    obtain ⟨l', he, _⟩ := h
    rw [he]
    exact Nat.succ_pos _
  case neg => exact List.length_pos_iff.mpr h.nonempty

-- A sign stands in front of a digit.
theorem Decimal.one_lt_length (h : Decimal l v) (hv : v < 0) : 1 < l.length := by
  rw [Decimal, if_pos hv] at h
  obtain ⟨l', he, hd⟩ := h
  rw [he, List.length_cons]
  exact Nat.succ_lt_succ (List.length_pos_iff.mpr hd.nonempty)

theorem decimal_iff_of_ok {r : Except Exit Console} (hok : r = .ok s') (ho : s'.out = s.out ++ l)
    (h : (∃ s' l, r = .ok s' ∧ s'.out = s.out ++ l ∧ Decimal l v) ↔ v = 0) : Decimal l v ↔ v = 0 := by
  constructor
  case mp =>
    intro hd
    exact h.mp ⟨s', l, hok, ho, hd⟩
  case mpr =>
    intro hv
    have ⟨s₂, l₂, hok₂, ho₂, hd⟩ := h.mpr hv
    cases hok.symm.trans hok₂
    cases List.append_cancel_left (ho.symm.trans ho₂)
    exact hd

theorem writeUint_prints (h : Fresh s) (hv : 0 ≤ v → v.natAbs = val.toNat) (hz : v = 0 ↔ val = 0) :
    ∃ s' l, writeUint val s = .ok s' ∧ Prints (Decimal · v) (v = 0) s s' l := by
  have ⟨s', ch, hok, ho, hf, _⟩ := h.writeUint_one val
  refine ⟨s', [ch], hok, ho, hf, decimal_iff_of_ok hok ho (writeUint_decimal h val hv hz), fun l' hd => ?_⟩
  exact hd.length_pos

theorem writeInt_prints (h : Fresh s) (val : Word) :
    ∃ s' l, writeInt val s = .ok s' ∧ Prints (Decimal · val.toInt) (val.toInt = 0) s s' l := by
  have hiff := writeInt_decimal h val
  rw [writeInt] at hiff ⊢
  split_ifs at hiff ⊢ with hs
  case pos =>
    have hm : Fresh (kprintChar (char '-') s) := h.kprintChar
    obtain ⟨s', ch, hok, ho, hf, _⟩ := hm.writeUint_one (-val)
    have ho' : s'.out = s.out ++ [char '-', ch] := by
      rw [ho, kprintChar, List.append_assoc]
      rfl
    have hneg : val.toInt < 0 := (slt_zero_iff val).mp hs
    exact ⟨s', _, hok, ho', hf, decimal_iff_of_ok hok ho' hiff, fun l' hd => hd.one_lt_length hneg⟩
  case neg =>
    obtain ⟨s', ch, hok, ho, hf, _⟩ := h.writeUint_one val
    exact ⟨s', [ch], hok, ho, hf, decimal_iff_of_ok hok ho hiff, fun l' hd => hd.length_pos⟩

-- An `int` that is no long one is printed without its sign.
theorem percentU_prints (h : Fresh s) (size : Nat) (arg : Word) :
    ∃ s' l, writeUint (if size = sizeofUint64 then arg else (arg.setWidth 32).setWidth 64) s = .ok s' ∧
      Prints (Decimal · (Number.percentU size arg).value) ((Number.percentU size arg).value = 0) s s' l := by
  rw [Number.value]
  split_ifs
  case pos => exact writeUint_prints h (fun _ => Int.natAbs_natCast _) (natCast_toNat_eq_zero_iff arg)
  case neg =>
    refine writeUint_prints h (fun _ => ?_) ((natCast_toNat_eq_zero_iff _).trans int_eq_zero_iff.symm)
    rw [Int.natAbs_natCast, toNat_int]

theorem percentI_prints (h : Fresh s) (size : Nat) (arg : Word) :
    ∃ s' l, writeInt (if size = sizeofUint64 then arg else (arg.setWidth 32).setWidth 64) s = .ok s' ∧
      Prints (Decimal · (Number.percentI size arg).value) ((Number.percentI size arg).value = 0) s s' l := by
  rw [Number.value]
  split_ifs
  case pos => exact writeInt_prints h arg
  case neg =>
    rw [writeInt_int]
    refine writeUint_prints h (fun hv => ?_) ((toInt_eq_zero_iff _).trans int_eq_zero_iff.symm)
    rw [natAbs_toInt hv, toNat_int]

end Numbers

section Piece

variable {args : Args} {s : Console} {size : Nat} {p : Piece}

def Piece.Sized : Piece → Prop
  | .char _            => True
  | .conversion size _ => 1 ≤ size ∧ size ≤ 8

theorem sizeOf_sized (modifiers : List Byte) : 1 ≤ sizeOf modifiers ∧ sizeOf modifiers ≤ 8 := by
  rw [sizeOf]
  refine List.foldlRecOn (motive := fun size => 1 ≤ size ∧ size ≤ 8) modifiers _ (by decide) fun _ _ m _ => ?_
  split_ifs
  case pos => decide
  case neg => decide

theorem Pieces.sized {str : List Byte} {pieces : List Piece} (h : Pieces str pieces) : ∀ p ∈ pieces, p.Sized := by
  induction h
  case nil                          => exact nofun
  case char hi                      => exact List.forall_mem_cons.mpr ⟨trivial, hi⟩
  case conversion modifiers _ _ _ _ _ _ hi => exact List.forall_mem_cons.mpr ⟨sizeOf_sized modifiers, hi⟩

theorem writeHex_prints (h : Fresh s) (num : Word) (hl : 1 ≤ size) (hu : size ≤ 8) (caps : Bool) {good : Prop}
    (hg : good) : ∃ l,
      Prints (Denotes (hexDigits caps) · (num.toNat % 2 ^ (8 * size))) good s (writeHex num size caps s) l := by
  have hb : size * 8 / 4 = 2 * size := by omega
  have hm : 64 - size * 8 = 64 - 4 * (2 * size) := by omega
  have hp : 2 ^ (8 * size) = 16 ^ (2 * size) := by
    rw [(by omega : 8 * size = 4 * (2 * size)), Nat.pow_mul]
  have hx : ∃ l, (writeHex num size caps s).out = s.out ++ l ∧
      Denotes (hexDigits caps) l (num.toNat % 2 ^ (8 * size)) := by
    rw [writeHex, hb, hm, hp]
    apply hexLoop_leading (by omega) (by omega)
  obtain ⟨l, ho, hd⟩ := hx
  exact ⟨l, .exact ho h.writeHex hd (fun l' hd' => hd'.unique hd) hg⟩

theorem kprintString_out (str : CString.Short) : (kprintString str s).out = s.out ++ str.chars := by
  rw [kprintString]
  generalize str.chars = l
  induction l generalizing s
  case nil => exact (List.append_nil _).symm
  case cons ch l hi =>
    rw [List.foldl_cons, hi, kprintChar]
    exact List.append_assoc ..

theorem number_i (size : Nat) (arg : Word) :
    (Piece.conversion size (char 'i')).number arg = [.percentI size arg] := rfl

theorem number_u (size : Nat) (arg : Word) :
    (Piece.conversion size (char 'u')).number arg = [.percentU size arg] := rfl

theorem no_number {ch : Byte} (size : Nat) (arg : Word) (hi : ch ≠ char 'i') (hu : ch ≠ char 'u') :
    ∀ v ∈ (Piece.conversion size ch).number arg, v.value = 0 := by
  rw [Piece.number, if_neg hi, if_neg hu]
  exact nofun

theorem convert_prints (args : Args) (h : Fresh s) (hl : 1 ≤ size) (hu : size ≤ 8) (ch : Byte) (arg : Word) :
    ∃ s' l, convert args size ch arg s = .ok (s', (Piece.conversion size ch).takes) ∧
      Prints (Piece.Shows args arg · (.conversion size ch))
        (∀ v ∈ (Piece.conversion size ch).number arg, v.value = 0) s s' l := by
  by_cases hi : ch = char 'i'
  case pos =>
    subst hi
    obtain ⟨s', l, hok, hp⟩ := percentI_prints h size arg
    refine ⟨s', l, ?_, hp.congr ?_⟩
    · rw [convert, if_pos rfl, hok]
      rfl
    · rw [number_i, List.forall_mem_singleton]
  by_cases hX : ch = char 'X'
  case pos =>
    subst hX
    obtain ⟨l, hp⟩ := writeHex_prints h arg hl hu true (no_number size arg hi (by decide))
    exact ⟨_, l, rfl, hp⟩
  by_cases hx : ch = char 'x'
  case pos =>
    subst hx
    obtain ⟨l, hp⟩ := writeHex_prints h arg hl hu false (no_number size arg hi (by decide))
    exact ⟨_, l, rfl, hp⟩
  by_cases hc : ch = char 'c'
  case pos =>
    subst hc
    exact ⟨_, _, rfl, .exact rfl h.kprintChar rfl (fun _ he => he) (no_number size arg hi (by decide))⟩
  by_cases hs : ch = char 's'
  case pos =>
    subst hs
    have hg := no_number size arg hi (by decide)
    exact ⟨_, _, rfl, .exact (kprintString_out _) h.kprintString rfl (fun _ he => he) hg⟩
  by_cases hu : ch = char 'u'
  case pos =>
    subst hu
    obtain ⟨s', l, hok, hp⟩ := percentU_prints h size arg
    refine ⟨s', l, ?_, hp.congr ?_⟩
    · rw [convert, if_neg hi, if_neg hX, if_neg hx, if_neg hc, if_neg hs, if_pos rfl, hok]
      rfl
    · rw [number_u, List.forall_mem_singleton]
  case neg =>
    have hn : ch ∉ conversions := by
      simp only [conversions, List.map_cons, List.map_nil, List.mem_cons, List.not_mem_nil, or_false, not_or]
      exact ⟨hi, hX, hx, hc, hs, hu⟩
    have hshows : (Piece.Shows args arg · (.conversion size ch)) = (· = []) := by
      funext l
      simp only [Piece.Shows, if_neg hi, if_neg hX, if_neg hx, if_neg hc, if_neg hs, if_neg hu]
    rw [hshows]
    refine ⟨s, [], ?_, .exact (List.append_nil _).symm h rfl (fun _ he => he) (no_number size arg hi hu)⟩
    rw [convert, if_neg hi, if_neg hX, if_neg hx, if_neg hc, if_neg hs, if_neg hu, Piece.takes, if_neg hn]

theorem Piece.prints (args : Args) (n : Nat) (h : Fresh s) (hs : p.Sized) :
    ∃ s' l, p.print args (s, n) = .ok (s', n + p.takes) ∧
      Prints (p.Shows args (args.arg n)) (∀ v ∈ p.number (args.arg n), v.value = 0) s s' l := by
  cases p
  case char ch => exact ⟨_, [ch], rfl, .exact rfl h.kprintChar rfl (fun _ he => he) nofun⟩
  case conversion size ch =>
    have ⟨s', l, hok, hp⟩ := convert_prints args h hs.left hs.right ch (args.arg n)
    refine ⟨s', l, ?_, hp⟩
    rw [Piece.print, hok]
    rfl

end Piece

section Whole

variable {args : Args} {s : Console} {pieces : List Piece}

theorem pieces_print (args : Args) (n : Nat) (h : Fresh s) (hs : ∀ p ∈ pieces, p.Sized) : ∃ s' k l,
    pieces.foldlM (Piece.print args) (s, n) = .ok (s', k) ∧
      Prints (Line args n pieces) (∀ v ∈ numbers args n pieces, v.value = 0) s s' l := by
  induction pieces generalizing s n
  case nil => exact ⟨s, n, [], rfl, .exact (List.append_nil _).symm h rfl (fun _ he => he) nofun⟩
  case cons p ps hi =>
    have ⟨hp, hps⟩ := List.forall_mem_cons.mp hs
    have ⟨s₁, l₁, hok₁, h₁⟩ := p.prints args n h hp
    have ⟨s₂, k, l₂, hok₂, h₂⟩ := hi (n + p.takes) h₁.fresh hps
    refine ⟨s₂, k, l₁ ++ l₂, ?_, (h₁.append h₂).congr List.forall_mem_append.symm⟩
    rw [List.foldlM_cons, hok₁]
    exact hok₂

theorem header_out (func : CString.Short) (level : Nat) : (header func level s).out = s.out ++ tag func level := by
  rw [header, tag]
  split_ifs
  case pos => exact (List.append_nil _).symm
  case neg => simp [kprintChar, kprintString_out]

-- A call prints the tag, and then what the format and its arguments stand for if and only if each number that is
-- printed in decimal is 0. Whatever stands next to a number that is not, does not make up for it.
theorem kprintf_line {func : CString.Short} {level : Nat} {str : CString} (h : Reached s)
    (hp : Pieces str.chars pieces) (hl : str.chars.length < 2 ^ 31) :
    ∃ s' l, kprintf args func level str s = .ok s' ∧ s'.out = s.out ++ tag func level ++ l ∧
      (Line args 0 pieces l ↔ ∀ n ∈ numbers args 0 pieces, n.value = 0) := by
  have hf : Fresh (header func level s) := (Fresh.of_reached h).header
  have hb := begin_between (header func level s) hl
  rw [← List.append_nil str.chars] at hb
  have ⟨sc, hscan, hbetween, hprint⟩ := scan_pieces args _ hp hb
  have ⟨s', k, l, hok, hprints⟩ := pieces_print args 0 hf hp.sized
  have he := Except.ok.inj (hprint.symm.trans hok)
  have hsc : sc.console = s' := congrArg Prod.fst he
  refine ⟨s', l, ?_, ?_, hprints.right_iff⟩
  case refine_1 =>
    refine Except.bind_ok_iff.mpr ⟨sc, hscan, ?_⟩
    rw [atNul, hbetween.outside, ← hsc]
    rfl
  case refine_2 => rw [hprints.out, header_out]

end Whole

section Example

-- `x%u`
def uFormat : CString where
  chars   := [char 'x', char '%', char 'u']
  nonzero := by decide

theorem uFormat_pieces : Pieces uFormat.chars [.char (char 'x'), .conversion sizeofInt (char 'u')] := by
  have hn : ¬Modifier (char 'u') := not_or.mpr ⟨by decide, by decide⟩
  exact .char (by decide) (@Pieces.conversion [] [] _ [] nofun hn .nil)

theorem kprintf_line_zero : ∃ s' l, kprintf noArgs emptyString DLEVEL_NONE uFormat boot = .ok s' ∧
    s'.out = boot.out ++ tag emptyString DLEVEL_NONE ++ l ∧
      (Line noArgs 0 [.char (char 'x'), .conversion sizeofInt (char 'u')] l ↔
        ∀ n ∈ numbers noArgs 0 [.char (char 'x'), .conversion sizeofInt (char 'u')], n.value = 0) :=
  kprintf_line (Run.Steps.refl boot) uFormat_pieces (by decide)

end Example

end RoverOS.Kprint
