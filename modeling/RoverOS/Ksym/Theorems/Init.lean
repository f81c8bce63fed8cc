import RoverOS.Ksym.Init
import RoverOS.Library.Pick
import RoverOS.Strings.Theorems.Agree

-- When the string tables that are picked are the ones that the symbol file designates.

namespace RoverOS.Ksym

open Bytes (Memory load)
open Strings (Byte IsString)

variable {m : Memory} {ksym base : Word} {t : Tables} {k k' : Globals} {lit : Literals} {fuel : Nat}
variable {sec sym str link shstr : ELF64Section} {secs : List ELF64Section}

def ofType (type : Nat) (secs : List ELF64Section) : List ELF64Section :=
  secs.filter fun sec => sec.type = type

-- A file with one symbol table, at `ksym`. Its symbols have their names in `link`, its sections in `shstr`.
structure SymbolFile (m : Memory) (ksym : Word) (sym link shstr : ELF64Section) : Prop where
  symtab  : ofType SHT_SYMTAB (sections m ksym) = [sym]
  symstr  : (sections m ksym)[sym.link]? = some link
  secstr  : (sections m ksym)[(ELF64Header.read m ksym.toNat).shstrndx]? = some shstr
  strings : link.type = SHT_STRTAB ∧ shstr.type = SHT_STRTAB
  loaded  : ksym ≠ 0 ∧ ksym.toNat + shstr.offset.toNat < 2 ^ 64

def chars (s : List Char) : List Byte := s.map fun c => BitVec.ofNat 8 c.toNat

def debugInfo : List Byte := chars ['.', 'd', 'e', 'b', 'u', 'g', '_', 'i', 'n', 'f', 'o']
def debugLine : List Byte := chars ['.', 'd', 'e', 'b', 'u', 'g', '_', 'l', 'i', 'n', 'e']
def debugStr  : List Byte := chars ['.', 'd', 'e', 'b', 'u', 'g', '_', 's', 't', 'r']

-- The compiler puts the names where the literals are.
structure Stored (lit : Literals) (m : Memory) : Prop where
  debugInfo : IsString (bytesAt m) lit.debugInfo debugInfo
  debugLine : IsString (bytesAt m) lit.debugLine debugLine
  debugStr  : IsString (bytesAt m) lit.debugStr debugStr

-- The section's name in the table at `base`.
def Named (m : Memory) (base : Word) (name : List Byte) (sec : ELF64Section) : Prop :=
  IsString (bytesAt m) (base + BitVec.ofNat 64 sec.name) name

-- The debug sections have the names that they were searched for by.
structure Bound (m : Memory) (base : Word) (k : Globals) : Prop where
  debugInfo : ∀ sec ∈ k.dbgInfo, Named m base debugInfo sec
  debugLine : ∀ sec ∈ k.dbgLine, Named m base debugLine sec
  debugStr  : ∀ sec ∈ k.dbgStr, Named m base debugStr sec

def symbolAt (symStart : Word) (i : Nat) : Word :=
  symStart + BitVec.ofNat 64 (sizeofELF64Sym * i)

-- The name of the file's symbol `i`.
def ownName (m : Memory) (ksym : Word) (sym link : ELF64Section) (i : Nat) : Word :=
  ksym + link.offset + BitVec.ofNat 64 (load m (symbolAt (ksym + sym.offset) i).toNat 4)

structure Designated (m : Memory) (ksym : Word) (sym link shstr : ELF64Section) (k : Globals) : Prop where
  strBase    : k.strBase = ksym + link.offset
  secstrBase : k.secstrBase = ksym + shstr.offset
  names      : ∀ i < k.symn, symbolToName m k (symbolAt k.symStart i) = ownName m ksym sym link i
  bound      : Bound m (ksym + shstr.offset) k

section Scan

theorem ofType_cons_of_eq {type : Nat} (h : sec.type = type) : ofType type (sec :: secs) = sec :: ofType type secs :=
  List.filter_cons_of_pos (decide_eq_true h)

theorem ofType_cons_of_ne {type : Nat} (h : sec.type ≠ type) : ofType type (sec :: secs) = ofType type secs :=
  List.filter_cons_of_neg (by simpa using h)

@[simp]
theorem checkSymtab_str : (t.checkSymtab sec).str = t.str := by
  unfold Tables.checkSymtab
  split <;> rfl

@[simp]
theorem checkSymtab_secstrBase : (t.checkSymtab sec).secstrBase = t.secstrBase := by
  unfold Tables.checkSymtab
  split <;> rfl

theorem checkStrtab_symtab : (t.checkStrtab ksym sec).sym = t.sym ∧ (t.checkStrtab ksym sec).symn = t.symn := by
  unfold Tables.checkStrtab
  split
  case isFalse => exact ⟨rfl, rfl⟩
  case isTrue =>
    split
    case h_1 => exact ⟨rfl, rfl⟩
    case h_2 => split <;> exact ⟨rfl, rfl⟩

-- The last symbol table is taken.
theorem foldl_symtab : ((secs.foldl (Tables.check ksym) t).sym, (secs.foldl (Tables.check ksym) t).symn) =
    (ofType SHT_SYMTAB secs).foldl (fun _ sec => (some sec, sec.size)) (t.sym, t.symn) := by
  induction secs generalizing t
  case nil => rfl
  case cons sec secs hi =>
    rw [List.foldl_cons, hi, Tables.check, checkStrtab_symtab.left, checkStrtab_symtab.right, Tables.checkSymtab]
    by_cases h : sec.type = SHT_SYMTAB
    case pos => rw [if_pos h, ofType_cons_of_eq h, List.foldl_cons]
    case neg => rw [if_neg h, ofType_cons_of_ne h]

-- The names of the symbols come from the greatest table so far, those of the sections from the lesser one of
-- the last comparison.
structure Follows (ksym base : Word) (t : Tables) (s : Option ELF64Section × Option ELF64Section) : Prop where
  str        : t.str = s.1
  secstrBase : t.secstrBase = (s.2.map fun sec => ksym + sec.offset).getD base

variable {s : Option ELF64Section × Option ELF64Section}

theorem Follows.skip (h : Follows ksym base t s) (hs : sec.type ≠ SHT_STRTAB) :
    Follows ksym base (t.check ksym sec) s := by
  rw [Tables.check, Tables.checkStrtab, if_neg hs]
  exact ⟨checkSymtab_str.trans h.str, checkSymtab_secstrBase.trans h.secstrBase⟩

theorem Follows.check (h : Follows ksym base t s) (hs : sec.type = SHT_STRTAB) :
    Follows ksym base (t.check ksym sec) (Pick.step ELF64Section.size s sec) := by
  rw [Tables.check, Tables.checkStrtab, if_pos hs, checkSymtab_str, h.str, Pick.step]
  cases hm : s.1
  case none => exact ⟨rfl, checkSymtab_secstrBase.trans h.secstrBase⟩
  case some str =>
    by_cases hlt : sec.size < str.size
    case pos =>
      simp only [if_pos hlt]
      exact ⟨rfl, rfl⟩
    case neg =>
      simp only [if_neg hlt]
      exact ⟨rfl, rfl⟩

theorem Follows.foldl (h : Follows ksym base t s) : Follows ksym base (secs.foldl (Tables.check ksym) t)
    ((ofType SHT_STRTAB secs).foldl (Pick.step ELF64Section.size) s) := by
  induction secs generalizing t s
  case nil => exact h
  case cons sec secs hi =>
    by_cases hs : sec.type = SHT_STRTAB
    case pos =>
      rw [ofType_cons_of_eq hs]
      exact hi (h.check hs)
    case neg =>
      rw [ofType_cons_of_ne hs]
      exact hi (h.skip hs)

end Scan

section Bind

variable {name : List Byte} {secName : Word}

theorem checkSection_ok (base : Word) (sec : ELF64Section) (hs : IsString (bytesAt m) secName name) (hf : name.length < fuel) :
    ∃ b, checkSection m fuel base secName sec = .ok b ∧ (b = true ↔ Named m base name sec) := by
  obtain ⟨v, hv, he⟩ := Strings.Asm.strcmp_ok (base + BitVec.ofNat 64 sec.name) hs hf
  refine ⟨decide (v = 0), ?_, decide_eq_true_iff.trans he⟩
  rw [checkSection, hv]
  rfl

-- What the second loop leaves alone.
structure SameTables (k k' : Globals) : Prop where
  symStart   : k'.symStart = k.symStart
  symn       : k'.symn = k.symn
  strBase    : k'.strBase = k.strBase
  secstrBase : k'.secstrBase = k.secstrBase

theorem bindSection_ok (sec : ELF64Section) (hl : Stored lit m) (hf : 12 ≤ fuel) (hb : Bound m k.secstrBase k) :
    ∃ k', bindSection lit m fuel k sec = .ok k' ∧ SameTables k k' ∧ Bound m k.secstrBase k' := by
  rw [bindSection]
  by_cases hp : sec.type ≠ SHT_PROGBITS
  case pos => exact ⟨k, if_pos hp, ⟨rfl, rfl, rfl, rfl⟩, hb⟩
  case neg =>
    rw [if_neg hp]
    obtain ⟨b₁, h₁, he₁⟩ := checkSection_ok k.secstrBase sec hl.debugInfo (hf : _ < fuel)
    obtain ⟨b₂, h₂, he₂⟩ := checkSection_ok k.secstrBase sec hl.debugLine (hf : _ < fuel)
    obtain ⟨b₃, h₃, he₃⟩ := checkSection_ok k.secstrBase sec hl.debugStr (Nat.lt_of_succ_lt hf)
    rw [h₁, h₂, h₃]
    cases b₁
    case true =>
      refine ⟨{ k with dbgInfo := some sec }, rfl, ⟨rfl, rfl, rfl, rfl⟩, ?_, hb.debugLine, hb.debugStr⟩
      rintro _ ⟨⟩
      exact he₁.mp rfl
    case false =>
      cases b₂
      case true =>
        refine ⟨{ k with dbgLine := some sec }, rfl, ⟨rfl, rfl, rfl, rfl⟩, hb.debugInfo, ?_, hb.debugStr⟩
        rintro _ ⟨⟩
        exact he₂.mp rfl
      case false =>
        cases b₃
        case true =>
          refine ⟨{ k with dbgStr := some sec }, rfl, ⟨rfl, rfl, rfl, rfl⟩, hb.debugInfo, hb.debugLine, ?_⟩
          rintro _ ⟨⟩
          exact he₃.mp rfl
        case false => exact ⟨k, rfl, ⟨rfl, rfl, rfl, rfl⟩, hb⟩

theorem bindSections_ok (secs : List ELF64Section) (hl : Stored lit m) (hf : 12 ≤ fuel) (hb : Bound m k.secstrBase k) :
    ∃ k', secs.foldlM (bindSection lit m fuel) k = .ok k' ∧ SameTables k k' ∧ Bound m k.secstrBase k' := by
  induction secs generalizing k
  case nil => exact ⟨k, rfl, ⟨rfl, rfl, rfl, rfl⟩, hb⟩
  case cons sec secs hi =>
    obtain ⟨k₁, h₁, hs₁, hb₁⟩ := bindSection_ok sec hl hf hb
    rw [← hs₁.secstrBase] at hb₁ ⊢
    obtain ⟨k', h', hs', hb'⟩ := hi hb₁
    refine ⟨k', Except.bind_ok_iff.mpr ⟨k₁, h₁, h'⟩, ?_, hb'⟩
    exact ⟨hs'.symStart.trans hs₁.symStart, hs'.symn.trans hs₁.symn, hs'.strBase.trans hs₁.strBase,
      hs'.secstrBase.trans hs₁.secstrBase⟩

end Bind

section Tables

-- The tables that the first loop ends with.
def picked (secs : List ELF64Section) : Option ELF64Section × Option ELF64Section :=
  (ofType SHT_STRTAB secs).foldl (Pick.step ELF64Section.size) (none, none)

theorem SymbolFile.link_mem (hw : SymbolFile m ksym sym link shstr) : link ∈ ofType SHT_STRTAB (sections m ksym) :=
  List.mem_filter.mpr ⟨List.mem_of_getElem? hw.symstr, decide_eq_true hw.strings.left⟩

theorem SymbolFile.picked (hw : SymbolFile m ksym sym link shstr) : ∃ str, (picked (sections m ksym)).1 = some str := by
  obtain ⟨str, h, -⟩ := Pick.foldl_last (f := ELF64Section.size) (none, none) rfl (List.ne_nil_of_mem hw.link_mem)
  exact ⟨str, h⟩

-- The start of a loaded table is not where `secstrBase` is at first.
theorem SymbolFile.shstr_ne (hw : SymbolFile m ksym sym link shstr) : ksym + shstr.offset ≠ 0 := by
  obtain ⟨hz, hlt⟩ := hw.loaded
  bv_omega

def scanned (m : Memory) (ksym : Word) : Tables :=
  (sections m ksym).foldl (Tables.check ksym) ⟨Globals.start.symn, Globals.start.secstrBase, none, none⟩

-- The globals behind the first loop.
def located (ksym : Word) (t : Tables) (sym str : ELF64Section) : Globals :=
  { Globals.start with
    symStart   := ksym + sym.offset
    symn       := t.symn / sizeofELF64Sym
    strBase    := ksym + str.offset
    secstrBase := t.secstrBase }

theorem initKsym_eq (hsym : (scanned m ksym).sym = some sym)
    (hstr : (scanned m ksym).str = some str) : initKsym lit m fuel ksym .start =
      (sections m ksym).foldlM (bindSection lit m fuel) (located ksym (scanned m ksym) sym str) := by
  rw [scanned] at hsym hstr
  unfold initKsym
  dsimp only
  rw [hsym, hstr]
  rfl

theorem bound_located : Bound m base (located ksym t sym str) :=
  ⟨fun _ h => (by cases h), fun _ h => (by cases h), fun _ h => (by cases h)⟩

theorem initKsym_ok (hw : SymbolFile m ksym sym link shstr) (hl : Stored lit m) (hf : 12 ≤ fuel) :
    ∃ k str, initKsym lit m fuel ksym .start = .ok k ∧ (picked (sections m ksym)).1 = some str ∧
      SameTables (located ksym (scanned m ksym) sym str) k ∧ (scanned m ksym).symn = sym.size ∧
      k.secstrBase = ((picked (sections m ksym)).2.map fun sec => ksym + sec.offset).getD 0 ∧
      Bound m k.secstrBase k := by
  obtain ⟨str, hstr⟩ := hw.picked
  have hs : ((scanned m ksym).sym, (scanned m ksym).symn) = (some sym, sym.size) := by
    rw [scanned, foldl_symtab, hw.symtab]
    rfl
  obtain ⟨hsym, hsymn⟩ := Prod.mk.inj hs
  have ht : Follows ksym 0 (scanned m ksym) (picked (sections m ksym)) := Follows.foldl ⟨rfl, rfl⟩
  obtain ⟨k, hk, hsame, hb⟩ := bindSections_ok (sections m ksym) hl hf bound_located
  rw [← hsame.secstrBase] at hb
  exact ⟨k, str, (initKsym_eq hsym (ht.str.trans hstr)).trans hk, hstr, hsame, hsymn,
    hsame.secstrBase.trans ht.secstrBase, hb⟩

-- The address of a symbol's name is the right one for every symbol when it is for the table.
theorem names_of_strBase (hk : SameTables (located ksym t sym str) k) (hb : k.strBase = ksym + link.offset) (i : Nat) :
    symbolToName m k (symbolAt k.symStart i) = ownName m ksym sym link i := by
  have hs : k.symStart = ksym + sym.offset := hk.symStart
  rw [symbolToName, ownName, hs, hb, BitVec.add_comm]

-- The greatest string section, and what it was last compared with, begin where the designated tables do.
def Picked (secs : List ELF64Section) (link shstr : ELF64Section) : Prop :=
  ∃ str other, Pick.Final ELF64Section.size (ofType SHT_STRTAB secs) str other ∧
    str.offset = link.offset ∧ other.offset = shstr.offset

theorem initKsym_tables_iff (hw : SymbolFile m ksym sym link shstr) (hl : Stored lit m) (hf : 12 ≤ fuel) :
    ∃ k, initKsym lit m fuel ksym .start = .ok k ∧
      (Designated m ksym sym link shstr k ↔ Picked (sections m ksym) link shstr) := by
  obtain ⟨k, str, hk, hstr, hsame, -, hsec, hb⟩ := initKsym_ok hw hl hf
  refine ⟨k, hk, ?_⟩
  have hbase : k.strBase = ksym + str.offset := hsame.strBase
  constructor
  case mp =>
    intro hd
    have hlink : str.offset = link.offset := (BitVec.add_right_inj _).mp (hbase.symm.trans hd.strBase)
    have hother := hd.secstrBase
    rw [hsec] at hother
    cases ho : (picked (sections m ksym)).2
    case none =>
      rw [ho] at hother
      exact absurd hother.symm hw.shstr_ne
    case some other =>
      rw [ho] at hother
      exact ⟨str, other, Pick.foldl_eq_iff.mp (Prod.ext hstr ho), hlink, (BitVec.add_right_inj _).mp hother⟩
  case mpr =>
    rintro ⟨str', other, hp, hlink, hother⟩
    have he : picked (sections m ksym) = (some str', some other) := Pick.foldl_eq_iff.mpr hp
    rw [he] at hstr hsec
    obtain rfl : str' = str := Option.some.inj hstr
    have hstr : k.strBase = ksym + link.offset := hlink ▸ hbase
    have hsecstr : k.secstrBase = ksym + shstr.offset := hother ▸ hsec
    exact ⟨hstr, hsecstr, fun i _ => names_of_strBase hsame hstr i, hsecstr ▸ hb⟩

end Tables

section Example

def writeField (m : Memory) (field : Nat × Nat × Nat) : Memory :=
  Bytes.store m field.1 field.2.1 field.2.2

def writeText (m : Memory) (text : Nat × List Byte) : Memory := fun a =>
  if text.1 ≤ a ∧ a < text.1 + text.2.length then text.2.getD (a - text.1) 0 else m a

-- A file with the sections `.symtab`, `.strtab` and `.shstrtab`, in this order, and one function's symbol.
def symbolFile (strSize : Nat) : Memory :=
  [(0x10000, 4, 0x464C457F), (0x10004, 1, 2), (0x10005, 1, 1), (0x10028, 8, 0x100), (0x1003A, 2, 64),
    (0x1003C, 2, 4), (0x1003E, 2, 3),
    (0x10058, 4, 1), (0x1005C, 1, 2), (0x10060, 8, 0x401000), (0x10068, 8, 0x20),
    (0x10140, 4, 1), (0x10144, 4, 2), (0x10158, 8, 0x40), (0x10160, 8, 48), (0x10168, 4, 2), (0x10178, 8, 24),
    (0x10180, 4, 9), (0x10184, 4, 3), (0x10198, 8, 0x70), (0x101A0, 8, strSize),
    (0x101C0, 4, 17), (0x101C4, 4, 3), (0x101D8, 8, 0xB0), (0x101E0, 8, 27)].foldl writeField
  ([(0x1000, debugInfo), (0x1010, debugLine), (0x1020, debugStr), (0x10071, chars ['k', 'e', 'n', 't', 'r', 'y']),
    (0x100B1, chars ['.', 's', 'y', 'm', 't', 'a', 'b']), (0x100B9, chars ['.', 's', 't', 'r', 't', 'a', 'b']),
    (0x100C1, chars ['.', 's', 'h', 's', 't', 'r', 't', 'a', 'b'])].foldl writeText fun _ => 0)

def symtab : ELF64Section := ⟨1, SHT_SYMTAB, 0x40, 48, 2⟩

def strtab (strSize : Nat) : ELF64Section := ⟨9, SHT_STRTAB, 0x70, strSize, 0⟩

def shstrtab : ELF64Section := ⟨17, SHT_STRTAB, 0xB0, 27, 0⟩

def literals : Literals := ⟨0x1000, 0x1010, 0x1020⟩

theorem sections_symbolFile_small :
    sections (symbolFile 8) 0x10000 = [⟨0, 0, 0, 0, 0⟩, symtab, strtab 8, shstrtab] := by
  decide +kernel

theorem sections_symbolFile_large :
    sections (symbolFile 64) 0x10000 = [⟨0, 0, 0, 0, 0⟩, symtab, strtab 64, shstrtab] := by
  decide +kernel

theorem stored_small : Stored literals (symbolFile 8) :=
  ⟨by decide +kernel, by decide +kernel, by decide +kernel⟩

theorem stored_large : Stored literals (symbolFile 64) :=
  ⟨by decide +kernel, by decide +kernel, by decide +kernel⟩

theorem symbolFile_small : SymbolFile (symbolFile 8) 0x10000 symtab (strtab 8) shstrtab where
  symtab  := sections_symbolFile_small ▸ rfl
  symstr  := sections_symbolFile_small ▸ rfl
  secstr  := sections_symbolFile_small ▸ by decide +kernel
  strings := ⟨rfl, rfl⟩
  loaded  := by decide

theorem symbolFile_large : SymbolFile (symbolFile 64) 0x10000 symtab (strtab 64) shstrtab where
  symtab  := sections_symbolFile_large ▸ rfl
  symstr  := sections_symbolFile_large ▸ rfl
  secstr  := sections_symbolFile_large ▸ by decide +kernel
  strings := ⟨rfl, rfl⟩
  loaded  := by decide

-- The names of the symbols are looked for in the names of the sections when there are fewer of them.
theorem initKsym_confuses_tables : ¬∀ m ksym sym link shstr lit fuel, SymbolFile m ksym sym link shstr →
    Stored lit m → 12 ≤ fuel →
      ∃ k, initKsym lit m fuel ksym .start = .ok k ∧ Designated m ksym sym link shstr k := by
  intro h
  obtain ⟨k, hk, hd⟩ := h _ _ _ _ _ _ 12 symbolFile_small stored_small (le_refl 12)
  obtain ⟨k', str, hk', hstr, hsame, -⟩ := initKsym_ok symbolFile_small stored_small (le_refl 12)
  obtain rfl : k = k' := Except.ok.inj (hk.symm.trans hk')
  rw [sections_symbolFile_small] at hstr
  obtain rfl : shstrtab = str := Option.some.inj hstr
  have hbase : k.strBase = 0x100B0 := hsame.strBase
  exact absurd (hbase.symm.trans hd.strBase) (by decide)

-- A bigger `.strtab` is found, and so is `.shstrtab` behind it.
theorem initKsym_tables_large : ∃ k, initKsym literals (symbolFile 64) 12 0x10000 .start = .ok k ∧
    Designated (symbolFile 64) 0x10000 symtab (strtab 64) shstrtab k := by
  obtain ⟨k, hk, h⟩ := initKsym_tables_iff symbolFile_large stored_large (le_refl 12)
  have hlast : Pick.Last ELF64Section.size [strtab 64] (strtab 64) :=
    ⟨[], [], rfl, fun _ h => absurd h List.not_mem_nil, fun _ h => absurd h List.not_mem_nil⟩
  refine ⟨k, hk, h.mpr ⟨strtab 64, shstrtab, ⟨[strtab 64], shstrtab, ?_, .inl ⟨rfl, by decide, hlast⟩⟩, rfl, rfl⟩⟩
  rw [sections_symbolFile_large]
  rfl

end Example

end RoverOS.Ksym
