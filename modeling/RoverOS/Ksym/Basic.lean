import RoverOS.Basic

-- `ksym.c`: the symbols of the kernel's image, and which of them an address belongs to.

namespace RoverOS.Ksym

-- What the search reads of a symbol.
structure ELF64Sym where
  info  : BitVec 8
  value : Word
  size  : Word
  deriving DecidableEq, Repr

def STT_NOTYPE  : BitVec 8 := 0
def STT_OBJECT  : BitVec 8 := 1
def STT_FUNC    : BitVec 8 := 2
def STT_SECTION : BitVec 8 := 3

namespace ELF64Sym

def type (sym : ELF64Sym) : BitVec 8 := sym.info &&& 0x0F

-- The search returns the first symbol of which this is true. `value + size` is a `uint64_t`.
def Hit (ptr : Word) (sym : ELF64Sym) : Prop :=
  sym.type ≠ STT_NOTYPE ∧ sym.type ≠ STT_SECTION ∧ sym.value ≤ ptr ∧ sym.value + sym.size ≥ ptr

instance (ptr : Word) (sym : ELF64Sym) : Decidable (sym.Hit ptr) :=
  inferInstanceAs (Decidable (_ ∧ _))

end ELF64Sym

-- `symStart` and `symn` are the table. The pointer that is returned is the symbol's index.
def getSymbol (table : List ELF64Sym) (ptr : Word) : Option Nat :=
  if ptr = 0 then none else table.findIdx? fun sym => sym.Hit ptr

section Search

variable {table : List ELF64Sym} {ptr : Word} {i : Nat}

theorem getSymbol_some_iff : getSymbol table ptr = some i ↔
    ptr ≠ 0 ∧ ∃ h : i < table.length, table[i].Hit ptr ∧ ∀ j (hj : j < i), ¬table[j].Hit ptr := by
  by_cases hz : ptr = 0
  case pos => simp [getSymbol, hz]
  case neg =>
    rw [getSymbol, if_neg hz, List.findIdx?_eq_some_iff_getElem, and_iff_right hz]
    simp

theorem getSymbol_none_iff : getSymbol table ptr = none ↔ ptr = 0 ∨ ∀ sym ∈ table, ¬sym.Hit ptr := by
  by_cases hz : ptr = 0
  case pos => simp [getSymbol, hz]
  case neg =>
    rw [getSymbol, if_neg hz, List.findIdx?_eq_none_iff, or_iff_right hz]
    simp

end Search

end RoverOS.Ksym
