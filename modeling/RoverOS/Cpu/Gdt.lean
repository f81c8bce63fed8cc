import RoverOS.Basic

-- `cpu.c`: the descriptors of the global descriptor table.

open Function (update)

namespace RoverOS.Cpu

def GDT_EXECUTE : Word := 1#64 <<< 43
def GDT_SYSTEM  : Word := 1#64 <<< 44
def GDT_PRESENT : Word := 1#64 <<< 47
def GDT_LM      : Word := 1#64 <<< 53

def GDT_TYPE_TSS : Word := 0x9#64 <<< 40

def GDT_DPL (dpl : Word) : Word := dpl <<< 45

def GDT_TSS_BASE0 (addr : Word) : Word := (addr &&& 0xFFFFF) <<< 16
def GDT_TSS_BASE1 (addr : Word) : Word := ((addr >>> 24) &&& 0xFF) <<< 48
def GDT_TSS_BASE2 (addr : Word) : Word := (addr >>> 32) &&& 0xFFF

-- The packed record: two `uint32_t`s around the stacks, and eight bytes between their groups.
def sizeofTSS : Nat := 4 + 3 * 8 + 8 + 8 * 8 + 8 + 4 + 4

def lowerTSS (base dpl : Word) : Word :=
  GDT_TYPE_TSS ||| GDT_PRESENT ||| GDT_DPL dpl ||| BitVec.ofNat 64 sizeofTSS ||| GDT_TSS_BASE0 base |||
    GDT_TSS_BASE1 base

def upperTSS (base : Word) : Word := GDT_TSS_BASE2 base

-- `entries` is the table as the processor reads it, in quadwords.
def writeGDTSegment (entries : Nat → Word) (entryn : BitVec 8) (dpl : Word) (code : Bool) : Nat → Word :=
  let flags := GDT_PRESENT ||| GDT_LM ||| GDT_SYSTEM ||| GDT_DPL dpl
  update entries entryn.toNat (if code then flags ||| GDT_EXECUTE else flags)

def writeGDTTSS (entries : Nat → Word) (entryn : BitVec 8) (base dpl : Word) : Nat → Word :=
  update (update entries entryn.toNat (lowerTSS base dpl)) (entryn.toNat + 1) (upperTSS base)

end RoverOS.Cpu
