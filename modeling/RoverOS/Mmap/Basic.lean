import RoverOS.Basic

-- The memory map that the bootloader hands over to the kernel, `mmap.h`.

namespace RoverOS

structure MmapEntry where
  magic : Nat
  flags : Nat
  type  : Nat
  phys  : Nat
  virt  : Nat
  bytes : Nat
  deriving DecidableEq, Repr

namespace MmapEntry

def typeIgnore : Nat := 0x0
def typeFree   : Nat := 0x1
def typeUefi   : Nat := 0x2
def typeMmio   : Nat := 0x4
def typeAcpi   : Nat := 0x5
def typeResv   : Nat := 0x6
def typeKernel : Nat := 0x8
def typeOther  : Nat := 0x9
def typeElf    : Nat := 0xA

def magicNumber : Nat := 0xAEFADEADAEFADEAD

end MmapEntry
end RoverOS
