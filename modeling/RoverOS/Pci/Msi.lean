import RoverOS.Pci.Basic

-- `pci.c`: the search of `initMSIX` for a capability that interrupts are set up with.

namespace RoverOS.Pci

def PCI_HEADER_CAPABILITIES_PTR_RESERVED : BitVec 32 := 0x34

def PCI_HEADER_CAPABILITIES_POINTER (ptrsv : BitVec 32) : BitVec 32 := ptrsv &&& 0xFC

def PCI_CAPABILITY_ID (v : BitVec 32) : BitVec 32 := v &&& 0xFF
def PCI_CAPABILITY_NEXT (v : BitVec 32) : BitVec 32 := (v >>> 8) &&& 0xFF

def PCI_CAPABILITY_ID_MSI  : BitVec 32 := 0x5
def PCI_CAPABILITY_ID_MSIX : BitVec 32 := 0x11

-- The variables of the search, `msi->msix`, and the addresses that have been written to the port.
structure Search where
  next  : BitVec 32
  found : Bool
  msix  : Bool
  ptr   : BitVec 32
  asked : List (BitVec 32)
  deriving DecidableEq, Repr

-- At most `fuel` iterations of the loop. The function in the address is 0, whatever `fn` is.
def searchLoop (top : Topology) (bus dev : BitVec 32) (fuel : Nat) (s : Search) : Option Search :=
  match fuel with
  | 0        => none
  | fuel + 1 =>
    if s.next = 0 then some s
    else
      let cap := getPCIData top bus dev 0 s.next
      let id := PCI_CAPABILITY_ID cap
      let s := { s with asked := configAddress bus dev 0 s.next :: s.asked }
      let s := if id = PCI_CAPABILITY_ID_MSI then { s with msix := false, found := true, ptr := s.next } else s
      if id = PCI_CAPABILITY_ID_MSIX then some { s with msix := true, found := true, ptr := s.next }
      else searchLoop top bus dev fuel { s with next := PCI_CAPABILITY_NEXT cap }

-- The search starts at the capabilities pointer. It returns `false` when nothing is `found` at its end.
def searchMSIX (top : Topology) (bus dev fn : BitVec 32) (msix : Bool) (fuel : Nat) : Option Search :=
  let cap := getPCIData top bus dev fn PCI_HEADER_CAPABILITIES_PTR_RESERVED
  searchLoop top bus dev fuel {
    next  := PCI_HEADER_CAPABILITIES_POINTER cap
    found := false
    msix  := msix
    ptr   := 0
    asked := [configAddress bus dev fn PCI_HEADER_CAPABILITIES_PTR_RESERVED]
  }

end RoverOS.Pci
