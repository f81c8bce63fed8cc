import RoverOS.Basic

-- `pci.c`: the configuration space behind the two ports, and the devices that a scan of a bus records.

namespace RoverOS.Pci

-- What the configuration spaces hold: for a bus, a device, a function and the offset of a register.
abbrev Topology := BitVec 8 → BitVec 5 → BitVec 3 → BitVec 8 → BitVec 32

-- What is written to `PCI_CONFIG_ADDRESS`.
def configAddress (bus dev fn reg : BitVec 32) : BitVec 32 :=
  ((1 : BitVec 32) <<< 31) ||| (bus <<< 16) ||| (dev <<< 11) ||| (fn <<< 8) ||| (reg &&& 0xFC)

-- The parts of the address as the hardware decodes them.
def busOf (addr : BitVec 32) : BitVec 8 := addr.extractLsb' 16 8
def devOf (addr : BitVec 32) : BitVec 5 := addr.extractLsb' 11 5
def fnOf  (addr : BitVec 32) : BitVec 3 := addr.extractLsb' 8 3
def regOf (addr : BitVec 32) : BitVec 8 := addr.extractLsb' 0 8

-- What is read from `PCI_CONFIG_DATA` for an address.
def Topology.data (top : Topology) (addr : BitVec 32) : BitVec 32 :=
  top (busOf addr) (devOf addr) (fnOf addr) (regOf addr)

def getPCIData (top : Topology) (bus dev fn reg : BitVec 32) : BitVec 32 :=
  top.data (configAddress bus dev fn reg)

def PCI_HEADER_VENDOR    : BitVec 32 := 0x0
def PCI_HEADER_DEVICEID  : BitVec 32 := 0x0
def PCI_HEADER_CLASSCODE : BitVec 32 := 0x8

def PCI_HEADER_GET_VENDOR (d : BitVec 32) : BitVec 32 := d &&& 0xFFFF
def PCI_HEADER_GET_CLASSCODE (d : BitVec 32) : BitVec 32 := d >>> 8

structure PciDeviceInfo where
  classCode    : BitVec 64
  bus          : BitVec 8
  dev          : BitVec 8
  behindBridge : Bool
  bridge       : BitVec 8
  deriving DecidableEq, Repr

-- The array of the records with `deviceCount` and `alloc`, which are `uint16_t`s.
structure PciInfo where
  device      : List PciDeviceInfo
  deviceCount : BitVec 16
  alloc       : BitVec 16

-- `krealloc` gives a block of the size that is asked for, which starts with what was in the old one.
structure Krealloc where
  resize : List PciDeviceInfo → Nat → List PciDeviceInfo
  length : ∀ device n, (resize device n).length = n
  keeps  : ∀ device n, (resize device n).take device.length = device.take n

namespace PciInfo

-- A record is written behind the last one, and the array grows when it is full.
def record (mem : Krealloc) (pci : PciInfo) (info : PciDeviceInfo) : Except Exit PciInfo :=
  if pci.deviceCount.toNat < pci.device.length then
    let device := pci.device.set pci.deviceCount.toNat info
    let deviceCount := pci.deviceCount + 1
    if deviceCount ≥ pci.alloc then
      let alloc := pci.alloc + 10
      .ok { device := mem.resize device alloc.toNat, deviceCount, alloc }
    else .ok { device, deviceCount, alloc := pci.alloc }
  else .error .fault

-- The loop of `scanBus` from device `i` on, with `left` devices to go. What is printed is left out.
def scanFrom (mem : Krealloc) (top : Topology) (bus : BitVec 8) (left i : Nat) (pci : PciInfo) : Except Exit PciInfo :=
  match left with
  | 0        => .ok pci
  | left + 1 =>
    let read reg := getPCIData top (bus.setWidth 32) (BitVec.ofNat 32 i) 0 reg
    let vendor := PCI_HEADER_GET_VENDOR (read PCI_HEADER_VENDOR)
    if vendor = 0xFFFF then scanFrom mem top bus left (i + 1) pci
    else do
      let cls := PCI_HEADER_GET_CLASSCODE (read PCI_HEADER_CLASSCODE)
      let pci ← pci.record mem ⟨cls.setWidth 64, bus, BitVec.ofNat 8 i, false, 0⟩
      scanFrom mem top bus left (i + 1) pci

def scanBus (mem : Krealloc) (top : Topology) (pci : PciInfo) (bus : BitVec 8) : Except Exit PciInfo :=
  scanFrom mem top bus 255 0 pci

-- The records of the array.
def recorded (pci : PciInfo) : List PciDeviceInfo := pci.device.take pci.deviceCount.toNat

-- What `initPCI` starts with: room for ten records.
structure Start (pci : PciInfo) : Prop where
  device : pci.device.length = 10
  count  : pci.deviceCount = 0
  alloc  : pci.alloc = 10

end PciInfo

end RoverOS.Pci
