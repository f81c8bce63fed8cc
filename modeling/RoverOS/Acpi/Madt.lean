import RoverOS.Ramdisk.Reads

-- `apic.c`: the search for interrupt controller structures in the MADT, and the loops that are built on it.

open Bytes (Memory load)
open RoverOS.Ramdisk (Read loadWith readAny readImage)

namespace RoverOS.Acpi

-- How a call ends without its result. Behind the fuel it is still running.
inductive Stop
  | exit (e : Exit)
  | running
  deriving DecidableEq, Repr

def ofExit {α : Type} : Except Exit α → Except Stop α :=
  Except.mapError .exit

def ICS_LAPIC  : Nat := 0
def ICS_IOAPIC : Nat := 1
def ICS_ISO    : Nat := 2

def LAPIC_ENABLED        : Nat := 1 <<< 0
def LAPIC_ONLINE_CAPABLE : Nat := 1 <<< 1

def PIT_CHANNEL0 : Nat := 0

-- `sizeof(struct acpiMADT)`
def sizeofMadt : Nat := 44

-- `madtBase` and `madtLength`. The tables are found through pointers of 32 bits.
structure Madt where
  base   : BitVec 32
  length : BitVec 32
  deriving DecidableEq

-- The addresses in the kernel are numbers, and NULL is 0.
def Madt.header (madt : Madt) : Nat := madt.base.toNat + sizeofMadt

-- `clen` for a search from `current` on.
def Madt.offset (madt : Madt) (current : Nat) : Nat :=
  sub64 (sub64 current madt.base.toNat) sizeofMadt

-- What becomes of an IOAPIC: the list is extended and the registers are mapped, with a panic when there is no
-- memory, and the interrupt of the timer is routed. `count` is `ioapicCount`.
structure Devices where
  claim : (count ioAddr : Nat) → Except Exit Unit
  route : (count pitMap : Nat) → Except Exit Unit

section With

variable (read : Read)

def fetch (a n : Nat) : Except Stop Nat := ofExit (loadWith read a n)

def icsType (check : Nat) : Except Stop Nat := fetch read check 1

def icsLength (check : Nat) : Except Stop Nat := fetch read (u64 (check + 1)) 1

variable (madt : Madt)

-- The length that is added to `clen` is the one of the next structure.
def searchLoop (type : Nat) : Nat → Nat → Nat → Except Stop Nat
  | 0,        _,    _     => .error .running
  | fuel + 1, clen, check =>
    if clen ≤ madt.length.toNat then do
      let length ← icsLength read check
      let check := u64 (check + length)
      let length ← icsLength read check
      let found ← icsType read check
      if found = type then return check
      searchLoop type fuel (u64 (clen + length)) check
    else .ok 0

def findNextICS (fuel type current : Nat) (checkInitial : Bool) : Except Stop Nat := do
  let hit ← if checkInitial then (icsType read current).map (· == type) else .ok false
  if hit then return current
  searchLoop read madt type fuel (madt.offset current) current

-- `while((iso = findNextICS(ICS_ISO,iso,false)) != NULL)`, which ends in `pitMap`.
def isoLoop (fuel : Nat) : Nat → Nat → Except Stop Nat
  | 0,     _   => .error .running
  | n + 1, iso => do
    let iso ← findNextICS read madt fuel ICS_ISO iso false
    if iso = 0 then return 0
    let source ← fetch read (u64 (iso + 3)) 1
    if source ≠ PIT_CHANNEL0 then isoLoop fuel n iso
    else do
      let gsi ← fetch read (u64 (iso + 4)) 4
      return u8 gsi

variable (devices : Devices)

-- Returns `ioapicCount`.
def initIOAPIC (fuel ptr headers count : Nat) : Except Stop Nat := do
  let ioAddr ← fetch read (u64 (ptr + 4)) 4
  if ioAddr % 0x1000 ≠ 0 then return count
  ofExit (devices.claim count ioAddr)
  let pitMap ← isoLoop read madt fuel fuel headers
  ofExit (devices.route count pitMap)
  return count + 1

def ioapicLoop (fuel headers : Nat) : Nat → Nat → Nat → Except Stop Nat
  | 0,     _,     _     => .error .running
  | n + 1, check, count =>
    if check = 0 then .ok count
    else do
      let count ← initIOAPIC read madt devices fuel check headers count
      let check ← findNextICS read madt fuel ICS_IOAPIC check false
      ioapicLoop fuel headers n check count

-- `(lp->flags&LAPIC_ENABLED)|(lp->flags&LAPIC_ONLINE_CAPABLE) == 0x0`, where `==` binds stronger than `|`.
def skipsLapic (flags : Nat) : Bool :=
  (flags &&& LAPIC_ENABLED) ||| (if flags &&& LAPIC_ONLINE_CAPABLE = 0 then 1 else 0) ≠ 0

def lapicLoop (fuel : Nat) : Nat → Nat → Nat → Except Stop Nat
  | 0,     _,     _       => .error .running
  | n + 1, check, apCount => do
    let check ← findNextICS read madt fuel ICS_LAPIC check false
    if check = 0 then return apCount
    let flags ← fetch read (u64 (check + 4)) 4
    if skipsLapic flags then lapicLoop fuel n check apCount
    else lapicLoop fuel n check (u16 (apCount + 1))

end With

-- The arguments of `initLapic`.
structure InitLapic where
  bar     : Nat
  apCount : Nat
  wakeup  : Nat

def initAPIC (read : Read) (devices : Devices) (fuel : Nat) (ptr : BitVec 32) (count : Nat) :
    Except Stop InitLapic := do
  let length ← fetch read (ptr.toNat + 4) 4
  let madt : Madt := { base := ptr, length := BitVec.ofNat 32 length }
  let check ← findNextICS read madt fuel ICS_IOAPIC madt.header true
  let _ ← ioapicLoop read madt devices fuel madt.header fuel check count
  let mpw ← findNextICS read madt fuel ICS_IOAPIC madt.header true
  let check ← findNextICS read madt fuel ICS_IOAPIC madt.header true
  let apCount ← lapicLoop read madt fuel fuel check 1
  let bar ← fetch read (ptr.toNat + 36) 4
  return { bar, apCount, wakeup := mpw }

section Find

variable {read : Read} {madt : Madt} {fuel type current t : Nat}

theorem findNextICS_false : findNextICS read madt fuel type current false =
    searchLoop read madt type fuel (madt.offset current) current := rfl

theorem findNextICS_true (h : icsType read current = .ok t) : findNextICS read madt fuel type current true =
    if t = type then .ok current else searchLoop read madt type fuel (madt.offset current) current := by
  simp only [findNextICS, if_true, h, Except.map, bind, Except.bind, beq_iff_eq]
  rfl

end Find

end RoverOS.Acpi
