import RoverOS.Library.Bytes
import RoverOS.Basic

-- `acpi.c`: the tables that the root table points to.

open Bytes (Memory load)

namespace RoverOS.Acpi

def RSDP_SIGNATURE : Nat := 0x2052545020445352
def XSDT_SIGNATURE : Nat := 0x0
def HPET_SIGNATURE : Nat := 0x54455048
def APIC_SIGNATURE : Nat := 0x43495041

-- `sizeof(struct rsdt)`
def sizeofRsdt : Nat := 36

-- The root table's address in the structure at `rsdp`.
def rsdpRsdt (m : Memory) (rsdp : Nat) : Nat := load m (rsdp + 16) 4

def rsdtLength (m : Memory) (rsdt : Nat) : Nat := load m (rsdt + 4) 4

-- `tables[i]`
def tableAt (m : Memory) (tables i : Nat) : Nat := load m (tables + 4 * i) 4

section Calls

-- `S` is what the kernel knows. The tables themselves are never written.
variable {S : Type} (initHPET initAPIC : Nat → S → Except Exit S) (m : Memory)

def indentifyTable (ptr : Nat) (s : S) : Except Exit S :=
  let signature := load m ptr 4
  if signature = HPET_SIGNATURE then initHPET ptr s
  else if signature = APIC_SIGNATURE then initAPIC ptr s
  else .ok s

-- `for(int i = 0; tables[i] != 0x0; ++i)`, with `n` values of an `int` to go: the tables that are passed
-- on, in this order, and how the loop ends.
def tablesLoop (tables : Nat) : Nat → Nat → S → List Nat × Except Exit S
  | 0,     _, _ => ([], .error .fault)
  | n + 1, i, s =>
    let table := tableAt m tables i
    if table = 0 then ([], .ok s)
    else
      match indentifyTable initHPET initAPIC m table s with
      | .error e => ([table], .error e)
      | .ok s    =>
        let rest := tablesLoop tables n (i + 1) s
        (table :: rest.1, rest.2)

def initACPI (acpiptr : Nat) (s : S) : List Nat × Except Exit S :=
  let signature := load m acpiptr 8
  if signature ≠ RSDP_SIGNATURE ∨ signature = XSDT_SIGNATURE then ([], .ok s)
  else
    let tables := rsdpRsdt m acpiptr + sizeofRsdt
    tablesLoop initHPET initAPIC m tables (2 ^ 31) 0 s

end Calls

end RoverOS.Acpi
