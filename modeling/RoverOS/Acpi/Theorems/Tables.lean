import RoverOS.Acpi.Tables

-- Which tables are passed on, whatever stands behind the root table.

open Bytes (Memory load)

namespace RoverOS.Acpi

-- The `k` pointers from `tables[i]` on.
def pointers (m : Memory) (tables : Nat) : Nat → Nat → List Nat
  | 0,     _ => []
  | k + 1, i => tableAt m tables i :: pointers m tables k (i + 1)

-- How many pointers the root table at `rsdt` contains.
def tableCount (m : Memory) (rsdt : Nat) : Nat :=
  (rsdtLength m rsdt - sizeofRsdt) / 4

-- The pointers in the root table that `rsdp` leads to.
def contained (m : Memory) (rsdp : Nat) : List Nat :=
  pointers m (rsdpRsdt m rsdp + sizeofRsdt) (tableCount m (rsdpRsdt m rsdp)) 0

-- The four bytes behind the last pointer of the root table.
def behindTables (m : Memory) (rsdp : Nat) : Nat :=
  tableAt m (rsdpRsdt m rsdp + sizeofRsdt) (tableCount m (rsdpRsdt m rsdp))

section Enumeration

variable {S : Type} {initHPET initAPIC : Nat → S → Except Exit S} {m : Memory} {s : S}
variable {tables n k i acpiptr : Nat}

-- The tables are all passed on to `indentifyTable`, one after the other, and all calls return.
def PassedOn (initHPET initAPIC : Nat → S → Except Exit S) (m : Memory) (s : S) (l : List Nat) : Prop :=
  ∃ s', l.foldlM (fun s table => indentifyTable initHPET initAPIC m table s) s = .ok s'

@[simp]
theorem passedOn_nil : PassedOn initHPET initAPIC m s [] := ⟨s, rfl⟩

theorem passedOn_cons_ok {s' : S} {table : Nat} {l : List Nat}
    (h : indentifyTable initHPET initAPIC m table s = .ok s') :
    PassedOn initHPET initAPIC m s (table :: l) ↔ PassedOn initHPET initAPIC m s' l := by
  simp only [PassedOn, List.foldlM_cons, h]
  rfl

theorem not_passedOn_cons {e : Exit} {table : Nat} {l : List Nat}
    (h : indentifyTable initHPET initAPIC m table s = .error e) :
    ¬PassedOn initHPET initAPIC m s (table :: l) := by
  rintro ⟨s', hs⟩
  rw [List.foldlM_cons, h] at hs
  cases hs

theorem passedOn_dropLast_ok {s' : S} {table : Nat} {l : List Nat}
    (h : indentifyTable initHPET initAPIC m table s = .ok s') :
    PassedOn initHPET initAPIC m s (table :: l).dropLast ↔ PassedOn initHPET initAPIC m s' l.dropLast := by
  cases l
  case nil       => simp
  case cons t l' => rw [List.dropLast_cons_cons, passedOn_cons_ok h]

section Loop

theorem tablesLoop_null (hz : tableAt m tables i = 0) :
    (tablesLoop initHPET initAPIC m tables (n + 1) i s).1 = [] := by
  simp only [tablesLoop, if_pos hz]

theorem tablesLoop_error {e : Exit} (hz : tableAt m tables i ≠ 0)
    (h : indentifyTable initHPET initAPIC m (tableAt m tables i) s = .error e) :
    (tablesLoop initHPET initAPIC m tables (n + 1) i s).1 = [tableAt m tables i] := by
  simp only [tablesLoop, if_neg hz, h]

theorem tablesLoop_ok {s' : S} (hz : tableAt m tables i ≠ 0)
    (h : indentifyTable initHPET initAPIC m (tableAt m tables i) s = .ok s') :
    (tablesLoop initHPET initAPIC m tables (n + 1) i s).1 =
      tableAt m tables i :: (tablesLoop initHPET initAPIC m tables n (i + 1) s').1 := by
  simp only [tablesLoop, if_neg hz, h]

-- The loop calls `indentifyTable` for exactly the `k` pointers from `i` on when none of them is null, and
-- behind them is a null pointer or the call for the last one does not return.
theorem tablesLoop_calls (hk : k < n) :
    (tablesLoop initHPET initAPIC m tables n i s).1 = pointers m tables k i ↔
      0 ∉ pointers m tables k i ∧
      PassedOn initHPET initAPIC m s (pointers m tables k i).dropLast ∧
      (PassedOn initHPET initAPIC m s (pointers m tables k i) → tableAt m tables (i + k) = 0) := by
  induction k generalizing n i s
  case zero =>
    obtain ⟨n, rfl⟩ := Nat.exists_eq_succ_of_ne_zero (by omega : n ≠ 0)
    by_cases hz : tableAt m tables i = 0
    case pos => simp [tablesLoop_null hz, pointers, hz]
    case neg =>
      cases hs : indentifyTable initHPET initAPIC m (tableAt m tables i) s
      case error e => simp [tablesLoop_error hz hs, pointers, hz]
      case ok s'   => simp [tablesLoop_ok hz hs, pointers, hz]
  case succ k hind =>
    obtain ⟨n, rfl⟩ := Nat.exists_eq_succ_of_ne_zero (by omega : n ≠ 0)
    by_cases hz : tableAt m tables i = 0
    case pos => simp [tablesLoop_null hz, pointers, hz]
    case neg =>
      have hi : i + (k + 1) = i + 1 + k := by omega
      have hmem : 0 ∉ pointers m tables (k + 1) i ↔ 0 ∉ pointers m tables k (i + 1) := by
        simp [pointers, Ne.symm hz]
      rw [hmem, hi, pointers]
      cases hs : indentifyTable initHPET initAPIC m (tableAt m tables i) s
      case ok s' =>
        rw [tablesLoop_ok hz hs, passedOn_cons_ok hs, passedOn_dropLast_ok hs, List.cons_inj_right]
        exact hind (by omega)
      case error e =>
        rw [tablesLoop_error hz hs, List.cons_inj_right]
        have hn : ∀ l, ¬PassedOn initHPET initAPIC m s (tableAt m tables i :: l) :=
          fun _ => not_passedOn_cons hs
        cases hp : pointers m tables k (i + 1)
        case nil       => simp [hn]
        case cons t l' => simp [hn]

end Loop

-- A root table's length field has 32 bits.
theorem tableCount_lt : tableCount m k < 2 ^ 31 := by
  have h : rsdtLength m k < 256 ^ 4 := Bytes.load_lt
  rw [tableCount]
  omega

theorem initACPI_of_signature (hs : load m acpiptr 8 = RSDP_SIGNATURE) :
    initACPI initHPET initAPIC m acpiptr s =
      tablesLoop initHPET initAPIC m (rsdpRsdt m acpiptr + sizeofRsdt) (2 ^ 31) 0 s := by
  rw [initACPI, if_neg]
  rw [hs]
  decide

-- The loop only ends at a null pointer, so the root table has to be followed by one and to contain none.
theorem initACPI_calls_iff (hs : load m acpiptr 8 = RSDP_SIGNATURE) :
    (initACPI initHPET initAPIC m acpiptr s).1 = contained m acpiptr ↔
      0 ∉ contained m acpiptr ∧ PassedOn initHPET initAPIC m s (contained m acpiptr).dropLast ∧
      (PassedOn initHPET initAPIC m s (contained m acpiptr) → behindTables m acpiptr = 0) := by
  rw [initACPI_of_signature hs, contained, tablesLoop_calls tableCount_lt, Nat.zero_add]
  rfl

end Enumeration

section Followed

-- A root table with the one pointer 0x2000, and four bytes behind it.
def rootMemory (behind : Nat) : Memory :=
  let m := Bytes.store (fun _ => 0) 0x10 8 RSDP_SIGNATURE
  let m := Bytes.store m 0x20 4 0x40
  let m := Bytes.store m 0x44 4 40
  let m := Bytes.store m 0x64 4 0x2000
  Bytes.store m 0x68 4 behind

def ignore (_ : Nat) (s : Unit) : Except Exit Unit := .ok s

theorem passedOn_ignore (m : Memory) (l : List Nat) : PassedOn ignore ignore m () l := by
  induction l
  case nil         => exact passedOn_nil
  case cons t l hi =>
    have h : indentifyTable ignore ignore m t () = .ok () := by
      simp only [indentifyTable, ignore]
      split_ifs <;> rfl
    exact (passedOn_cons_ok h).mpr hi

-- What follows the root table is passed on as well.
theorem initACPI_followed : load (rootMemory 0x3000) 0x10 8 = RSDP_SIGNATURE ∧
    (initACPI ignore ignore (rootMemory 0x3000) 0x10 ()).1 ≠ contained (rootMemory 0x3000) 0x10 := by
  have hs : load (rootMemory 0x3000) 0x10 8 = RSDP_SIGNATURE := by decide +kernel
  have hb : behindTables (rootMemory 0x3000) 0x10 ≠ 0 := by decide +kernel
  refine ⟨hs, ?_⟩
  rw [initACPI_of_signature hs, contained, Ne, tablesLoop_calls tableCount_lt, Nat.zero_add]
  rintro ⟨_, _, h⟩
  exact hb (h (passedOn_ignore _ _))

-- A root table with the three pointers 0x2000, 0x3000 and 0x4000, and a null pointer behind it.
def threeTables : Memory :=
  let m := Bytes.store (rootMemory 0x3000) 0x44 4 48
  Bytes.store m 0x6C 4 0x4000

theorem initACPI_calls_threeTables : contained threeTables 0x10 = [0x2000, 0x3000, 0x4000] ∧
    (initACPI ignore ignore threeTables 0x10 ()).1 = contained threeTables 0x10 := by
  have hc : contained threeTables 0x10 = [0x2000, 0x3000, 0x4000] := by decide +kernel
  refine ⟨hc, (initACPI_calls_iff (by decide +kernel)).mpr ⟨?nonzero, passedOn_ignore _ _, ?behind⟩⟩
  case nonzero =>
    rw [hc]
    decide
  case behind =>
    intro _
    decide +kernel

end Followed

end RoverOS.Acpi
