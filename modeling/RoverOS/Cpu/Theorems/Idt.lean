import RoverOS.Cpu.Interrupts
import RoverOS.Library.Bits

-- `cpu.c`: the interrupt descriptor table, and how the processor reads it.

open Function (update)

namespace RoverOS.Cpu

-- The bit fields are packed, the first one in the lowest bits.
structure IdtEntry where
  baseLower : BitVec 16
  selector  : BitVec 16
  ist       : BitVec 3
  ign0      : BitVec 5
  type      : BitVec 4
  a0        : BitVec 1
  dpl       : BitVec 2
  present   : BitVec 1
  baseUpper : BitVec 48
  reserved  : BitVec 32
  deriving DecidableEq, Repr

namespace IdtEntry

def zero : IdtEntry where
  baseLower := 0
  selector  := 0
  ist       := 0
  ign0      := 0
  type      := 0
  a0        := 0
  dpl       := 0
  present   := 0
  baseUpper := 0
  reserved  := 0

def bits (e : IdtEntry) : BitVec 128 :=
  e.reserved ++ e.baseUpper ++ e.present ++ e.dpl ++ e.a0 ++ e.type ++ e.ign0 ++ e.ist ++ e.selector ++ e.baseLower

end IdtEntry

def sizeofIdtEntry : Nat := 16

def IDT_BASE_LOWER (addr : Word) : Word := addr &&& 0xFFFF
def IDT_BASE_UPPER (addr : Word) : Word := addr >>> 16

-- `idtEntries`, of which there are 256, and the limit in `idtp`.
structure Idt where
  entries : Nat → IdtEntry
  limit   : Nat

def writeIDT (idt : Idt) (n : Nat) (selector : BitVec 16) (isr : Word) : Except Exit Idt :=
  if n < 256 then
    .ok { idt with entries := update idt.entries n { idt.entries n with
      type      := 0xE
      selector  := selector
      baseLower := (IDT_BASE_LOWER isr).setWidth 16
      baseUpper := (IDT_BASE_UPPER isr).setWidth 48
      present   := 1 } }
  else .error .fault

def overrideIDTEntry (idt : Idt) (vector : Nat) (handle : Word) : Except Exit Idt :=
  writeIDT idt vector 0x8 handle

-- In the order in which `initIDT` writes them.
def stubs : List Stub :=
  (List.finRange 32).map .isr ++ (List.finRange 16).map .irq

-- `address` is where the stubs are.
def initIDT (address : Stub → Word) : Except Exit Idt :=
  stubs.foldlM (fun idt stub => writeIDT idt stub.vector 0x8 (address stub))
    { entries := fun _ => .zero, limit := sizeofIdtEntry * 256 - 1 }

-- A descriptor as the processor decodes it.
structure Gate where
  offset   : Word
  selector : BitVec 16
  ist      : BitVec 3
  type     : BitVec 4
  system   : BitVec 1
  dpl      : BitVec 2
  deriving DecidableEq, Repr

def Gate.decode (d : BitVec 128) : Gate where
  offset   := d.extractLsb' 64 32 ++ d.extractLsb' 48 16 ++ d.extractLsb' 0 16
  selector := d.extractLsb' 16 16
  ist      := d.extractLsb' 32 3
  type     := d.extractLsb' 40 4
  system   := d.extractLsb' 44 1
  dpl      := d.extractLsb' 45 2

-- The gate through which an interrupt goes, when it is within the limit and present.
def Idt.gate (idt : Idt) (vector : Nat) : Option Gate :=
  let d := (idt.entries vector).bits
  if sizeofIdtEntry * vector + 15 ≤ idt.limit ∧ d.extractLsb' 47 1 = 1 then some (Gate.decode d) else none

-- Through which gate an interrupt goes, whatever entries have been overridden.

open Function (update update_self update_of_ne)

open BitVec (extractLsb'_append_eq_of_add_le extractLsb'_append_eq_of_le)

-- A call of `overrideIDTEntry`.
structure Override where
  vector : Nat
  handle : Word

def overrides (calls : List Override) (idt : Idt) : Except Exit Idt :=
  calls.foldlM (fun idt c => overrideIDTEntry idt c.vector c.handle) idt

-- The stub for a vector.
def stubAt (vector : Nat) : Option Stub :=
  if h : vector < 32 then some (.isr ⟨vector, h⟩)
  else if h : vector - 32 < 16 then some (.irq ⟨vector - 32, h⟩)
  else none

-- What was written for a vector last, the calls before the last one first.
def lastHandle (calls : List Override) (vector : Nat) : Option Word :=
  (calls.reverse.find? (·.vector = vector)).map Override.handle

-- An interrupt gate of the kernel's code, for interrupts and for instructions of the kernel alone.
def kernelGate (handle : Word) : Gate where
  offset   := handle
  selector := 0x8
  ist      := 0
  type     := 0xE
  system   := 0
  dpl      := 0

section Fields

variable {e : IdtEntry} {isr : Word}

theorem decode_bits : Gate.decode e.bits = {
    offset   := e.baseUpper.extractLsb' 16 32 ++ e.baseUpper.extractLsb' 0 16 ++ e.baseLower
    selector := e.selector
    ist      := e.ist
    type     := e.type
    system   := e.a0
    dpl      := e.dpl } := by
  simp (disch := omega) only [Gate.decode, IdtEntry.bits, extractLsb'_append_eq_of_le,
    extractLsb'_append_eq_of_add_le, Nat.reduceSub, BitVec.extractLsb'_eq_self]

theorem present_bits : e.bits.extractLsb' 47 1 = e.present := by
  simp (disch := omega) only [IdtEntry.bits, extractLsb'_append_eq_of_le, extractLsb'_append_eq_of_add_le,
    Nat.reduceSub, BitVec.extractLsb'_eq_self]

-- The three parts of the address make up all of it.
theorem base_parts : ((IDT_BASE_UPPER isr).setWidth 48).extractLsb' 16 32 ++
    ((IDT_BASE_UPPER isr).setWidth 48).extractLsb' 0 16 ++ (IDT_BASE_LOWER isr).setWidth 16 = isr := by
  have hu : ((IDT_BASE_UPPER isr).setWidth 48).extractLsb' 16 32 ++
      ((IDT_BASE_UPPER isr).setWidth 48).extractLsb' 0 16 = (IDT_BASE_UPPER isr).setWidth 48 :=
    BitVec.extractLsb'_append_extractLsb' (w := 32)
  rw [hu]
  refine BitVec.eq_of_getLsbD_eq fun i hi => ?_
  rw [BitVec.getLsbD_append]
  by_cases h : i < 16
  case pos =>
    have hm : IDT_BASE_LOWER isr = isr &&& BitVec.ofNat 64 (2 ^ 16 - 1) := rfl
    have hi64 : i < 64 := by omega
    rw [if_pos h, BitVec.getLsbD_setWidth, hm, BitVec.getLsbD_and, getLsbD_lowMask]
    simp [h, hi64]
  case neg =>
    have hd : i - 16 < 48 := by omega
    have hs : 16 + (i - 16) = i := by omega
    simp [IDT_BASE_UPPER, h, hd, hs]

end Fields

section Writes

variable {idt idt' : Idt} {f : Nat → Option Word} {n v : Nat} {isr : Word} {calls : List Override}

def kernelEntry (isr : Word) : IdtEntry :=
  { IdtEntry.zero with
    type      := 0xE
    selector  := 0x8
    baseLower := (IDT_BASE_LOWER isr).setWidth 16
    baseUpper := (IDT_BASE_UPPER isr).setWidth 48
    present   := 1 }

-- The table leads each vector to where `f` says, and is zero elsewhere.
structure Shows (idt : Idt) (f : Nat → Option Word) : Prop where
  limit   : idt.limit = sizeofIdtEntry * 256 - 1
  entries : ∀ v, idt.entries v = (f v).elim .zero kernelEntry

theorem Shows.gate (h : Shows idt f) (hv : v < 256) : idt.gate v = (f v).map kernelGate := by
  have hl : sizeofIdtEntry * v + 15 ≤ idt.limit := by
    rw [h.limit, sizeofIdtEntry]
    omega
  rw [Idt.gate, present_bits, decode_bits, h.entries v]
  cases f v
  case none     => exact if_neg fun hp => absurd hp.right (by decide)
  case some isr =>
    refine (if_pos ⟨hl, rfl⟩).trans (congrArg some ?_)
    rw [kernelGate, Gate.mk.injEq]
    exact ⟨base_parts, rfl, rfl, rfl, rfl, rfl⟩

theorem Shows.writeIDT (h : Shows idt f) (hw : writeIDT idt n 0x8 isr = .ok idt') :
    Shows idt' (update f n (some isr)) := by
  rw [Cpu.writeIDT] at hw
  split_ifs at hw
  cases hw
  refine ⟨h.limit, fun v => ?_⟩
  by_cases hv : v = n
  case pos =>
    subst hv
    simp only [update_self, h.entries v]
    cases f v
    case none => rfl
    case some => rfl
  case neg => simp only [update_of_ne hv, h.entries v]

theorem Shows.overrides (h : Shows idt f) (ho : overrides calls idt = .ok idt') :
    Shows idt' fun v => (lastHandle calls v).or (f v) := by
  induction calls generalizing idt f
  case nil =>
    cases ho
    exact h
  case cons c calls hi =>
    have ⟨idt₁, hc, ho⟩ := Except.bind_ok_iff.mp ho
    have hs := hi (h.writeIDT hc) ho
    refine ⟨hs.limit, fun v => ?_⟩
    rw [hs.entries v, lastHandle, lastHandle, List.reverse_cons, List.find?_append]
    congr 1
    cases calls.reverse.find? (·.vector = v)
    case some => rfl
    case none =>
      by_cases hv : c.vector = v
      case pos => simp [hv]
      case neg => simp [hv, update_of_ne (Ne.symm hv)]

theorem overrides_ok_iff : (∃ idt', overrides calls idt = .ok idt') ↔ ∀ c ∈ calls, c.vector < 256 := by
  induction calls generalizing idt
  case nil => exact iff_of_true ⟨idt, rfl⟩ nofun
  case cons c calls hi =>
    by_cases hc : c.vector < 256
    case pos =>
      have hw : ∃ idt₁, overrideIDTEntry idt c.vector c.handle = .ok idt₁ := ⟨_, if_pos hc⟩
      have ⟨idt₁, hw⟩ := hw
      rw [overrides, List.foldlM_cons, hw, List.forall_mem_cons, and_iff_right hc]
      exact hi
    case neg =>
      have hw : overrideIDTEntry idt c.vector c.handle = .error .fault := if_neg hc
      refine iff_of_false ?_ fun h => hc (h c (.head _))
      rw [overrides, List.foldlM_cons, hw]
      exact fun ⟨_, h⟩ => nomatch h

end Writes

section Run

variable {address : Stub → Word} {idt idt' : Idt} {calls : List Override} {v : Nat}

deriving instance DecidableEq for Stub

theorem find_stub (hv : v < 48) : stubs.reverse.find? (·.vector = v) = stubAt v := by
  revert v
  decide

theorem vector_lt (s : Stub) : s.vector < 48 := by
  cases s
  case isr n => exact n.isLt.trans (by decide)
  case irq n => exact Nat.add_lt_add_right n.isLt 32

theorem lastHandle_stubs : lastHandle (stubs.map fun s => ⟨s.vector, address s⟩) v = (stubAt v).map address := by
  have hf : lastHandle (stubs.map fun s => ⟨s.vector, address s⟩) v =
      (stubs.reverse.find? (·.vector = v)).map address := by
    rw [lastHandle, ← List.map_reverse, List.find?_map, Option.map_map]
    rfl
  rw [hf]
  by_cases hv : v < 48
  case pos => rw [find_stub hv]
  case neg =>
    have hn : stubs.reverse.find? (·.vector = v) = none :=
      List.find?_eq_none.mpr fun s _ he => hv (of_decide_eq_true he ▸ vector_lt s)
    have hs : stubAt v = none := by
      rw [stubAt, dif_neg (by omega), dif_neg (by omega)]
    rw [hn, hs]

theorem initIDT_shows (address : Stub → Word) : ∃ idt, initIDT address = .ok idt ∧ Shows idt fun v => (stubAt v).map address := by
  let cleared : Idt := { entries := fun _ => .zero, limit := sizeofIdtEntry * 256 - 1 }
  have hi : initIDT address = overrides (stubs.map fun s => ⟨s.vector, address s⟩) cleared := by
    rw [initIDT, overrides, List.foldlM_map]
    rfl
  have hv : ∀ c ∈ stubs.map fun s => (⟨s.vector, address s⟩ : Override), c.vector < 256 := by
    intro c hc
    have ⟨s, _, he⟩ := List.mem_map.mp hc
    exact he ▸ (vector_lt s).trans (by decide)
  have ⟨idt, ho⟩ := (overrides_ok_iff : (∃ idt, overrides _ cleared = .ok idt) ↔ _).mpr hv
  have hz : Shows cleared fun _ => none := ⟨rfl, fun _ => rfl⟩
  have hs := hz.overrides ho
  refine ⟨idt, hi.trans ho, hs.limit, fun v => ?_⟩
  rw [hs.entries v, Option.or_none, lastHandle_stubs]

-- Every vector leads to the entry that was written for it last, or to its stub, with the kernel's code segment and
-- for the kernel alone, and no other vector leads anywhere.
theorem idt_gates (address : Stub → Word) (calls : List Override) :
    ((∃ idt, (initIDT address >>= overrides calls) = .ok idt) ↔ ∀ c ∈ calls, c.vector < 256) ∧
    ∀ idt, (initIDT address >>= overrides calls) = .ok idt → ∀ v < 256,
      idt.gate v = ((lastHandle calls v).or ((stubAt v).map address)).map kernelGate := by
  have ⟨idt₀, hi, hs⟩ := initIDT_shows address
  rw [hi]
  refine ⟨overrides_ok_iff, fun idt h v hv => ?_⟩
  exact (hs.overrides h).gate hv

end Run

end RoverOS.Cpu
