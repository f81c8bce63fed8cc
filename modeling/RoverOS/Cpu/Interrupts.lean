import RoverOS.Basic

-- `cpu.c`: the table of the interrupt handlers, and what the stubs in the IDT do with it.

namespace RoverOS

-- `handlers`, where NULL is `none`, and the handlers that have been called, the last one first.
structure Cpu (H : Type) where
  handlers : Vector (Option H) 30
  called   : List H

namespace Cpu

variable {H : Type}

-- The kernel's data is zero when it starts.
def boot : Cpu H where
  handlers := .replicate 30 none
  called   := []

-- `handlers[vector]`
def handler (cpu : Cpu H) (vector : Nat) : Except Exit (Option H) :=
  match cpu.handlers[vector]? with
  | none   => .error .fault
  | some h => .ok h

def setHandler (cpu : Cpu H) (vector : Nat) (h : Option H) : Except Exit (Cpu H) :=
  if hv : vector < 30 then .ok { cpu with handlers := cpu.handlers.set vector h } else .error .fault

-- `fnc(&reg)`
def invoke (cpu : Cpu H) (fnc : H) : Cpu H :=
  { cpu with called := fnc :: cpu.called }

section BuiltIn

-- `for(;;){asm("hlt");}`
def hltForever : Except Exit Unit := .error .halt

def divByZero              : Except Exit Unit := hltForever
def debugException         : Except Exit Unit := hltForever
def invalidOpcode          : Except Exit Unit := hltForever
def kpanic                 : Except Exit Unit := hltForever
def generalProtectionFault : Except Exit Unit := hltForever
def pageFault              : Except Exit Unit := hltForever

def builtIn : Nat → Except Exit Unit
  | 0x0 => divByZero
  | 0x1 => debugException
  | 0x6 => invalidOpcode
  | 0x8 => kpanic
  | 0xD => generalProtectionFault
  | 0xE => pageFault
  | _   => .ok ()

end BuiltIn

def isr (ec : Nat) (cpu : Cpu H) : Except Exit (Cpu H) := do
  builtIn ec
  match ← cpu.handler ec with
  | some fnc => return cpu.invoke fnc
  | none     => .error .halt

def irq (irqn : Nat) (cpu : Cpu H) : Except Exit (Cpu H) := do
  if irqn < 32 then return cpu
  match ← cpu.handler irqn with
  | some fnc => return cpu.invoke fnc
  | none     => return cpu

-- The stubs of `cpu.asm` that `initIDT` writes into the IDT: `isr0` to `isr31`, and `irq0` to `irq15`.
inductive Stub
  | isr (n : Fin 32)
  | irq (n : Fin 16)

-- Where `initIDT` puts the stub. It is also the number that the stub passes on.
def Stub.vector : Stub → Nat
  | .isr n => n
  | .irq n => n + 32

def interrupt (cpu : Cpu H) : Stub → Except Exit (Cpu H)
  | .isr n => cpu.isr n
  | .irq n => cpu.irq (n + 32)

def addInterruptHandler (vector : Nat) (h : Option H) (cpu : Cpu H) : Except Exit (Cpu H) :=
  cpu.setHandler vector h

def removeInterruptHandler (vector : Nat) (cpu : Cpu H) : Except Exit (Cpu H) :=
  cpu.setHandler vector none

-- `for(uint32_t i = 19; i < 255; ++i)`, with `n` vectors to go.
def allocateLoop (h : Option H) (cpu : Cpu H) : Nat → Nat → Except Exit (Nat × Cpu H)
  | 0,     _ => return (0, cpu)
  | n + 1, i => do
    match ← cpu.handler i with
    | some _ => allocateLoop h cpu n (i + 1)
    | none   =>
      let cpu ← cpu.setHandler i h
      return (u16 i, cpu)

def allocateInterrupt (h : Option H) (cpu : Cpu H) : Except Exit (Nat × Cpu H) :=
  allocateLoop h cpu (255 - 19) 19

section Table

variable {cpu : Cpu H} {vector : Nat}

theorem handler_of_lt (hv : vector < 30) : cpu.handler vector = .ok cpu.handlers[vector] := by
  simp [handler, hv]

theorem handler_of_le (hv : 30 ≤ vector) : cpu.handler vector = .error .fault := by
  simp [handler, hv]

theorem setHandler_of_lt {h : Option H} (hv : vector < 30) :
    cpu.setHandler vector h = .ok { cpu with handlers := cpu.handlers.set vector h } :=
  dif_pos hv

theorem setHandler_of_le {h : Option H} (hv : 30 ≤ vector) : cpu.setHandler vector h = .error .fault :=
  dif_neg (Nat.not_lt.mpr hv)

theorem builtIn_ok_or_halt (vector : Nat) : builtIn vector = .ok () ∨ builtIn vector = .error .halt := by
  unfold builtIn
  split
  case h_7 => exact .inl rfl
  all_goals exact .inr rfl

theorem builtIn_of_le (hv : 15 ≤ vector) : builtIn vector = .ok () := by
  unfold builtIn
  split
  case h_7 => rfl
  all_goals omega

theorem isr_handlers {cpu' : Cpu H} (h : cpu.isr vector = .ok cpu') : cpu'.handlers = cpu.handlers := by
  simp only [isr, Except.bind_ok_iff] at h
  obtain ⟨_, _, h', _, h⟩ := h
  cases h'
  case none     => cases h
  case some fnc => cases h; rfl

theorem irq_handlers {cpu' : Cpu H} (h : cpu.irq vector = .ok cpu') : cpu'.handlers = cpu.handlers := by
  rw [irq] at h
  split at h
  case isTrue => cases h; rfl
  case isFalse =>
    simp only [Except.bind_ok_iff] at h
    obtain ⟨h', _, h⟩ := h
    cases h' <;> cases h <;> rfl

-- An interrupt leaves the table alone.
theorem interrupt_handlers {cpu' : Cpu H} {stub : Stub} (h : cpu.interrupt stub = .ok cpu') :
    cpu'.handlers = cpu.handlers := by
  cases stub
  case isr => exact isr_handlers h
  case irq => exact irq_handlers h

-- No stub for an interrupt of a device has a handler in the table.
theorem irq_fault (n : Fin 16) : cpu.interrupt (.irq n) = .error .fault := by
  have hn : ¬n.val + 32 < 32 := by omega
  have hv : 30 ≤ n.val + 32 := by omega
  simp only [interrupt, irq, if_neg hn, handler_of_le hv, bind, Except.bind]

end Table

end Cpu
end RoverOS
