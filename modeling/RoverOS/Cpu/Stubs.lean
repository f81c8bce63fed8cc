import RoverOS.Cpu.Interrupts
import RoverOS.Library.Stack

-- `cpu.asm`: the stubs that call the C handlers, and the instructions that they consist of.

open Function (update)

namespace RoverOS.Cpu

-- The general registers but for `rsp`.
inductive Reg
  | rax | rbx | rcx | rdx | rsi | rdi | rbp | r8 | r9 | r10 | r11 | r12 | r13 | r14 | r15
  deriving DecidableEq, Repr

-- `rip` is where the processor goes on behind the stub. The stack is kept in aligned words, as the
-- processor aligns it for an interrupt.
structure Machine where
  regs   : Reg → Word
  rip    : Word
  cs     : Word
  rflags : Word
  ss     : Word
  stack  : Stack Word

inductive Instr
  | push (r : Reg)
  | pushImm (v : Word)
  | pop (r : Reg)
  | mov (r : Reg) (v : Word)
  | movRsp (r : Reg)
  | load (r : Reg) (n : Nat) -- `mov r, qword [rsp+n*8]`
  | xor (r : Reg)            -- `xor r, r`
  | cli
  | call (r : Reg)
  | iretq

namespace Machine

def set (r : Reg) (v : Word) (m : Machine) : Machine :=
  { m with regs := update m.regs r v }

def IF : Word := BitVec.twoPow 64 9

-- A difference of zero: the carry, the sign and the overflow are clear, the zero and the parity are set.
def flagsOfZero (rflags : Word) : Word :=
  rflags &&& ~~~0x8C5 ||| 0x44

-- `iretq` takes five words from the stack.
def iretq (m : Machine) : Machine where
  regs   := m.regs
  rip    := m.stack.top
  cs     := m.stack.drop.top
  rflags := m.stack.drop.drop.top
  ss     := m.stack.drop.drop.drop.drop.top
  stack  := { m.stack with sp := m.stack.drop.drop.drop.top }

-- `function a m` is the machine when the C function at the address `a` has returned.
def exec (function : Word → Machine → Machine) (m : Machine) : Instr → Machine
  | .push r    => { m with stack := m.stack.push (m.regs r) }
  | .pushImm v => { m with stack := m.stack.push v }
  | .pop r     => { m.set r m.stack.top with stack := m.stack.drop }
  | .mov r v   => m.set r v
  | .movRsp r  => m.set r m.stack.sp
  | .load r n  => m.set r (m.stack.mem (Stack.slot m.stack.sp n))
  | .xor r     => { m.set r 0 with rflags := flagsOfZero m.rflags }
  | .cli       => { m with rflags := m.rflags &&& ~~~IF }
  | .call r    => function (m.regs r) m
  | .iretq     => m.iretq

def run (function : Word → Machine → Machine) (m : Machine) (l : List Instr) : Machine :=
  l.foldl (exec function) m

end Machine

-- The registers in the order in which `pushall` saves them.
def saved : List Reg :=
  [.rax, .rbx, .rcx, .rdx, .rsi, .rdi, .rbp, .r8, .r9, .r10, .r11, .r12, .r13, .r14, .r15]

def pushall : List Instr := saved.map .push

def popall : List Instr := saved.reverse.map .pop

section Macros

-- Where `isr` and `irq` are.
variable (isrAddress irqAddress : Word)

-- The call of `fnc` with the vector in `rdi`, the saved registers in `rsi`, and a third argument.
def callHandler (vector : Nat) (rdx : Instr) (fnc : Word) : List Instr :=
  [.mov .rdi (BitVec.ofNat 64 vector), .movRsp .rsi, rdx, .xor .rbp, .mov .r15 fnc, .call .r15]

def ISR_ERROR_CODE (vector : Nat) : List Instr :=
  pushall ++ callHandler vector (.load .rdx 20) isrAddress ++ popall ++ [.iretq]

def ISR_NO_ERROR_CODE (vector : Nat) : List Instr :=
  .pushImm 0 :: pushall ++ callHandler vector (.xor .rdx) isrAddress ++ popall ++ [.iretq]

def IRQ (vector : Nat) : List Instr :=
  .cli :: pushall ++ callHandler vector (.xor .rdx) irqAddress ++ popall ++ [.iretq]

-- The vectors with the macro `ISR_ERROR_CODE`.
def errorCodeStubs : List Nat := [8, 10, 11, 12, 13, 14, 21]

def Stub.code : Stub → List Instr
  | .isr n => if n.val ∈ errorCodeStubs then ISR_ERROR_CODE isrAddress n else ISR_NO_ERROR_CODE isrAddress n
  | .irq n => IRQ irqAddress (n + 32)

end Macros

section Exec

variable {function : Word → Machine → Machine} {m : Machine} {r : Reg} {v a b c d e : Word}
variable {l l₁ l₂ : List Instr} {st : List Word} {rs : List Reg} {f : Reg → Word}

theorem run_append : m.run function (l₁ ++ l₂) = (m.run function l₁).run function l₂ :=
  List.foldl_append

theorem run_cons {i : Instr} : m.run function (i :: l) = (m.exec function i).run function l := rfl

-- What the pushes leave on the stack, the last register on the top.
theorem run_pushes (function : Word → Machine → Machine) (rs : List Reg) (h : m.stack.Holds st)
    (hl : rs.length + st.length < 2 ^ 61) :
    (m.run function (rs.map .push)).regs = m.regs ∧
    (m.run function (rs.map .push)).stack.Holds ((rs.map m.regs).reverse ++ st) := by
  induction rs generalizing m st
  case nil => exact ⟨rfl, h⟩
  case cons r rs hind =>
    rw [List.length_cons] at hl
    have hpush : (m.stack.push (m.regs r)).Holds (m.regs r :: st) := h.push (by omega)
    obtain ⟨hr, hs⟩ := hind (m := { m with stack := m.stack.push (m.regs r) }) hpush
      (by rw [List.length_cons]; omega)
    refine ⟨hr, ?_⟩
    rw [List.map_cons, List.map_cons, List.reverse_cons, List.append_assoc]
    exact hs

-- The pops take the words of their registers.
theorem run_pops (function : Word → Machine → Machine) (h : m.stack.Holds (rs.map f ++ st)) :
    (m.run function (rs.map .pop)).stack.Holds st ∧
    ∀ r, (m.run function (rs.map .pop)).regs r = if r ∈ rs then f r else m.regs r := by
  induction rs generalizing m
  case nil => exact ⟨h, fun r => by simp [Machine.run]⟩
  case cons r rs hind =>
    have htop : m.stack.top = f r := h.top
    obtain ⟨hs, hr⟩ := hind (m := { m.set r m.stack.top with stack := m.stack.drop }) h.drop
    refine ⟨hs, ?_⟩
    intro r'
    rw [List.map_cons, run_cons]
    refine (hr r').trans ?_
    by_cases hm : r' ∈ rs
    case pos => rw [if_pos hm, if_pos (List.mem_cons_of_mem r hm)]
    case neg =>
      by_cases he : r' = r
      case pos =>
        subst he
        simp [hm, Machine.set, htop]
      case neg => simp [hm, he, Machine.set]

theorem iretq_of_holds (h : m.stack.Holds (a :: b :: c :: d :: e :: st)) :
    m.iretq = { m with rip := a, cs := b, rflags := c, ss := e, stack := { m.stack with sp := d } } := by
  rw [Machine.iretq, h.top, h.drop.top, h.drop.drop.top, h.drop.drop.drop.top, h.drop.drop.drop.drop.top]

end Exec

end RoverOS.Cpu
