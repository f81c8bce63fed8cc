import RoverOS.Cpu.Stubs

-- Which stubs go back to the code that was interrupted.

namespace RoverOS.Cpu

-- What is interrupted. The code segment is not a stack segment.
structure Context where
  regs     : Reg → Word
  rip      : Word
  cs       : Word
  rflags   : Word
  rsp      : Word
  ss       : Word
  cs_ne_ss : cs ≠ ss
  reserved : rflags.getLsbD 1 = true

-- The exceptions for which the processor pushes an error code.
def pushesErrorCode (vector : Nat) : Bool :=
  vector ∈ [8, 10, 11, 12, 13, 14, 17, 21, 29, 30]

def Context.frame (ctx : Context) : List Word :=
  [ctx.rip, ctx.cs, ctx.rflags, ctx.rsp, ctx.ss]

-- The processor has pushed its frame, and goes on in the stub.
structure Entered (ctx : Context) (errorCode : Option Word) (m : Machine) : Prop where
  regs  : m.regs = ctx.regs
  frame : m.stack.Holds (errorCode.toList ++ ctx.frame)

-- What the stub pushes in place of an error code.
def Stub.dummy : Stub → List Word
  | .isr n => if n.val ∈ errorCodeStubs then [] else [0]
  | .irq _ => []

-- The words on the stack below the saved registers.
def Stub.below (stub : Stub) (ctx : Context) (errorCode : Option Word) : List Word :=
  stub.dummy ++ (errorCode.toList ++ ctx.frame)

-- The C functions return with the `n` words from the stack pointer on unchanged.
def Leaves (function : Word → Machine → Machine) (n : Nat) : Prop :=
  ∀ a m, (function a m).stack.sp = m.stack.sp ∧
    ∀ i < n, (function a m).stack.mem (Stack.slot m.stack.sp i) = m.stack.mem (Stack.slot m.stack.sp i)

structure Resumes (ctx : Context) (m : Machine) : Prop where
  regs   : m.regs = ctx.regs
  rip    : m.rip = ctx.rip
  cs     : m.cs = ctx.cs
  rflags : m.rflags = ctx.rflags
  rsp    : m.stack.sp = ctx.rsp
  ss     : m.ss = ctx.ss

section Balance

variable {function : Word → Machine → Machine} {m : Machine} {ctx : Context} {errorCode : Option Word}
variable {st : List Word} {vector : Nat} {rdx : Instr} {fnc isrAddress irqAddress : Word} {stub : Stub}

theorem mem_saved (r : Reg) : r ∈ saved := by
  cases r <;> decide

-- The stack is as it was when the C function is called.
theorem run_callHandler (m : Machine) (vector : Nat) (fnc : Word)
    (hx : ∀ m : Machine, (m.exec function rdx).stack = m.stack) :
    ∃ m', m.run function (callHandler vector rdx fnc) = function fnc m' ∧ m'.stack = m.stack := by
  refine ⟨((((m.set .rdi (BitVec.ofNat 64 vector)).exec function (.movRsp .rsi)).exec function rdx).exec
    function (.xor .rbp)).set .r15 fnc, ?_, ?_⟩
  case refine_1 =>
    simp only [callHandler, Machine.run, List.foldl_cons, List.foldl_nil]
    simp [Machine.exec, Machine.set]
  case refine_2 => exact hx _

-- Saving, calling and restoring leaves the registers and the stack as they were.
theorem run_saved (vector : Nat) (rdx : Instr) (fnc : Word)
    (hx : ∀ m : Machine, (m.exec function rdx).stack = m.stack)
    (hf : Leaves function (saved.length + st.length)) (h : m.stack.Holds st) (hl : st.length < 2 ^ 60) :
    (m.run function (pushall ++ callHandler vector rdx fnc ++ popall)).regs = m.regs ∧
    (m.run function (pushall ++ callHandler vector rdx fnc ++ popall)).stack.Holds st := by
  rw [run_append, run_append]
  have hlen : saved.length + st.length < 2 ^ 61 := by
    have hs : saved.length = 15 := rfl
    omega
  obtain ⟨hr, hp⟩ := run_pushes function saved h hlen
  obtain ⟨m', hcall, hs⟩ := run_callHandler (m.run function pushall) vector fnc hx
  rw [hcall]
  obtain ⟨hsp, hmem⟩ := hf fnc m'
  have hframe : (function fnc m').stack.Holds (saved.reverse.map m.regs ++ st) := by
    rw [List.map_reverse]
    have hp' : m'.stack.Holds ((saved.map m.regs).reverse ++ st) := by
      rw [hs, pushall]
      exact hp
    refine hp'.congr hsp ?_
    intro i hi
    exact hmem i (by simpa using hi)
  obtain ⟨hst, hpop⟩ := run_pops function hframe
  refine ⟨?_, hst⟩
  funext r
  rw [popall, hpop r, if_pos (List.mem_reverse.mpr (mem_saved r))]

-- In front of the `iretq` the registers are back, and the words below them are on the top.
theorem run_stub (stub : Stub) (isrAddress irqAddress : Word) (hm : Entered ctx errorCode m)
    (hf : Leaves function (saved.length + (stub.below ctx errorCode).length)) :
    ∃ m₁ : Machine, m.run function (stub.code isrAddress irqAddress) = m₁.iretq ∧ m₁.regs = ctx.regs ∧
      m₁.stack.Holds (stub.below ctx errorCode) := by
  have hcode : errorCode.toList.length ≤ 1 := by cases errorCode <;> simp
  have hframe : (errorCode.toList ++ ctx.frame).length ≤ 6 := by
    rw [List.length_append]
    exact Nat.add_le_add_right hcode 5
  cases stub
  case irq n =>
    rw [Stub.below, Stub.dummy, List.nil_append] at hf ⊢
    have hs := run_saved (m := { m with rflags := m.rflags &&& ~~~Machine.IF }) (n + 32)
      (.xor .rdx) irqAddress (fun _ => rfl) hf hm.frame (by omega)
    refine ⟨_, ?_, hs.1.trans hm.regs, hs.2⟩
    rw [Stub.code, IRQ, List.cons_append, List.cons_append, List.cons_append, run_cons, run_append]
    rfl
  case isr n =>
    rw [Stub.below, Stub.dummy] at hf ⊢
    rw [Stub.code]
    split_ifs at hf ⊢ with hn
    case pos =>
      rw [List.nil_append] at hf ⊢
      have hs := run_saved (m := m) n (.load .rdx 20) isrAddress (fun _ => rfl) hf
        hm.frame (by omega)
      refine ⟨_, ?_, hs.1.trans hm.regs, hs.2⟩
      rw [ISR_ERROR_CODE, run_append]
      rfl
    case neg =>
      have hpush : (m.stack.push 0).Holds ([0] ++ (errorCode.toList ++ ctx.frame)) := hm.frame.push (by omega)
      have hs := run_saved (m := { m with stack := m.stack.push 0 }) n (.xor .rdx)
        isrAddress (fun _ => rfl) hf hpush (by rw [List.length_append, List.length_singleton]; omega)
      refine ⟨_, ?_, hs.1.trans hm.regs, hs.2⟩
      rw [ISR_NO_ERROR_CODE, List.cons_append, List.cons_append, List.cons_append, run_cons, run_append]
      rfl

theorem resumes_of_frame (hr : m.regs = ctx.regs) (h : m.stack.Holds ctx.frame) : Resumes ctx m.iretq := by
  rw [iretq_of_holds h]
  exact ⟨hr, rfl, rfl, rfl, rfl, rfl⟩

-- With one word on top of the frame every register is loaded from the slot of its neighbour.
theorem not_resumes_one {w : Word} (h : m.stack.Holds (w :: ctx.frame)) : ¬Resumes ctx m.iretq := by
  rw [Context.frame] at h
  rw [iretq_of_holds h]
  rintro ⟨_, _, hcs, hflags, hrsp, hss⟩
  have he : ctx.cs = ctx.ss :=
    calc ctx.cs = ctx.rflags := hflags
      _ = ctx.rsp := hrsp
      _ = ctx.ss := hss
  exact ctx.cs_ne_ss he

theorem not_resumes_two {w : Word} (h : m.stack.Holds (0 :: w :: ctx.frame)) : ¬Resumes ctx m.iretq := by
  rw [Context.frame] at h
  rw [iretq_of_holds h]
  rintro ⟨_, hrip, _, hflags, _, _⟩
  have he : ctx.rflags = 0 :=
    calc ctx.rflags = ctx.rip := hflags.symm
      _ = 0 := hrip.symm
  have hone := ctx.reserved
  rw [he] at hone
  exact absurd hone (by decide)

-- The stubs with an error code take one from the processor, and no others of the exceptions do.
theorem isr_pushes {n : Fin 32} (h : n.val ∈ errorCodeStubs) : pushesErrorCode (Stub.isr n).vector = true := by
  revert n
  decide

theorem irq_pushes {n : Fin 16} : pushesErrorCode (Stub.irq n).vector = false := by
  revert n
  decide

-- The word that every stub of an exception keeps below the registers is never taken from the stack.
theorem stub_resumes_iff (hc : errorCode.isSome = pushesErrorCode stub.vector) (hm : Entered ctx errorCode m)
    (hf : Leaves function (saved.length + (stub.below ctx errorCode).length)) :
    Resumes ctx (m.run function (stub.code isrAddress irqAddress)) ↔ ∃ n, stub = .irq n := by
  obtain ⟨m₁, hrun, hregs, hst⟩ := run_stub stub isrAddress irqAddress hm hf
  rw [hrun]
  rw [Stub.below] at hst
  cases stub
  case irq n =>
    rw [irq_pushes, Option.isSome_eq_false_iff, Option.isNone_iff_eq_none] at hc
    rw [Stub.dummy, hc] at hst
    exact iff_of_true (resumes_of_frame hregs hst) ⟨n, rfl⟩
  case isr n =>
    refine iff_of_false ?_ (by rintro ⟨_, h⟩; cases h)
    rw [Stub.dummy] at hst
    split_ifs at hst with hn
    case pos =>
      rw [isr_pushes hn] at hc
      obtain ⟨w, rfl⟩ := Option.isSome_iff_exists.mp hc
      exact not_resumes_one hst
    case neg =>
      cases errorCode
      case none   => exact not_resumes_one hst
      case some w => exact not_resumes_two hst

end Balance

section Breakpoint

theorem breakpoint_cs_ne_ss : (0x8 : Word) ≠ 0x10 := by decide

theorem breakpoint_reserved : (0x202 : Word).getLsbD 1 = true := by decide

-- The kernel at 0xFFFF800000001000.
def kernelContext : Context where
  regs     := fun _ => 7
  rip      := 0xFFFF800000001000
  cs       := 0x8
  rflags   := 0x202
  rsp      := 0xFFFF800000008000
  ss       := 0x10
  cs_ne_ss := breakpoint_cs_ne_ss
  reserved := breakpoint_reserved

def kernelEntered : Machine where
  regs   := kernelContext.regs
  rip    := 0
  cs     := 0x8
  rflags := 0x2
  ss     := 0x10
  stack  := ((((Stack.mk 0xFFFF800000008000 fun _ => 0).push 0x10).push 0xFFFF800000008000).push 0x202
    |>.push 0x8).push 0xFFFF800000001000

theorem kernel_entered : Entered kernelContext none kernelEntered where
  regs  := rfl
  frame := ((((Stack.Holds.nil.push (by decide)).push (by decide)).push (by decide)).push (by decide)).push
    (by decide)

theorem id_leaves (n : Nat) : Leaves (fun _ m => m) n :=
  fun _ _ => ⟨rfl, fun _ _ => rfl⟩

-- A breakpoint goes on at the address 0.
theorem breakpoint_not_resumed :
    ¬Resumes kernelContext (kernelEntered.run (fun _ m => m) ((Stub.isr 3).code 0x1000 0x2000)) := by
  obtain ⟨m₁, hrun, _, hst⟩ := run_stub (.isr 3) 0x1000 0x2000 kernel_entered
    (id_leaves _)
  rw [hrun]
  exact not_resumes_one hst

theorem timer_resumed :
    Resumes kernelContext (kernelEntered.run (fun _ m => m) ((Stub.irq 0).code 0x1000 0x2000)) :=
  (stub_resumes_iff rfl kernel_entered (id_leaves _)).mpr ⟨0, rfl⟩

end Breakpoint

end RoverOS.Cpu
