import RoverOS.Ksym.Init
import RoverOS.Library.Run
import RoverOS.Library.Stack

-- `fdebug.c`: the calls that are read off the stack. `entry.asm` and the compiler lay it out: the kernel is
-- compiled with `-fno-omit-frame-pointer` and without a red zone.

namespace RoverOS.Fault

open Bytes (Memory load)
open Ksym (ELF64Sym Globals getSymbol symbolToName sizeofELF64Sym)

structure StackFrame where
  framePointer : Word
  ret          : Word

def StackFrame.read (mem : Word → Word) (frame : Word) : StackFrame where
  framePointer := mem frame
  ret          := mem (frame + 8)

-- A call of `knone`.
structure Message where
  format : String
  args   : List Word
  deriving DecidableEq, Repr

def header : Message := ⟨"#=========Stack==trace=========#\n", []⟩

def arrow : Message := ⟨"\u2193\n", []⟩

section Trace

-- The symbol file, and the stack in aligned words.
variable (file : Memory) (k : Globals) (mem : Word → Word)

def symAt (i : Nat) : Word := k.symStart + BitVec.ofNat 64 (sizeofELF64Sym * i)

def readSym (sym : Word) : ELF64Sym where
  info  := file (sym.toNat + 4)
  value := BitVec.ofNat 64 (load file (sym.toNat + 8) 8)
  size  := BitVec.ofNat 64 (load file (sym.toNat + 16) 8)

def symbols : List ELF64Sym :=
  (List.range k.symn).map fun i => readSym file (symAt k i)

def nameOf (ret : Word) : Message :=
  match getSymbol (symbols file k) ret with
  | some i => ⟨"%s()->", [symbolToName file k (symAt k i)]⟩
  | none   => ⟨"unknown()->", []⟩

def messages (ret items : Word) : List Message :=
  [nameOf file k ret, ⟨"[RIP:0x%lx][0x%lx items in frame]\n", [ret, items]⟩]

def unwind : Nat → Word → Option (List Message)
  | 0,     _     => none
  | n + 1, frame =>
    if frame = 0 then some []
    else
      let f := StackFrame.read mem frame
      let stack := if f.framePointer = 0 then 0 else (f.framePointer - frame) / 8 - 2
      if f.framePointer = 0 then some (messages file k f.ret stack)
      else do
        let l ← unwind n f.framePointer
        return messages file k f.ret stack ++ arrow :: l

def stackTrace (fuel : Nat) (rbp : Word) : Option (List Message) := do
  let l ← unwind file k mem fuel rbp
  return header :: l

variable {file : Memory} {k : Globals} {mem : Word → Word} {n : Nat} {frame : Word}

theorem unwind_null : unwind file k mem (n + 1) 0 = some [] := rfl

theorem unwind_last (h : frame ≠ 0) (hp : mem frame = 0) :
    unwind file k mem (n + 1) frame = some (messages file k (mem (frame + 8)) 0) := by
  have hp : (StackFrame.read mem frame).framePointer = 0 := hp
  simp only [unwind, if_neg h, if_pos hp]
  rfl

theorem unwind_next (h : frame ≠ 0) (hp : mem frame ≠ 0) : unwind file k mem (n + 1) frame =
    (unwind file k mem n (mem frame)).map
      (messages file k (mem (frame + 8)) ((mem frame - frame) / 8 - 2) ++ arrow :: ·) := by
  have hp : (StackFrame.read mem frame).framePointer ≠ 0 := hp
  simp only [unwind, if_neg h, if_neg hp, Option.map_eq_bind]
  rfl

end Trace

-- What calls and returns change of the processor.
structure Processor where
  rbp   : Word
  stack : Stack Word

namespace Processor

variable (c : Processor)

-- `call` pushes the return address, and the function starts with `push rbp` and `mov rbp, rsp`.
def call (ret : Word) : Processor :=
  let stack := (c.stack.push ret).push c.rbp
  { rbp := stack.sp, stack }

-- `leave` and `ret`.
def ret : Processor :=
  let stack : Stack Word := { c.stack with sp := c.rbp }
  { rbp := stack.top, stack := stack.drop.drop }

def push (v : Word) : Processor :=
  { c with stack := c.stack.push v }

def pop : Processor :=
  { c with stack := c.stack.drop }

def write (a v : Word) : Processor :=
  { c with stack := { c.stack with mem := Function.update c.stack.mem a v } }

end Processor

-- The two zeros and the frame pointer are set as a call from nowhere sets them.
def kentry (stackBottom : Word) (mem : Word → Word) : Processor :=
  let stack := ((⟨stackBottom, mem⟩ : Stack Word).push 0).push 0
  { rbp := stack.sp, stack }

inductive Act
  | call (ret : Word)
  | ret
  | push (v : Word)
  | pop
  | write (a v : Word)
  deriving DecidableEq, Repr

def Processor.exec (c : Processor) : Act → Processor
  | .call ret  => c.call ret
  | .ret       => c.ret
  | .push v    => c.push v
  | .pop       => c.pop
  | .write a v => c.write a v

end RoverOS.Fault
