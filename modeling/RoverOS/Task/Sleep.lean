import RoverOS.Task.Basic
import RoverOS.Library.Run

-- Blocking the current task and waking it up again, `task.c` and `sleep.c`.

open Function (update)

namespace RoverOS.Sleep

def TASK_FLAG_BLOCKED : Nat := 0x1

-- The tickets, each under its address, and which of them runs on each CPU. `suspendedQueueSize` is the
-- bound of the search through `suspendedTickets`.
structure Scheduler (Addr : Type) where
  tickets            : Addr → ProcessTicket
  currentTask        : Nat → Addr
  suspendedQueueSize : Nat
  suspendedTickets   : List Addr

variable {Addr : Type} [DecidableEq Addr]

namespace Scheduler

def setFlags (sched : Scheduler Addr) (t : Addr) (flags : Nat) : Scheduler Addr :=
  { sched with tickets := update sched.tickets t { sched.tickets t with flags } }

def getCurrentTaskID (sched : Scheduler Addr) (cpu : Nat) : Word :=
  (sched.tickets (sched.currentTask cpu)).processID

-- The task that is blocked is the one that runs on the CPU, whatever the id.
def suspendProcess (sched : Scheduler Addr) (cpu : Nat) (_id : Word) : Scheduler Addr :=
  let t := sched.currentTask cpu
  sched.setFlags t ((sched.tickets t).flags ||| TASK_FLAG_BLOCKED)

-- The loop of `unsuspendProcess` from entry `i` on. The complement of the flag is taken of a `uint16_t`.
def unsuspendFrom (sched : Scheduler Addr) (id : Word) (left i : Nat) : Except Exit (Scheduler Addr) :=
  match left with
  | 0        => .ok sched
  | left + 1 =>
    match sched.suspendedTickets[i]? with
    | none   => .error .fault
    | some t =>
      if (sched.tickets t).blocker ≠ id then unsuspendFrom sched id left (i + 1)
      else .ok (sched.setFlags t ((sched.tickets t).flags &&& (2 ^ 16 - 1 - TASK_FLAG_BLOCKED)))

def unsuspendProcess (sched : Scheduler Addr) (id : Word) : Except Exit (Scheduler Addr) :=
  sched.unsuspendFrom id sched.suspendedQueueSize 0

end Scheduler

-- The scheduler, and the ids that `sleepEnd` is still to be called with.
structure Tasking (Addr : Type) where
  sched   : Scheduler Addr
  pending : List Word

-- Another task gets a CPU, the task on a CPU sleeps, or the timer calls `sleepEnd`.
inductive Event (Addr : Type)
  | switch (cpu : Nat) (t : Addr)
  | sleep (cpu : Nat) (ns : Word)
  | wake (id : Word)

namespace Tasking

def sysSleepns (sys : Tasking Addr) (cpu : Nat) (ns : Word) : Tasking Addr :=
  if ns = 0 then sys
  else
    let id := sys.sched.getCurrentTaskID cpu
    { sched := sys.sched.suspendProcess cpu id, pending := id :: sys.pending }

def sleepEnd (sys : Tasking Addr) (id : Word) : Except Exit (Tasking Addr) := do
  let sched ← sys.sched.unsuspendProcess id
  return { sched, pending := sys.pending.erase id }

def exec (sys : Tasking Addr) : Event Addr → Except Exit (Tasking Addr)
  | .switch cpu t => .ok { sys with sched.currentTask := update sys.sched.currentTask cpu t }
  | .sleep cpu ns => .ok (sys.sysSleepns cpu ns)
  | .wake id      => sys.sleepEnd id

def Step (sys : Tasking Addr) (e : Event Addr) (sys' : Tasking Addr) : Prop :=
  sys.exec e = .ok sys'

-- The array of suspended tickets has no room when the kernel starts, and nobody has slept.
structure Start (sys : Tasking Addr) : Prop where
  size    : sys.sched.suspendedQueueSize = 0
  pending : sys.pending = []

end Tasking

end RoverOS.Sleep
