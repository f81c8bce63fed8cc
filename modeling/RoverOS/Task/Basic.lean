import RoverOS.Kcache.Basic

-- Process tickets, `task.c`.

namespace RoverOS

structure ProcessTicket where
  name      : Word
  priority  : Nat -- `uint8_t`
  flags     : Nat -- `uint16_t`
  processID : Word
  blocker   : Word
  gs        : Nat
  fs        : Nat
  ec        : Int
  vmem      : Word
  tss       : Word
  space     : Word

-- The queue's lock and the cache of the tickets.
structure Tasks where
  queueLock   : Bool
  ticketCache : Kcache

namespace Tasks

def zeroTicket : ProcessTicket where
  name      := 0
  priority  := 0
  flags     := 0
  processID := 0
  blocker   := 0
  gs        := 0
  fs        := 0
  ec        := 0
  vmem      := 0
  tss       := 0
  space     := 0

-- The result is the ticket with its address. `memset` writes to the ticket whether or not there is
-- one, and there is no `FREE_LOCK`.
def createTicket (managers : Kcache.Managers) (name : Word) (priority : Nat) (vmem : Word)
    (tasks : Tasks) : Except Exit ((Nat × ProcessTicket) × Tasks) := do
  getLock tasks.queueLock
  let (ticket, ticketCache) ← tasks.ticketCache.kcacheAlloc managers
  match ticket with
  | none     => .error .fault
  | some ptr => return ((ptr, { zeroTicket with name, priority, vmem, processID := 0 }),
    { queueLock := true, ticketCache })

end Tasks
end RoverOS
