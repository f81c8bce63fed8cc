import RoverOS.Timer.Basic

-- Timer events on a clock: when they are registered, and what has been called at which time.

namespace RoverOS

open Timers

-- A callback that is called with an argument at a time.
structure Delivery where
  time     : Nat
  callback : Nat
  arg      : Nat

-- What has been registered: an event with the time at which its callback is due.
structure Registered where
  ns  : Nat
  due : Delivery

inductive Act
  | add (ns id call : Nat)
  | wait -- a nanosecond passes

-- The time of the root counts from `since`.
structure Clock where
  timers     : Timers
  now        : Nat
  since      : Nat
  registered : List Registered
  log        : List Delivery

namespace Clock

def start (timers : Timers) : Clock where
  timers     := timers
  now        := 0
  since      := 0
  registered := []
  log        := []

-- What a function of `timer.c` has called is called now.
def run (c : Clock) (f : Timers → Except Exit Timers) : Except Exit Clock := do
  let t ← f { c.timers with calls := [] }
  return { c with timers := t, log := t.calls.map (fun call => ⟨c.now, call.1, call.2⟩) ++ c.log }

def rootTime (c : Clock) : Nat :=
  (c.timers.slots 0).elim 0 TimerEvent.ns

def elapsed (c : Clock) : Bool :=
  c.rootTime ≠ 0 ∧ c.now = c.since + c.rootTime

-- The timer interrupts when the time of the root has elapsed. A new root starts now.
def step (fuel : Nat) (c : Clock) : Act → Except Exit Clock
  | .add ns id call => do
    let c' ← c.run (addTimerEvent fuel ns id call)
    return { c' with
      since      := if c'.rootTime = c.rootTime then c.since else c.now
      registered := ⟨ns, ⟨c.now + ns, call, id⟩⟩ :: c.registered }
  | .wait =>
    let c := { c with now := c.now + 1 }
    if c.elapsed then do
      let c ← c.run (timerEnd fuel)
      return { c with since := c.now }
    else .ok c

def execute (fuel : Nat) (acts : List Act) (c : Clock) : Except Exit Clock :=
  acts.foldlM (step fuel) c

-- The callback of every event has been called at its time, once and with its id, and no other.
def Delivered (c : Clock) : Prop :=
  c.log.Perm ((c.registered.filter (fun r => r.due.time ≤ c.now)).map Registered.due)

end Clock

end RoverOS
