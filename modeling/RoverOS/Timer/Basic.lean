import RoverOS.Basic

-- `timer.c`: the queue of timer events, and what an interrupt does to it.

namespace RoverOS

open Function (update)

structure TimerEvent where
  ns       : Nat
  id       : Nat
  callback : Nat

-- The address of the queue, and the events from there on. Only the first 100 belong to the queue, and
-- what is behind them need not be there. `calls` are the callbacks that have been called with their
-- arguments, and `sets` the times that the timer has been set to.
structure Timers where
  queue : Nat
  slots : Nat → Option TimerEvent
  next  : Nat
  calls : List (Nat × Nat)
  sets  : List Nat

namespace Timers

-- The macro does not put its argument in parentheses: `TIMER_PARENT(((next%2) == 0) ? v : (v-1))` is
-- `((((next%2) == 0) ? v : (v-1)>>1)-1)`.
def timerParent (next v : Nat) : Nat :=
  u32 ((if next % 2 = 0 then v else u32 (v + (2 ^ 32 - 1)) / 2) + (2 ^ 32 - 1))

def timerLeftEntry (e : Nat) : Nat := u32 (2 * e + 1)
def timerRightEntry (e : Nat) : Nat := u32 (2 * e + 2)

-- `queue[i]`
def slot (t : Timers) (i : Nat) : Except Exit TimerEvent :=
  match t.slots i with
  | none   => .error .fault
  | some e => .ok e

def setSlot (t : Timers) (i : Nat) (e : TimerEvent) : Timers :=
  { t with slots := update t.slots i (some e) }

def invoke (t : Timers) (callback arg : Nat) : Timers :=
  { t with calls := (callback, arg) :: t.calls }

section Add

-- The times and the callbacks change places, and the ids stay.
def swap (t : Timers) (v p : Nat) (ev ep : TimerEvent) : Timers :=
  (t.setSlot p { ep with ns := ev.ns, callback := ev.callback }).setSlot v
    { ev with ns := ep.ns, callback := ep.callback }

-- `while(queue[v].ns < queue[p].ns)`. The test before the loop is the same.
def swapUp : Nat → Nat → Nat → Timers → Except Exit Timers
  | 0,        _, _, _ => .error .halt
  | fuel + 1, v, p, t => do
    let ev ← t.slot v
    let ep ← t.slot p
    if ev.ns < ep.ns then swapUp fuel p (timerParent t.next p) (t.swap v p ev ep)
    else return t

-- `while(queue[next].ns != 0){++next;}`
def findFree (t : Timers) : Nat → Nat → Except Exit Nat
  | 0,        _    => .error .halt
  | fuel + 1, next => do
    let e ← t.slot next
    if e.ns ≠ 0 then findFree t fuel (u32 (next + 1))
    else return next

def addTimerEvent (fuel ns id call : Nat) (t : Timers) : Except Exit Timers := do
  if ns = 0 then return t.invoke call id
  let _ ← t.slot t.next
  let t := t.setSlot t.next { ns, id, callback := call }
  let t ← swapUp fuel t.next (timerParent t.next t.next) t
  let next ← t.findFree fuel (u32 (t.next + 1))
  return { t with next }

end Add

section Interrupt

-- `goto lp` leaves the loop's condition out, and there is no other way out of the loop.
def pullUp : Nat → Nat → Nat → Timers → Except Exit (Nat × Timers)
  | 0,        _,   _, _ => .error .halt
  | fuel + 1, idx, l, t => do
    let left ← t.slot (timerLeftEntry idx)
    let right ← t.slot (timerRightEntry idx)
    let p := if left.ns ≥ right.ns then timerLeftEntry idx else timerRightEntry idx
    let e ← t.slot idx
    let pulled ← t.slot p
    pullUp fuel p (min l p) (t.setSlot idx { e with ns := pulled.ns, callback := pulled.callback })

def resortTree (fuel : Nat) (t : Timers) : Except Exit Timers := do
  let root ← t.slot 0
  let (l, t) ← if root.ns = 0 then pullUp fuel 0 t.next t else pure (t.next, t)
  return { t with next := l }

-- The loop over `n` slots from `i` on. The result says if it has come to the end of the tree.
def deincrement (dec : Nat) : Nat → Nat → Timers → Except Exit (Bool × Timers)
  | 0,     _, t => .ok (false, t)
  | n + 1, i, t => do
    let e ← t.slot i
    if e.ns = 0 then return (true, t)
    let ns := sub64 e.ns dec
    if ns = 0 then deincrement dec n (i + 1) ((t.invoke e.callback e.id).setSlot i { e with ns, callback := 0 })
    else deincrement dec n (i + 1) (t.setSlot i { e with ns })

-- The root's callback gets the address of the root.
def timerEnd (fuel : Nat) (t : Timers) : Except Exit Timers := do
  let root ← t.slot 0
  let t := (t.invoke root.callback t.queue).setSlot 0 { root with ns := 0 }
  let (ended, t) ← deincrement root.ns (t.next - 1) 1 t
  if ended then return t
  let t ← resortTree fuel t
  let root ← t.slot 0
  return { t with sets := root.ns :: t.sets }

end Interrupt

-- The best timer that has been found, with the address of the function that sets it.
structure TimerInfo where
  type : UInt8
  set  : Nat

-- The lower the type, the better the timer.
def registerTimer (type : UInt8) (set : Nat) (timer : TimerInfo) : TimerInfo :=
  if timer.type < type then timer else { type, set }

-- `struct timerInfo timer` is a global, which starts as zeros.
def timerInit : TimerInfo where
  type := 0
  set  := 0

-- `qsize` is 100, and `memset` clears that many events.
def initTimers (queue : Nat) (beyond : Nat → Option TimerEvent) : Timers where
  queue   := queue
  slots i := if i < 100 then some { ns := 0, id := 0, callback := 0 } else beyond i
  next    := 0
  calls   := []
  sets    := []

end Timers

end RoverOS
