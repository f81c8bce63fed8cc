import RoverOS.Task.Sleep

-- What a sleep blocks, and that no sleeper wakes up.

open Function (update)
open Run (Steps)

namespace RoverOS.Sleep

variable {Addr : Type} [DecidableEq Addr] {sched : Scheduler Addr} {sys sys' start : Tasking Addr} {e : Event Addr}
  {t : Addr} {cpu : Nat} {id ns : Word}

namespace Scheduler

def Blocked (sched : Scheduler Addr) (t : Addr) : Prop :=
  (sched.tickets t).flags.testBit 0 = true

-- The flags are all that a blocked task's ticket changes in.
@[simp]
theorem processID_suspend {other : Word} :
    ((sched.suspendProcess cpu other).tickets t).processID = (sched.tickets t).processID := by
  by_cases h : t = sched.currentTask cpu
  case pos => simp [suspendProcess, setFlags, h]
  case neg => simp [suspendProcess, setFlags, h]

theorem blocked_suspend :
    (sched.suspendProcess cpu id).Blocked t ↔ t = sched.currentTask cpu ∨ sched.Blocked t := by
  by_cases h : t = sched.currentTask cpu
  case pos => simp [Blocked, suspendProcess, setFlags, h, TASK_FLAG_BLOCKED]
  case neg => simp [Blocked, suspendProcess, setFlags, h]

-- No ticket is searched while the array of suspended tickets has no room.
theorem unsuspend_eq (h : sched.suspendedQueueSize = 0) : sched.unsuspendProcess id = .ok sched := by
  rw [unsuspendProcess, h, unsuspendFrom]

end Scheduler

namespace Tasking

open Scheduler (Blocked blocked_suspend unsuspend_eq)

-- What an event should do to the blocked flags. A wake-up matches a sleep whose id is pending.
def Result (sys : Tasking Addr) (e : Event Addr) (sys' : Tasking Addr) : Prop :=
  match e with
  | .switch _ _   => ∀ t, sys'.sched.Blocked t ↔ sys.sched.Blocked t
  | .sleep cpu ns =>
    if ns = 0 then ∀ t, sys'.sched.Blocked t ↔ sys.sched.Blocked t
    else ∀ t, sys'.sched.Blocked t ↔
      (sys.sched.tickets t).processID = sys.sched.getCurrentTaskID cpu ∨ sys.sched.Blocked t
  | .wake id      =>
    (id ∈ sys.pending → ∀ t, (sys.sched.tickets t).processID = id → ¬sys'.sched.Blocked t) ∧
    ∀ t, (sys.sched.tickets t).processID ≠ id → (sys'.sched.Blocked t ↔ sys.sched.Blocked t)

def Right (sys : Tasking Addr) (e : Event Addr) : Prop :=
  ∃ sys', sys.exec e = .ok sys' ∧ sys.Result e sys'

-- Every other task with the id of the one that sleeps is blocked already, and a wake-up has no sleep.
def Fits (sys : Tasking Addr) (e : Event Addr) : Prop :=
  match e with
  | .switch _ _   => True
  | .sleep cpu ns => ns = 0 ∨ ∀ t, (sys.sched.tickets t).processID = sys.sched.getCurrentTaskID cpu →
      t ≠ sys.sched.currentTask cpu → sys.sched.Blocked t
  | .wake id      => id ∉ sys.pending

-- The array of suspended tickets never gets room, and every sleep still has its blocked task.
structure Asleep (sys : Tasking Addr) : Prop where
  size    : sys.sched.suspendedQueueSize = 0
  pending : ∀ id ∈ sys.pending, ∃ t, (sys.sched.tickets t).processID = id ∧ sys.sched.Blocked t

omit [DecidableEq Addr] in
theorem Start.asleep (h : sys.Start) : sys.Asleep where
  size    := h.size
  pending := by simp [h.pending]

theorem sleepEnd_eq (h : sys.Asleep) : sys.sleepEnd id = .ok { sys with pending := sys.pending.erase id } := by
  rw [sleepEnd, unsuspend_eq h.size]
  rfl

theorem Asleep.sleep (h : sys.Asleep) : (sys.sysSleepns cpu ns).Asleep := by
  rw [sysSleepns]
  split
  case isTrue  => exact h
  case isFalse =>
    refine ⟨h.size, ?_⟩
    intro id hid
    simp only [Scheduler.processID_suspend, blocked_suspend]
    rcases List.mem_cons.mp hid with rfl | hid
    case inl => exact ⟨sys.sched.currentTask cpu, rfl, .inl rfl⟩
    case inr =>
      obtain ⟨t, ht, hb⟩ := h.pending id hid
      exact ⟨t, ht, .inr hb⟩

theorem Asleep.step (h : sys.Asleep) (hs : Step sys e sys') : sys'.Asleep := by
  cases e
  case switch cpu t =>
    cases hs
    exact ⟨h.size, h.pending⟩
  case sleep cpu ns =>
    cases hs
    exact h.sleep
  case wake id =>
    rw [Step, exec, sleepEnd_eq h] at hs
    cases hs
    exact ⟨h.size, fun other ho => h.pending other (List.mem_of_mem_erase ho)⟩

theorem Asleep.run (h : Steps Step (fun _ _ => True) start sys) (hs : start.Start) : sys.Asleep :=
  h.invariant hs.asleep fun hi _ hs => hi.step hs

theorem right_sleep_iff : sys.Right (.sleep cpu ns) ↔ sys.Fits (.sleep cpu ns) := by
  simp only [Right, exec, Except.ok.injEq, exists_eq_left', Result, Fits, sysSleepns]
  by_cases hz : ns = 0
  case pos => simp [hz]
  case neg =>
    simp only [if_neg hz, or_iff_right hz, blocked_suspend]
    constructor
    case mp =>
      intro h t hid hne
      exact ((h t).mpr (.inl hid)).resolve_left hne
    case mpr =>
      intro h t
      constructor
      case mp =>
        rintro (rfl | hb)
        case inl => exact .inl rfl
        case inr => exact .inr hb
      case mpr =>
        rintro (hid | hb)
        case inl =>
          by_cases ht : t = sys.sched.currentTask cpu
          case pos => exact .inl ht
          case neg => exact .inr (h t hid ht)
        case inr => exact .inr hb

-- The task of a pending sleep is blocked before the wake-up, and nothing changes with it.
theorem right_wake_iff (h : sys.Asleep) : sys.Right (.wake id) ↔ sys.Fits (.wake id) := by
  simp only [Right, exec, sleepEnd_eq h, Except.ok.injEq, exists_eq_left', Result, Fits, implies_true, and_true]
  refine imp_congr_right fun hid => ?_
  obtain ⟨t, ht, hb⟩ := h.pending id hid
  exact iff_of_false (fun hn => hn t ht hb) not_false

theorem Asleep.right_iff (h : sys.Asleep) : sys.Right e ↔ sys.Fits e := by
  cases e
  case switch cpu t => simp [Right, exec, Result, Fits, Scheduler.Blocked]
  case sleep cpu ns => exact right_sleep_iff
  case wake id      => exact right_wake_iff h

-- Whatever has been done since the kernel started, no sleeper is woken up.
theorem sleepers_right_iff (h : Steps Step (fun _ _ => True) start sys) (hs : start.Start) :
    sys.Right e ↔ sys.Fits e :=
  (Asleep.run h hs).right_iff

end Tasking

section Sleeper

open Tasking

-- One task, which has the id 7.
def lone : Tasking Unit where
  sched   := ⟨fun _ => { Tasks.zeroTicket with processID := 7 }, fun _ => (), 0, []⟩
  pending := []

theorem lone_start : lone.Start := ⟨rfl, rfl⟩

theorem lone_run : Steps Step (fun _ _ => True) lone (lone.sysSleepns 0 1000) :=
  .step (l := .sleep 0 1000) (.refl lone) trivial rfl

-- The task falls asleep, and the wake-up leaves it blocked.
theorem sleepEnd_blocked : ¬∀ (start sys : Tasking Unit) (e : Event Unit), start.Start →
    Steps Step (fun _ _ => True) start sys → sys.Right e := by
  intro h
  obtain ⟨sys', hs, hr, -⟩ := h lone (lone.sysSleepns 0 1000) (.wake 7) lone_start lone_run
  cases hs
  exact hr (List.mem_singleton.mpr rfl) () rfl rfl

theorem sleepers_right_lone :
    (lone.sysSleepns 0 1000).Right (.wake 7) ↔ (lone.sysSleepns 0 1000).Fits (.wake 7) :=
  sleepers_right_iff lone_run lone_start

end Sleeper

end RoverOS.Sleep
