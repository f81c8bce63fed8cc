import RoverOS.Cpu.Interrupts
import RoverOS.Library.Run

-- Which handler an interrupt gets to, in any order of the calls and the interrupts.

open Function (update update_self update_of_ne)
open Run (Steps)

namespace RoverOS.Cpu

variable {H : Type}

-- What is in the table at `vector` from now on.
structure Change (H : Type) where
  vector  : Nat
  handler : Option H

-- The handler that was installed for the vector last and has not been removed, by the changes alone.
def installed : List (Change H) → Nat → Option H
  | []              => fun _ => none
  | change :: older => update (installed older) change.vector change.handler

-- The table, and how it came to be, the last change first.
structure Logged (H : Type) where
  cpu     : Cpu H
  changes : List (Change H)

def Logged.boot : Logged H where
  cpu     := Cpu.boot
  changes := []

inductive Act (H : Type)
  | add (vector : Nat) (h : Option H)
  | remove (vector : Nat)
  | allocate (h : Option H)
  | interrupt (stub : Stub)

namespace Act

def run (s : Logged H) : Act H → Except Exit (Logged H)
  | .add vector h => do
    let cpu ← s.cpu.addInterruptHandler vector h
    return { cpu, changes := ⟨vector, h⟩ :: s.changes }
  | .remove vector => do
    let cpu ← s.cpu.removeInterruptHandler vector
    return { cpu, changes := ⟨vector, none⟩ :: s.changes }
  | .allocate h => do
    let (vector, cpu) ← s.cpu.allocateInterrupt h
    return { cpu, changes := if vector = 0 then s.changes else ⟨vector, h⟩ :: s.changes }
  | .interrupt stub => do
    let cpu ← s.cpu.interrupt stub
    return { s with cpu }

def Step (s : Logged H) (act : Act H) (s' : Logged H) : Prop :=
  act.run s = .ok s'

-- What an interrupt without a handler does is left open, but for the accesses and the calls.
def Right (s : Logged H) : Act H → Prop
  | .add vector h   => s.cpu.addInterruptHandler vector h ≠ .error .fault
  | .remove vector  => s.cpu.removeInterruptHandler vector ≠ .error .fault
  | .allocate h     => ∃ vector cpu, s.cpu.allocateInterrupt h = .ok (vector, cpu) ∧
    (vector = 0 ↔ ∀ w, 19 ≤ w → w < 255 → installed s.changes w ≠ none) ∧
    (vector ≠ 0 → installed s.changes vector = none)
  | .interrupt stub =>
    match installed s.changes stub.vector with
    | some h => ∃ cpu, s.cpu.interrupt stub = .ok cpu ∧ cpu.called = h :: s.cpu.called
    | none   => s.cpu.interrupt stub ≠ .error .fault ∧
      ∀ cpu, s.cpu.interrupt stub = .ok cpu → cpu.called = s.cpu.called

-- The vectors below 30 are in the table, and a handler next to a built-in one is never called.
def Fits (s : Logged H) : Act H → Prop
  | .add vector _   => vector < 30
  | .remove vector  => vector < 30
  | .allocate _     => ∃ w, 19 ≤ w ∧ w < 30 ∧ installed s.changes w = none
  | .interrupt stub => stub.vector < 30 ∧
    (builtIn stub.vector = .ok () ∨ installed s.changes stub.vector = none)

end Act

-- The table holds what the changes say.
def Agrees (s : Logged H) : Prop :=
  ∀ v (hv : v < 30), s.cpu.handlers[v] = installed s.changes v

namespace Agrees

variable {s s' : Logged H} {vector : Nat} {h : Option H} {act : Act H}

theorem boot : Agrees (Logged.boot : Logged H) := by
  intro v hv
  simp [Logged.boot, Cpu.boot, installed]

theorem handler (ha : Agrees s) (hv : vector < 30) :
    s.cpu.handler vector = .ok (installed s.changes vector) := by
  rw [handler_of_lt hv, ha vector hv]

theorem set (ha : Agrees s) (hv : vector < 30) :
    Agrees { cpu := { s.cpu with handlers := s.cpu.handlers.set vector h }, changes := ⟨vector, h⟩ :: s.changes } := by
  intro v hv'
  rw [installed]
  by_cases he : v = vector
  case pos =>
    subst he
    rw [update_self]
    exact Vector.getElem_set_self hv
  case neg =>
    rw [update_of_ne he]
    exact (Vector.getElem_set_ne hv hv' (Ne.symm he)).trans (ha v hv')

section Allocate

-- The first vector without a handler is the one that is taken.
theorem allocateLoop_free (ha : Agrees s) : ∀ n i, n + i = 255 →
    (∃ w, i ≤ w ∧ w < 30 ∧ installed s.changes w = none) →
    ∃ v, ∃ hv : v < 30, i ≤ v ∧ installed s.changes v = none ∧
      allocateLoop h s.cpu n i = .ok (v, { s.cpu with handlers := s.cpu.handlers.set v h }) := by
  intro n
  induction n
  case zero => 
    rintro i hi ⟨w, hw, hlt, _⟩
    omega
  case succ n hind =>
    rintro i hi ⟨w, hw, hlt, hfree⟩
    have hlti : i < 30 := by omega
    cases hs : installed s.changes i
    case none =>
      refine ⟨i, hlti, Nat.le_refl i, hs, ?_⟩
      rw [allocateLoop, ha.handler hlti, hs]
      simp only [bind, Except.bind, setHandler_of_lt hlti, u16_of_lt (by omega : i < 2 ^ 16)]
      rfl
    case some h' =>
      have hne : i ≠ w := by
        rintro rfl
        rw [hs] at hfree
        cases hfree
      obtain ⟨v, hv, hle, hnone, hloop⟩ := hind (i + 1) (by omega) ⟨w, by omega, hlt, hfree⟩
      refine ⟨v, hv, by omega, hnone, ?_⟩
      rw [allocateLoop, ha.handler hlti, hs]
      exact hloop

-- The loop goes on behind the end of the table.
theorem allocateLoop_full (ha : Agrees s) : ∀ n i, n + i = 255 → i ≤ 30 →
    (∀ w, i ≤ w → w < 30 → installed s.changes w ≠ none) →
    allocateLoop h s.cpu n i = .error .fault := by
  intro n
  induction n
  case zero =>
    intro i hi hle
    omega
  case succ n hind =>
    intro i hi hle hfull
    rw [allocateLoop]
    by_cases hlt : i < 30
    case pos =>
      obtain ⟨h', hs⟩ := Option.ne_none_iff_exists'.mp (hfull i (Nat.le_refl i) hlt)
      rw [ha.handler hlt, hs]
      exact hind (i + 1) (by omega) hlt fun w hw => hfull w (Nat.le_of_succ_le hw)
    case neg =>
      rw [handler_of_le (Nat.not_lt.mp hlt)]
      rfl

theorem allocate_iff (ha : Agrees s) : (Act.allocate h).Right s ↔ (Act.allocate h).Fits s := by
  constructor
  case mp =>
    rintro ⟨vector, cpu, hr, _⟩
    by_contra hfull
    have hne : ∀ w, 19 ≤ w → w < 30 → installed s.changes w ≠ none :=
      fun w hw hlt hfree => hfull ⟨w, hw, hlt, hfree⟩
    rw [allocateInterrupt, ha.allocateLoop_full _ _ rfl (by decide) hne] at hr
    cases hr
  case mpr =>
    intro hf
    obtain ⟨v, hv, hle, hfree, hloop⟩ := ha.allocateLoop_free (h := h) (255 - 19) 19 rfl hf
    refine ⟨v, _, hloop, ?_, fun _ => hfree⟩
    refine iff_of_false (by omega) fun hall => ?_
    exact hall v hle (by omega) hfree

end Allocate

section Interrupt

variable {stub : Stub}

theorem isr_none {n : Fin 32} (ha : Agrees s) (hv : n.val < 30) (hs : installed s.changes n = none) :
    s.cpu.interrupt (.isr n) = .error .halt := by
  rw [interrupt, isr, ha.handler hv, hs]
  obtain hb | hb := builtIn_ok_or_halt n.val
  all_goals rw [hb]; rfl

theorem isr_some {n : Fin 32} {fnc : H} (ha : Agrees s) (hv : n.val < 30) (hb : builtIn n = .ok ())
    (hs : installed s.changes n = some fnc) :
    s.cpu.interrupt (.isr n) = .ok (s.cpu.invoke fnc) := by
  rw [interrupt, isr, ha.handler hv, hs, hb]
  rfl

theorem isr_builtIn {n : Fin 32} (hb : builtIn n ≠ .ok ()) : s.cpu.interrupt (.isr n) = .error .halt := by
  rw [interrupt, isr, (builtIn_ok_or_halt n.val).resolve_left hb]
  rfl

theorem isr_outside {n : Fin 32} (hv : 30 ≤ n.val) : s.cpu.interrupt (.isr n) = .error .fault := by
  rw [interrupt, isr, builtIn_of_le (by omega), handler_of_le hv]
  rfl

theorem not_right (hf : s.cpu.interrupt stub = .error .fault) : ¬(Act.interrupt stub).Right s := by
  intro hr
  rw [Act.Right] at hr
  cases hs : installed s.changes stub.vector
  case none =>
    rw [hs] at hr
    exact hr.1 hf
  case some fnc =>
    rw [hs] at hr
    obtain ⟨cpu, hok, _⟩ := hr
    rw [hf] at hok
    cases hok

theorem isr_iff {n : Fin 32} (ha : Agrees s) (hv : n.val < 30) :
    (Act.interrupt (.isr n)).Right s ↔ (Act.interrupt (.isr n)).Fits s := by
  rw [Act.Right, Act.Fits, Stub.vector]
  cases hs : installed s.changes n
  case none =>
    have hhalt := ha.isr_none hv hs
    refine iff_of_true ⟨?_, ?_⟩ ⟨hv, .inr rfl⟩
    · rw [hhalt]
      nofun
    · intro cpu hok
      rw [hhalt] at hok
      cases hok
  case some fnc =>
    by_cases hb : builtIn n = .ok ()
    case pos => exact iff_of_true ⟨_, ha.isr_some hv hb hs, rfl⟩ ⟨hv, .inl hb⟩
    case neg =>
      refine iff_of_false ?_ fun hf => hf.2.elim hb nofun
      rintro ⟨cpu, hok, _⟩
      rw [isr_builtIn hb] at hok
      cases hok

theorem interrupt_iff (ha : Agrees s) : (Act.interrupt stub).Right s ↔ (Act.interrupt stub).Fits s := by
  cases stub
  case irq n =>
    refine iff_of_false (not_right (irq_fault n)) fun hf => ?_
    have hlt : n.val + 32 < 30 := hf.1
    omega
  case isr n =>
    by_cases hv : n.val < 30
    case pos => exact ha.isr_iff hv
    case neg => exact iff_of_false (not_right (isr_outside (Nat.not_lt.mp hv))) fun hf => hv hf.1

end Interrupt

section Runs

theorem setHandler_iff : s.cpu.setHandler vector h ≠ .error .fault ↔ vector < 30 := by
  by_cases hv : vector < 30
  case pos => simp [setHandler_of_lt hv, hv]
  case neg => simp [setHandler_of_le (Nat.not_lt.mp hv), hv]

theorem right_iff (ha : Agrees s) : act.Right s ↔ act.Fits s := by
  cases act
  case add       => exact setHandler_iff
  case remove    => exact setHandler_iff
  case allocate  => exact ha.allocate_iff
  case interrupt => exact ha.interrupt_iff

theorem step (ha : Agrees s) (hf : act.Fits s) (hs : Act.Step s act s') : Agrees s' := by
  rw [Act.Step] at hs
  cases act
  case add v h =>
    rw [Act.run, addInterruptHandler, setHandler_of_lt hf] at hs
    cases hs
    exact ha.set hf
  case remove v =>
    rw [Act.run, removeInterruptHandler, setHandler_of_lt hf] at hs
    cases hs
    exact ha.set hf
  case allocate h =>
    obtain ⟨v, hv, hle, _, hloop⟩ := ha.allocateLoop_free (h := h) (255 - 19) 19 rfl hf
    have hne : v ≠ 0 := by omega
    rw [Act.run, allocateInterrupt, hloop] at hs
    simp only [bind, Except.bind, if_neg hne] at hs
    cases hs
    exact ha.set hv
  case interrupt stub =>
    rw [Act.run, Except.bind_ok_iff] at hs
    obtain ⟨cpu, hi, hs⟩ := hs
    cases hs
    intro v hv
    rw [← ha v hv]
    congr 1
    exact interrupt_handlers hi

end Runs

end Agrees

-- After any acts within the table, the acts that are right are those within the table.
theorem handlers_serve_iff {s : Logged H} (run : Steps Act.Step (fun s act => act.Fits s) Logged.boot s)
    (act : Act H) : act.Right s ↔ act.Fits s := by
  have ha : Agrees s := run.invariant Agrees.boot fun ha hf hs => ha.step hf hs
  exact ha.right_iff

-- A handler that is installed for a breakpoint is called.
theorem handlers_serve_breakpoint : ∃ s : Logged Nat, Act.Step Logged.boot (.add 3 (some 0x1000)) s ∧
    (Act.interrupt (.isr 3)).Right s := by
  have hs : Act.Step (Logged.boot : Logged Nat) (.add 3 (some 0x1000)) _ := rfl
  have hf : (Act.add 3 (some 0x1000)).Fits (Logged.boot : Logged Nat) := by
    rw [Act.Fits]
    decide
  refine ⟨_, hs, (handlers_serve_iff (.step (.refl _) hf hs) _).mpr ⟨?_, .inl rfl⟩⟩
  rw [Stub.vector]
  decide

-- The handler of the timer is stored behind the end of the table.
theorem timer_handler_outside : ¬∀ (s : Logged Nat), Steps Act.Step (fun _ _ => True) Logged.boot s →
    ∀ act : Act Nat, act.Right s := by
  intro h
  exact h Logged.boot (.refl _) (.add 0x20 (some 0x1000)) rfl

end RoverOS.Cpu
