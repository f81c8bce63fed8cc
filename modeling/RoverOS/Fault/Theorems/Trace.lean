import RoverOS.Fault.Trace
import RoverOS.Library.Trail

namespace RoverOS.Fault

open Function (update_self update_of_ne)
open Bytes (Memory)
open Ksym (Globals)
open Run (Steps)

-- A call that has not returned: where it returns to, and how many words the function has on the stack.
structure Frame where
  ret : Word
  own : Nat
  deriving DecidableEq, Repr

-- The calls that have not returned behind an act, the innermost one first.
def active : Act → List Frame → List Frame
  | .call ret,  l      => ⟨ret, 0⟩ :: l
  | .ret,       _ :: l => l
  | .push _,    f :: l => { f with own := f.own + 1 } :: l
  | .pop,       f :: l => { f with own := f.own - 1 } :: l
  | .write _ _, l      => l
  | _,          []     => []

def words (l : List Frame) : Nat := (l.map fun f => f.own + 2).sum

section Layout

variable (bottom : Word)

-- Where the stack's `n`th word from its bottom is.
def place (n : Nat) : Word := bottom - BitVec.ofNat 64 (8 * n)

-- The frame pointer of the innermost call.
def base : List Frame → Word
  | []     => 0
  | _ :: l => place bottom (words l + 2)

-- Where the frame pointers and the return addresses are.
def links : List Frame → List Word
  | []     => []
  | _ :: l => place bottom (words l + 2) :: place bottom (words l + 1) :: links l

def Linked (mem : Word → Word) : List Frame → Prop
  | []     => True
  | f :: l => mem (place bottom (words l + 2)) = base bottom l ∧ mem (place bottom (words l + 1)) = f.ret ∧ Linked mem l

-- A function returns to the one that called it, takes only its own words from the stack, writes no frame
-- pointer and no return address, and does not use up the stack.
def Proper (size : Nat) (l : List Frame) : Act → Prop
  | .call _    => words l + 2 ≤ size
  | .ret       => 2 ≤ l.length
  | .push _    => words l + 1 ≤ size
  | .pop       => ∃ f ∈ l.head?, 0 < f.own
  | .write a _ => a ∉ links bottom l

instance (size : Nat) (l : List Frame) : (a : Act) → Decidable (Proper bottom size l a)
  | .call _    => inferInstanceAs (Decidable (_ ≤ _))
  | .ret       => inferInstanceAs (Decidable (_ ≤ _))
  | .push _    => inferInstanceAs (Decidable (_ ≤ _))
  | .pop       => inferInstanceAs (Decidable (∃ f ∈ l.head?, 0 < f.own))
  | .write _ _ => inferInstanceAs (Decidable (_ ∉ _))

end Layout

-- A run of the processor, with the calls that are active.
def step (s : Processor × List Frame) (a : Act) (s' : Processor × List Frame) : Prop :=
  s' = (s.1.exec a, active a s.2)

section Expected

variable (file : Memory) (k : Globals)

-- For each call where it returns to, and how many words its caller has on the stack.
def expected : List Frame → List Message
  | []          => []
  | [f]         => messages file k f.ret 0
  | f :: g :: l => messages file k f.ret (BitVec.ofNat 64 g.own) ++ arrow :: expected (g :: l)

end Expected

section Places

variable {bottom : Word} {size n m : Nat} {l : List Frame} {f : Frame} {mem mem' : Word → Word} {a v : Word}

theorem place_toNat (hs : 8 * size < bottom.toNat) (hn : n ≤ size) : (place bottom n).toNat = bottom.toNat - 8 * n := by
  rw [place]
  bv_omega

theorem place_ne_zero (hs : 8 * size < bottom.toNat) (hn : n ≤ size) : place bottom n ≠ 0 := by
  intro h
  have ht := congrArg BitVec.toNat h
  rw [place_toNat hs hn] at ht
  exact absurd ht (Nat.sub_ne_zero_of_lt (by omega))

theorem place_ne (hs : 8 * size < bottom.toNat) (hn : n ≤ size) (hm : m < n) : place bottom n ≠ place bottom m := by
  intro h
  have ht := congrArg BitVec.toNat h
  rw [place_toNat hs hn, place_toNat hs (by omega)] at ht
  omega

theorem place_succ : place bottom n - 8 = place bottom (n + 1) := by
  rw [place, place]
  bv_omega

theorem place_pred : place bottom (n + 1) + 8 = place bottom n := by
  rw [← place_succ, BitVec.sub_add_cancel]

theorem items_eq (hs : 8 * size < bottom.toNat) (hn : n + (m + 2) ≤ size) :
    (place bottom n - place bottom (n + (m + 2))) / 8 - 2 = BitVec.ofNat 64 m := by
  have hlt := bottom.isLt
  have hn' : (place bottom n).toNat = _ := place_toNat hs (by omega : n ≤ size)
  have hm' : (place bottom (n + (m + 2))).toNat = _ := place_toNat hs hn
  have hd : place bottom n - place bottom (n + (m + 2)) = BitVec.ofNat 64 (8 * (m + 2)) := by bv_omega
  rw [hd]
  apply BitVec.eq_of_toNat_eq
  have hq : (BitVec.ofNat 64 (8 * (m + 2)) / 8).toNat = m + 2 := by
    rw [BitVec.toNat_udiv, BitVec.toNat_ofNat, Nat.mod_eq_of_lt (by omega)]
    exact Nat.mul_div_cancel_left _ (by decide)
  bv_omega

theorem words_cons : words (f :: l) = words l + (f.own + 2) := by
  simp [words, Nat.add_comm]

theorem links_subset (ha : a ∈ links bottom l) : ∃ n, 0 < n ∧ n ≤ words l ∧ a = place bottom n := by
  induction l
  case nil => cases ha
  case cons f l hi =>
    rw [words_cons]
    cases ha
    case head => exact ⟨_, by omega, by omega, rfl⟩
    case tail ha =>
      cases ha
      case head => exact ⟨_, by omega, by omega, rfl⟩
      case tail ha =>
        have ⟨n, h₀, hn, he⟩ := hi ha
        exact ⟨n, h₀, by omega, he⟩

theorem Linked.congr (h : Linked bottom mem l) (hm : ∀ a ∈ links bottom l, mem' a = mem a) : Linked bottom mem' l := by
  induction l
  case nil => trivial
  case cons f l hi =>
    have ⟨hb, hr, hl⟩ := h
    have hm₁ := hm _ (.head _)
    have hm₂ := hm _ (.tail _ (.head _))
    exact ⟨hm₁.trans hb, hm₂.trans hr, hi hl fun a ha => hm a (.tail _ (.tail _ ha))⟩

-- What is pushed is no link of the calls before.
theorem Linked.push (h : Linked bottom mem l) (hs : 8 * size < bottom.toNat) (hn : n ≤ size) (hw : words l < n) :
    Linked bottom (Function.update mem (place bottom n) v) l := by
  apply h.congr
  intro a ha
  have ⟨m, _, hm, he⟩ := links_subset ha
  rw [he, update_of_ne (place_ne hs hn (by omega)).symm]

end Places

section Runs

variable {bottom : Word} {size : Nat} {l : List Frame} {c : Processor} {mem : Word → Word} {act : Act}

-- What the stack holds of the active calls.
structure Laid (bottom : Word) (size : Nat) (s : Processor × List Frame) : Prop where
  called : s.2 ≠ []
  rbp    : s.1.rbp = base bottom s.2
  sp     : s.1.stack.sp = place bottom (words s.2)
  linked : Linked bottom s.1.stack.mem s.2
  room   : words s.2 ≤ size
  entry  : ∃ f ∈ s.2.getLast?, f.ret = 0

-- A call, from `kentry` too, which is one from nowhere.
theorem call_laid {ret : Word} (hs : 8 * size < bottom.toNat) (hr : words l + 2 ≤ size) (hb : c.rbp = base bottom l)
    (hp : c.stack.sp = place bottom (words l)) (hl : Linked bottom c.stack.mem l)
    (he : ∃ f ∈ (⟨ret, 0⟩ :: l).getLast?, f.ret = 0) : Laid bottom size (c.call ret, ⟨ret, 0⟩ :: l) where
  called := List.cons_ne_nil _ _
  rbp    := by simp only [Processor.call, Stack.push, base, hp, place_succ]
  sp     := by simp only [Processor.call, Stack.push, words_cons, hp, place_succ]
  room   := by rw [words_cons]; exact hr
  entry  := he
  linked := by
    simp only [Processor.call, Stack.push, Linked, hp, place_succ, hb]
    refine ⟨update_self .., ?ret, ?rest⟩
    case ret  => rw [update_of_ne (place_ne hs hr (by omega)).symm, update_self]
    case rest => exact (hl.push hs (by omega) (by omega)).push hs hr (by omega)

theorem kentry_laid (hs : 8 * size < bottom.toNat) (h₂ : 2 ≤ size) :
    Laid bottom size (kentry bottom mem, [⟨0, 0⟩]) := by
  have hp : bottom = place bottom (words []) := (BitVec.sub_zero bottom).symm
  exact call_laid (c := ⟨0, ⟨bottom, mem⟩⟩) hs h₂ rfl hp trivial ⟨_, rfl, rfl⟩

theorem ret_laid {f g : Frame} (h : Laid bottom size (c, f :: g :: l)) : Laid bottom size (c.ret, g :: l) where
  called := List.cons_ne_nil _ _
  rbp    := by
    rw [Processor.ret, Stack.top, h.rbp]
    exact h.linked.left
  sp     := by
    have hb : c.rbp = place bottom (words (g :: l) + 2) := h.rbp
    simp only [Processor.ret, Stack.drop, hb, place_pred]
  linked := h.linked.right.right
  room   := by
    have hw : words (g :: l) ≤ words (f :: g :: l) := by
      rw [words_cons (f := f)]
      exact Nat.le_add_right _ _
    exact hw.trans h.room
  entry  := by
    have ⟨e, he, h₀⟩ := h.entry
    rw [List.getLast?_cons_cons] at he
    exact ⟨e, he, h₀⟩

-- The words of the running function change nothing but the stack pointer.
theorem Laid.resize {f : Frame} {n : Nat} (h : Laid bottom size (c, f :: l)) {stack : Stack Word}
    (hr : words l + (n + 2) ≤ size) (hp : stack.sp = place bottom (words l + (n + 2)))
    (hl : Linked bottom stack.mem (f :: l)) : Laid bottom size ({ c with stack }, { f with own := n } :: l) where
  called := List.cons_ne_nil _ _
  rbp    := h.rbp
  sp     := by rw [words_cons]; exact hp
  linked := hl
  room   := by rw [words_cons]; exact hr
  entry  := by
    have ⟨e, he, h₀⟩ := h.entry
    cases l
    case nil      => exact ⟨_, rfl, (congrArg Frame.ret (Option.some.inj he)).trans h₀⟩
    case cons g l =>
      rw [List.getLast?_cons_cons] at he
      exact ⟨e, he, h₀⟩

theorem step_laid {s s' : Processor × List Frame} (hs : 8 * size < bottom.toNat) (h : Laid bottom size s)
    (ha : Proper bottom size s.2 act) (st : step s act s') : Laid bottom size s' := by
  obtain ⟨c, l⟩ := s
  subst st
  cases l
  case nil => exact absurd rfl h.called
  case cons f l =>
  have hp : c.stack.sp = place bottom (words l + (f.own + 2)) := h.sp.trans (congrArg _ words_cons)
  cases act
  case call ret =>
    obtain ⟨e, he, h₀⟩ := h.entry
    apply call_laid hs ha h.rbp h.sp h.linked
    exact ⟨e, (List.getLast?_cons_cons (b := f) (l := l)).symm ▸ he, h₀⟩
  case ret =>
    cases l
    case nil      => exact absurd ha (Nat.not_succ_le_self 1)
    case cons g l => exact ret_laid h
  case push v =>
    have hr : words (f :: l) + 1 ≤ size := ha
    rw [words_cons] at hr
    apply h.resize (by omega)
    case hp =>
      have hn : words l + (f.own + 2) + 1 = words l + (f.own + 1 + 2) := by omega
      simp only [Stack.push, hp, place_succ, hn]
    case hl =>
      simp only [Stack.push, hp, place_succ]
      exact h.linked.push hs hr (by rw [words_cons]; omega)
  case pop =>
    obtain ⟨_, hm, h₀⟩ := ha
    cases hm
    have hr := h.room
    rw [words_cons] at hr
    apply h.resize (by omega)
    case hp =>
      have hn : words l + (f.own + 2) = words l + (f.own - 1 + 2) + 1 := by omega
      simp only [Stack.drop, hp, hn, place_pred]
    case hl => exact h.linked
  case write a v =>
    have hl : Linked bottom (Function.update c.stack.mem a v) (f :: l) :=
      h.linked.congr fun b hb => update_of_ne (ne_of_mem_of_not_mem hb ha) ..
    exact ⟨h.called, h.rbp, h.sp, hl, h.room, h.entry⟩

theorem steps_laid {s s' : Processor × List Frame} (hs : 8 * size < bottom.toNat) (h : Laid bottom size s)
    (run : Steps step (fun s a => Proper bottom size s.2 a) s s') : Laid bottom size s' :=
  run.invariant h fun h ha st => step_laid hs h ha st

end Runs

section Unwind

variable {file : Memory} {k : Globals} {bottom : Word} {size fuel : Nat} {l : List Frame} {mem : Word → Word}

-- The trace follows the links from call to call, until it comes to the one of `kentry`.
theorem unwind_linked (hs : 8 * size < bottom.toNat) (h : Linked bottom mem l) (hr : words l ≤ size)
    (hf : l.length ≤ fuel) : unwind file k mem (fuel + 1) (base bottom l) = some (expected file k l) := by
  induction l generalizing fuel
  case nil => rfl
  case cons f l hi =>
    have ⟨hb, hret, ht⟩ := h
    rw [words_cons] at hr
    have hne : base bottom (f :: l) ≠ 0 := place_ne_zero hs (by omega)
    have hrt : mem (base bottom (f :: l) + 8) = f.ret := by
      rw [← hret, ← place_pred]
      rfl
    match l, fuel, hf with
    | [],     _,        _  => rw [unwind_last hne hb, hrt, expected]
    | g :: l, fuel + 1, hf =>
      rw [words_cons] at hr
      have hb : mem (base bottom (f :: g :: l)) = base bottom (g :: l) := hb
      have hbg : base bottom (g :: l) ≠ 0 := place_ne_zero hs (by omega)
      have hi := hi ht (by rw [words_cons]; omega) (Nat.le_of_succ_le_succ hf)
      have hit := items_eq hs (by omega : words l + 2 + (g.own + 2) ≤ size)
      have hbf : base bottom (f :: g :: l) = place bottom (words l + 2 + (g.own + 2)) := by
        rw [base, words_cons, Nat.add_right_comm]
      rw [unwind_next hne (hb ▸ hbg), hb, hi, hrt, hbf, base, hit]
      rfl

-- What `kentry` leaves on the stack is the last thing that is printed.
theorem expected_last (h : ∃ f ∈ l.getLast?, f.ret = 0) : messages file k 0 0 <:+ expected file k l := by
  have ⟨e, he, h₀⟩ := h
  induction l
  case nil => cases he
  case cons f l hi =>
    cases l
    case nil =>
      have hfe : f = e := Option.some.inj he
      rw [expected, hfe, h₀]
    case cons g l =>
      rw [List.getLast?_cons_cons] at he
      exact (hi ⟨e, he, h₀⟩ he).trans ((List.suffix_cons _ _).trans (List.suffix_append _ _))

end Unwind

section Trace

variable {file : Memory} {k : Globals} {bottom : Word} {size fuel : Nat} {mem : Word → Word}

-- At any time the trace prints exactly the calls that have not returned, the innermost one first and the start of
-- the kernel last.
theorem stackTrace_active {s : Processor × List Frame} (hs : 8 * size < bottom.toNat) (h₂ : 2 ≤ size)
    (run : Steps step (fun s a => Proper bottom size s.2 a) (kentry bottom mem, [⟨0, 0⟩]) s) (hf : s.2.length < fuel) :
    stackTrace file k s.1.stack.mem fuel s.1.rbp = some (header :: expected file k s.2) ∧
    [⟨"unknown()->", []⟩, ⟨"[RIP:0x%lx][0x%lx items in frame]\n", [0, 0]⟩] <:+ expected file k s.2 := by
  have h := steps_laid hs (kentry_laid hs h₂) run
  have ⟨n, hn⟩ := Nat.exists_eq_add_of_le' hf
  have hu : unwind file k s.1.stack.mem (n + s.2.length + 1) (base bottom s.2) = some (expected file k s.2) :=
    unwind_linked hs h.linked h.room (Nat.le_add_left s.2.length n)
  rw [stackTrace, h.rbp, hn, Nat.add_succ, hu]
  exact ⟨rfl, expected_last h.entry⟩

end Trace

section Example

-- The stack of the kernel's image.
def stackBottom : Word := 0xFFFFFFFF80012000

-- `kentry` calls `kmain`, which keeps two words and calls a function that has returned, and then another one.
def bootActs : List Act := [.call 0x1010, .push 7, .push 8, .call 0x2020, .push 9, .ret, .call 0x2030]

def behind (s : Processor × List Frame) (l : List Act) : Processor × List Frame :=
  l.foldl (fun s a => (s.1.exec a, active a s.2)) s

def booted : Processor × List Frame := behind (kentry stackBottom fun _ => 0, [⟨0, 0⟩]) bootActs

theorem steps_booted :
    Steps step (fun s a => Proper stackBottom 512 s.2 a) (kentry stackBottom fun _ => 0, [⟨0, 0⟩]) booted := by
  refine .step (.step (.step (.step (.step (.step (.step (.refl _) ?_ rfl) ?_ rfl) ?_ rfl) ?_ rfl) ?_ rfl) ?_ rfl) ?_ rfl
  all_goals decide

theorem stackTrace_active_booted :
    stackTrace (fun _ => 0) Globals.start booted.1.stack.mem 4 booted.1.rbp = some (header ::
      (messages (fun _ => 0) Globals.start 0x2030 2 ++ arrow ::
        (messages (fun _ => 0) Globals.start 0x1010 0 ++ arrow :: messages (fun _ => 0) Globals.start 0 0))) :=
  (stackTrace_active (by decide) (by decide) steps_booted (by decide)).left

end Example

open Bytes (Memory)
open Ksym (Globals)
open Trail (Reached)

def Null (frame : Word) : Prop := frame = 0

section Frames

variable (file : Memory) (k : Globals) (mem : Word → Word)

-- What is printed of a list of frames.
def printed : List Word → List Message
  | []                    => []
  | [frame]               => messages file k (mem (frame + 8)) 0
  | frame :: caller :: l  =>
    messages file k (mem (frame + 8)) ((caller - frame) / 8 - 2) ++ arrow :: printed (caller :: l)

variable {file : Memory} {k : Globals} {mem : Word → Word} {fuel : Nat} {frame : Word} {l : List Word}
variable {out : List Message}

theorem unwind_of_trail (h : Trail mem Null frame l 0) (hf : l.length ≤ fuel) :
    unwind file k mem (fuel + 1) frame = some (printed file k mem l) := by
  generalize he : (0 : Word) = e at h
  induction h generalizing fuel
  case halt p hp =>
    have hp : p = 0 := hp
    rw [hp, unwind_null, printed]
  case step p e l hn h hi =>
    have hn : p ≠ 0 := hn
    match fuel, h with
    | _,        .halt hp   => rw [unwind_last hn hp, printed]
    | fuel + 1, .step hp h =>
      rw [unwind_next hn hp, hi (Nat.le_of_succ_le_succ hf) he]
      rfl

theorem trail_of_unwind (h : unwind file k mem fuel frame = some out) :
    ∃ l, Trail mem Null frame l 0 ∧ out = printed file k mem l := by
  induction fuel generalizing frame out
  case zero => cases h
  case succ n hi =>
    by_cases hz : frame = 0
    case pos =>
      rw [hz, unwind_null] at h
      exact ⟨[], hz ▸ .halt hz, (Option.some.inj h).symm⟩
    case neg =>
      by_cases hp : mem frame = 0
      case pos =>
        rw [unwind_last hz hp] at h
        exact ⟨[frame], .step hz (hp ▸ .halt hp), (Option.some.inj h).symm⟩
      case neg =>
        rw [unwind_next hz hp] at h
        have ⟨out', ho, he⟩ := Option.map_eq_some_iff.mp h
        have ⟨l, hl, hp'⟩ := hi ho
        have ⟨l', hl', _⟩ := hl.exists_cons hp
        refine ⟨frame :: l, .step hz hl, ?_⟩
        rw [← he, hp', hl']
        rfl

-- The trace ends exactly when the frame pointers do not lead back to a frame, and then it has printed each of
-- the frames that they lead to once.
theorem stackTrace_ends_iff (rbp : Word) :
    ((∃ fuel out, stackTrace file k mem fuel rbp = some out) ↔
      ∀ frame, Reached mem Null rbp frame → frame ≠ 0 → ¬Reached mem Null (mem frame) frame) ∧
    ∀ fuel out, stackTrace file k mem fuel rbp = some out →
      ∃ l, out = header :: printed file k mem l ∧ l.Nodup ∧
        ∀ frame, frame ∈ l ↔ Reached mem Null rbp frame ∧ frame ≠ 0 := by
  constructor
  case left =>
    refine Iff.trans ⟨?mp, ?mpr⟩ Trail.ends_iff
    case mp =>
      intro ⟨fuel, out, h⟩
      have ⟨out', ho, _⟩ := Option.bind_eq_some_iff.mp h
      have ⟨l, hl, _⟩ := trail_of_unwind ho
      exact ⟨l, 0, hl⟩
    case mpr =>
      intro ⟨l, e, h⟩
      have he : e = 0 := h.halted
      have hu : unwind file k mem (l.length + 1) rbp = some (printed file k mem l) :=
        unwind_of_trail (he ▸ h) (Nat.le_refl _)
      exact ⟨l.length + 1, header :: printed file k mem l, by rw [stackTrace, hu]; rfl⟩
  case right =>
    intro fuel out h
    have ⟨out', ho, he⟩ := Option.bind_eq_some_iff.mp h
    have ⟨l, hl, hp⟩ := trail_of_unwind ho
    refine ⟨l, by rw [← hp]; exact (Option.some.inj he).symm, hl.nodup, fun frame => ⟨?mp, ?mpr⟩⟩
    case mp => exact fun hm => ⟨hl.reached_of_mem .first hm, hl.not_halt_of_mem hm⟩
    case mpr => exact fun ⟨hr, hn⟩ => (hr.mem hl).resolve_right hn

end Frames

end RoverOS.Fault
