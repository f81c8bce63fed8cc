import RoverOS.Basic
import RoverOS.Library.Run
import RoverOS.Library.History

-- `GET_LOCK` and `FREE_LOCK` of `mutex.h`, taken apart into the accesses to the lock: the test of the loop and
-- the store behind it are two of them.

open Function (update)

namespace RoverOS.Mutex

-- `mutex_t`
abbrev Lock := BitVec 8

-- Where the code of a CPU is: not at the lock, in the loop of `GET_LOCK`, behind the loop, or behind
-- `GET_LOCK`.
inductive Place
  | outside
  | testing
  | setting
  | inside
  deriving DecidableEq, Repr

inductive Act
  | ask  -- `GET_LOCK` begins
  | test -- `lock&0x1`
  | set  -- `lock |= 0x1`
  | free -- `FREE_LOCK`
  deriving DecidableEq, Repr

-- One CPU's next access: what becomes of the lock and of the CPU.
inductive Access : Lock → Place → Act → Lock → Place → Prop
  | ask  {lock : Lock} : Access lock .outside .ask lock .testing
  | spin {lock : Lock} : lock &&& 1 ≠ 0 → Access lock .testing .test lock .testing
  | pass {lock : Lock} : lock &&& 1 = 0 → Access lock .testing .test lock .setting
  | set  {lock : Lock} : Access lock .setting .set (lock ||| 1) .inside
  | free {lock : Lock} : Access lock .inside .free 0 .outside

-- CPUs that run at the same time.
structure System (Cpu : Type) where
  lock  : Lock
  place : Cpu → Place

variable {Cpu : Type} [DecidableEq Cpu]

def System.start : System Cpu where
  lock  := 0
  place := fun _ => .outside

def Step (s : System Cpu) (l : Cpu × Act) (s' : System Cpu) : Prop :=
  ∃ place, Access s.lock (s.place l.1) l.2 s'.lock place ∧ s'.place = update s.place l.1 place

-- One CPU and its interrupts: an interrupted context goes on when the handler has returned.
structure Nested where
  lock     : Lock
  contexts : List Place -- the running one first

inductive Event
  | act (a : Act)
  | interrupt
  | iret

def Nested.start : Nested where
  lock     := 0
  contexts := [.outside]

inductive NestedStep : Nested → Event → Nested → Prop
  | act {lock lock' : Lock} {place place' : Place} {a : Act} {below : List Place} :
    Access lock place a lock' place' →
    NestedStep ⟨lock, place :: below⟩ (.act a) ⟨lock', place' :: below⟩
  | interrupt {s : Nested} : NestedStep s .interrupt { s with contexts := .outside :: s.contexts }
  | iret {lock : Lock} {place : Place} {below : List Place} :
    NestedStep ⟨lock, .outside :: place :: below⟩ .iret ⟨lock, place :: below⟩

-- When the lock keeps CPUs out of each other's way, and when it keeps an interrupt handler out for ever.

open Function (update update_self update_of_ne)

variable {Cpu : Type} [DecidableEq Cpu] {s s' : System Cpu} {ls : List (System Cpu × Cpu × Act)} {c d : Cpu}

section Parallel

-- At most one CPU is inside.
def Exclusive (s : System Cpu) : Prop :=
  ∀ c d, s.place c = .inside → s.place d = .inside → c = d

-- The CPU has found the lock free and has not given it back.
def Past (p : Place) : Prop :=
  p = .setting ∨ p = .inside

-- Another CPU is between its test and its store when the test finds the lock free.
def Racy (s : System Cpu) (l : Cpu × Act) : Prop :=
  l.2 = .test ∧ s.lock &&& 1 = 0 ∧ ∃ d, d ≠ l.1 ∧ s.place d = .setting

-- CPUs that have found the lock free go on to be inside, and no other does anything.
def Enters (s s' : System Cpu) : Prop :=
  Run.Steps Step (fun _ l => l.2 = .set) s s'

structure Inv (s : System Cpu) : Prop where
  one  : ∀ c d, Past (s.place c) → Past (s.place d) → c = d
  held : ∀ c, s.place c = .inside → s.lock &&& 1 ≠ 0

theorem or_one_and_one (lock : Lock) : (lock ||| 1) &&& 1 ≠ 0 := by
  intro h
  have hbit := congrArg (BitVec.getLsbD · 0) h
  simp at hbit

theorem Inv.step {l : Cpu × Act} (h : Inv s) (hs : Step s l s') (hr : ¬Racy s l) : Inv s' := by
  have ⟨place, ha, hp⟩ := hs
  have hself : s'.place l.1 = place := by rw [hp, update_self]
  have hother {c : Cpu} (hc : c ≠ l.1) : s'.place c = s.place c := by rw [hp, update_of_ne hc]
  -- A CPU that comes past its test is the only one.
  have one (hsub : Past place → Past (s.place l.1) ∨ ∀ c, c ≠ l.1 → ¬Past (s.place c)) (c d : Cpu)
      (hc : Past (s'.place c)) (hd : Past (s'.place d)) : c = d := by
    by_cases hcl : c = l.1
    case pos =>
      by_cases hdl : d = l.1
      case pos => rw [hcl, hdl]
      case neg =>
        rw [hcl, hself] at hc
        rw [hother hdl] at hd
        rcases hsub hc with hl | hn
        · exact hcl.trans (h.one _ _ hl hd)
        · exact absurd hd (hn d hdl)
    case neg =>
      rw [hother hcl] at hc
      by_cases hdl : d = l.1
      case pos =>
        rw [hdl, hself] at hd
        rcases hsub hd with hl | hn
        · exact (h.one _ _ hc hl).trans hdl.symm
        · exact absurd hc (hn c hcl)
      case neg =>
        rw [hother hdl] at hd
        exact h.one c d hc hd
  -- While the lock stays as it is, the CPUs that are inside are among those that were.
  have held (hlock : s'.lock = s.lock) (hin : place ≠ .inside) (c : Cpu) (hc : s'.place c = .inside) :
      s'.lock &&& 1 ≠ 0 := by
    by_cases hcl : c = l.1
    case pos => exact absurd (hself.symm.trans (hcl ▸ hc)) hin
    case neg => exact hlock ▸ h.held c (hother hcl ▸ hc)
  cases l
  case mk cpu act =>
    simp only at ha hself hother one held
    generalize hl : s.lock = lock at ha
    generalize hl' : s'.lock = lock' at ha
    generalize hq : s.place cpu = q at ha one
    cases ha
    case ask =>
      exact ⟨one (fun hp => by rcases hp with hp | hp <;> cases hp), hl' ▸ held (hl'.trans hl.symm) (by simp)⟩
    case spin hb =>
      exact ⟨one (fun hp => by rcases hp with hp | hp <;> cases hp), hl' ▸ held (hl'.trans hl.symm) (by simp)⟩
    case pass hb =>
      refine ⟨one fun _ => .inr fun c hc hpast => ?_, hl' ▸ held (hl'.trans hl.symm) (by simp)⟩
      rcases hpast with hset | hin
      · exact hr ⟨rfl, hl ▸ hb, c, hc, hset⟩
      · exact h.held c hin (hl ▸ hb)
    case set =>
      refine ⟨one fun _ => .inl (.inl rfl), fun _ _ => ?_⟩
      rw [hl']
      exact or_one_and_one _
    case free =>
      refine ⟨one fun _ => .inl (.inr rfl), fun c hc => ?_⟩
      have hcl : c ≠ cpu := by
        intro he
        rw [he, hself] at hc
        cases hc
      have heq := h.one c cpu (.inr (hother hcl ▸ hc)) (.inr hq)
      exact absurd heq hcl

theorem exists_enters (h : Past (s.place c)) :
    ∃ s', Enters s s' ∧ s'.place c = .inside ∧ ∀ d, d ≠ c → s'.place d = s.place d := by
  rcases h with h | h
  case inl =>
    refine ⟨⟨s.lock ||| 1, update s.place c .inside⟩, .step (l := (c, .set)) (.refl s) rfl ⟨.inside, ?_, rfl⟩,
      update_self .., ?_⟩
    · rw [h]
      exact .set
    · exact fun d hd => update_of_ne hd ..
  case inr => exact ⟨s, .refl s, h, fun _ _ => rfl⟩

theorem exists_not_exclusive (hne : c ≠ d) (hc : Past (s.place c)) (hd : Past (s.place d)) :
    ∃ s', Enters s s' ∧ ¬Exclusive s' := by
  have ⟨s₁, e₁, hc₁, h₁⟩ := exists_enters hc
  have ⟨s₂, e₂, hd₂, h₂⟩ := exists_enters (s := s₁) (h₁ d hne.symm ▸ hd)
  refine ⟨s₂, Run.Steps.trans e₁ e₂, fun he => hne (he c d ?_ hd₂)⟩
  rw [h₂ c hne, hc₁]

theorem Inv.enters (h : Inv s) (he : Enters s s') : Inv s' := by
  refine Run.Steps.invariant he h fun hi ha hs => hi.step hs fun hr => ?_
  exact absurd (ha.symm.trans hr.left) (by decide)

omit [DecidableEq Cpu] in
theorem inv_start : Inv (.start : System Cpu) where
  one c d hc := by rcases hc with hc | hc <;> cases hc
  held c hc  := by cases hc

-- The lock keeps the CPUs apart exactly when no CPU finds it free between another one's test and its store.
theorem exclusive_iff (t : History Step .start ls s) :
    ((∀ s', Enters s s' → Exclusive s') ∧ ∀ x ∈ ls, ∀ s', Enters x.1 s' → Exclusive s') ↔
      ∀ x ∈ ls, ¬Racy x.1 x.2 := by
  refine t.always_iff (I := Inv) (P := fun s => ∀ s', Enters s s' → Exclusive s') Racy inv_start ?good ?pres ?ends
  case good => exact fun hi s' he c d hc hd => (hi.enters he).one c d (.inr hc) (.inr hd)
  case pres => exact fun hi hs hr => hi.step hs hr
  case ends =>
    intro s l s' hi ⟨place, ha, hp⟩ ⟨htest, hfree, d, hne, hd⟩ hall
    cases l
    case mk cpu act =>
      simp only at htest hne ha hp
      subst htest
      have hset : place = .setting := by
        generalize s.place cpu = q at ha
        generalize s.lock = lock at ha hfree
        generalize s'.lock = lock' at ha
        cases ha
        case spin hb => exact absurd hfree hb
        case pass    => rfl
      have hcpu : Past (s'.place cpu) := by
        rw [hp, update_self]
        exact .inl hset
      have hd' : Past (s'.place d) := by
        rw [hp, update_of_ne hne]
        exact .inl hd
      have ⟨s'', he, hx⟩ := exists_not_exclusive hne hd' hcpu
      exact hx (hall s'' he)

end Parallel

section Interrupts

variable {n n' : Nested} {e : Event} {place : Place} {below : List Place}

-- At most one context has the lock, and what has found it free has not interrupted that one.
structure Settled (n : Nested) : Prop where
  apart : n.contexts.Pairwise fun above below => Past above → below ≠ .inside
  held  : n.lock &&& 1 ≠ 0 ↔ .inside ∈ n.contexts

theorem Settled.step (h : Settled n) (hs : NestedStep n e n') : Settled n' := by
  cases hs
  case interrupt =>
    refine ⟨List.pairwise_cons.mpr ⟨fun p _ hp => ?_, h.apart⟩, ?_⟩
    · rcases hp with hp | hp <;> cases hp
    · rw [h.held, List.mem_cons]
      simp
  case iret =>
    refine ⟨(List.pairwise_cons.mp h.apart).right, ?_⟩
    rw [h.held, List.mem_cons]
    simp
  case act lock lock' place place' a below ha =>
    have ⟨hbelow, hrest⟩ := List.pairwise_cons.mp h.apart
    have hheld := h.held
    simp only [List.mem_cons] at hheld
    cases ha
    case ask =>
      refine ⟨List.pairwise_cons.mpr ⟨fun p _ hp => ?_, hrest⟩, ?_⟩
      · rcases hp with hp | hp <;> cases hp
      · simpa using hheld
    case spin => exact h
    case pass hb =>
      have hnone : .inside ∉ below := fun hin => hheld.mpr (.inr hin) hb
      refine ⟨List.pairwise_cons.mpr ⟨fun p hm _ he => hnone (he ▸ hm), hrest⟩, ?_⟩
      simpa using hheld
    case set =>
      refine ⟨List.pairwise_cons.mpr ⟨fun p hm _ => hbelow p hm (.inl rfl), hrest⟩, ?_⟩
      simpa using or_one_and_one lock
    case free =>
      refine ⟨List.pairwise_cons.mpr ⟨fun p _ hp => ?_, hrest⟩, ?_⟩
      · rcases hp with hp | hp <;> cases hp
      · have hnone : .inside ∉ below := fun hin => hbelow _ hin (.inr rfl) rfl
        simpa using hnone

theorem settled_start : Settled .start where
  apart := List.pairwise_singleton ..
  held  := by decide

theorem Settled.count_le (h : Settled n) : n.contexts.count .inside ≤ 1 := by
  have hp := h.apart
  generalize n.contexts = contexts at hp
  induction contexts
  case nil => exact Nat.zero_le _
  case cons p rest hi =>
    have ⟨hbelow, hrest⟩ := List.pairwise_cons.mp hp
    by_cases hin : p = .inside
    case neg =>
      rw [List.count_cons_of_ne hin]
      exact hi hrest
    case pos =>
      have hnone : .inside ∉ rest := fun hm => hbelow _ hm (.inr hin) rfl
      rw [hin, List.count_cons_self, List.count_eq_zero_of_not_mem hnone]

-- While the context that a handler has interrupted is inside, the handler stays in its loop.
theorem waits_step {above : List Place} (h : Settled n) (hs : NestedStep n e n')
    (hn : n.contexts = above ++ .testing :: below) (hin : .inside ∈ below) :
    ∃ above', n'.contexts = above' ++ .testing :: below := by
  have hheld : n.lock &&& 1 ≠ 0 := by
    rw [h.held, hn]
    simp [hin]
  cases hs
  case interrupt => exact ⟨.outside :: above, by rw [hn]; rfl⟩
  case iret =>
    cases above
    case nil          => cases hn
    case cons x above => exact ⟨above, (List.cons.inj hn).right⟩
  case act place' a _ ha =>
    cases above
    case cons x above => exact ⟨place' :: above, congrArg _ (List.cons.inj hn).right⟩
    case nil =>
      have ⟨hp, hb⟩ := List.cons.inj hn
      subst hp hb
      cases ha
      case spin    => exact ⟨[], rfl⟩
      case pass hb => exact absurd hb hheld

-- Interrupts do not bring two contexts inside, and a handler that asks for the lock gets it, if it is let
-- run, exactly when what it has interrupted is not inside.
theorem nested_served_iff (run : Run.Steps NestedStep (fun _ _ => True) .start n) :
    n.contexts.count .inside ≤ 1 ∧ ∀ below, n.contexts = .testing :: below →
      ((∃ n', Run.Steps NestedStep (fun _ _ => True) n n' ∧ n'.contexts = .inside :: below) ↔ .inside ∉ below) := by
  have settled : Settled n := run.invariant settled_start fun hi _ hs => hi.step hs
  refine ⟨settled.count_le, fun below hn => ⟨?mp, ?mpr⟩⟩
  case mp =>
    intro ⟨n', run', hn'⟩ hin
    let waits (m : Nested) : Prop := Settled m ∧ ∃ above, m.contexts = above ++ .testing :: below
    have hw : waits n' := by
      refine run'.invariant (I := waits) ⟨settled, [], hn⟩ fun ⟨hs, above, hm⟩ _ hstep => ?_
      exact ⟨hs.step hstep, waits_step hs hstep hm hin⟩
    have ⟨_, above, hm⟩ := hw
    rw [hn'] at hm
    have hlen := congrArg List.length hm
    simp only [List.length_cons, List.length_append] at hlen
    cases above
    case nil  => cases hm
    case cons => simp at hlen
  case mpr =>
    intro hout
    have hfree : n.lock &&& 1 = 0 := by
      by_contra hne
      have hin := settled.held.mp hne
      rw [hn] at hin
      cases hin
      case tail hin => exact hout hin
    cases n
    case mk lock contexts =>
      simp only at hn hfree
      subst hn
      exact ⟨⟨lock ||| 1, .inside :: below⟩,
        .step (.step (.refl _) trivial (.act (.pass hfree))) trivial (.act .set), rfl⟩

end Interrupts

section Example

def systemAt (lock : Lock) (first second : Place) : System Bool where
  lock  := lock
  place := fun cpu => if cpu then second else first

theorem step_first {lock lock' : Lock} {p p' q : Place} {a : Act} (ha : Access lock p a lock' p') :
    Step (systemAt lock p q) (false, a) (systemAt lock' p' q) := by
  refine ⟨p', ha, funext fun cpu => ?_⟩
  cases cpu <;> rfl

theorem step_second {lock lock' : Lock} {p q q' : Place} {a : Act} (ha : Access lock q a lock' q') :
    Step (systemAt lock p q) (true, a) (systemAt lock' p q') := by
  refine ⟨q', ha, funext fun cpu => ?_⟩
  cases cpu <;> rfl

-- Two CPUs ask for the lock. The second one gets it when the first one has given it back.
theorem exclusive_iff_twoCpus : ∃ ls, History Step (.start : System Bool) ls (systemAt 1 .outside .inside) ∧
    (∀ s', Enters (systemAt 1 .outside .inside) s' → Exclusive s') ∧
    ∀ x ∈ ls, ∀ s', Enters x.1 s' → Exclusive s' := by
  have hstart : (.start : System Bool) = systemAt 0 .outside .outside := by
    simp only [System.start, systemAt, ite_self]
  have t₁ : History Step (systemAt 0 .outside .outside) _ (systemAt 1 .inside .testing) :=
    (((History.nil _).snoc (step_first .ask)).snoc (step_second .ask)).snoc (step_first (.pass rfl)) |>.snoc
      (step_first .set)
  have t₂ : History Step (systemAt 0 .outside .outside) _ (systemAt 0 .outside .testing) :=
    (t₁.snoc (step_second (.spin (by decide)))).snoc (step_first .free)
  have t₃ : History Step (systemAt 0 .outside .outside) _ (systemAt 1 .outside .inside) :=
    (t₂.snoc (step_second (.pass rfl))).snoc (step_second .set)
  rw [← hstart] at t₃
  refine ⟨_, t₃, (exclusive_iff t₃).mpr ?_⟩
  simp only [List.nil_append, List.cons_append, List.forall_mem_cons, List.not_mem_nil, false_implies, implies_true,
    and_true]
  refine ⟨?_, ?_, ?_, ?_, ?_, ?_, ?_, ?_⟩ <;>
  · unfold Racy
    decide

-- A handler asks for the lock that the interrupted code has.
theorem nested_served_iff_handler : ∃ n, Run.Steps NestedStep (fun _ _ => True) .start n ∧
    n.contexts = [.testing, .inside] ∧
    ¬∃ n', Run.Steps NestedStep (fun _ _ => True) n n' ∧ n'.contexts = [.inside, .inside] := by
  have task : Run.Steps NestedStep (fun _ _ => True) .start ⟨1, [.inside]⟩ :=
    .step (.step (.step (.refl _) trivial (.act .ask)) trivial (.act (.pass rfl))) trivial (.act .set)
  have run : Run.Steps NestedStep (fun _ _ => True) .start ⟨1, [.testing, .inside]⟩ :=
    .step (.step task trivial .interrupt) trivial (.act .ask)
  have ⟨_, h⟩ := nested_served_iff run
  exact ⟨_, run, rfl, fun hs => (h _ rfl).mp hs (.head _)⟩

end Example

end RoverOS.Mutex
