import RoverOS.Timer.Schedule

-- Which schedules have all their events delivered.

open Function (update update_self update_of_ne)

namespace RoverOS

namespace Timers

variable {t t' : Timers} {fuel i n v p ns id call dec : Nat} {e ev ep : TimerEvent}

theorem slot_ok (h : t.slot i = .ok e) : t.slots i = some e := by
  unfold slot at h
  split at h
  case h_1 => cases h
  case h_2 he => exact he.trans (congrArg some (Except.ok.inj h))

-- The slot is there, and it has some time left.
def Taken (t : Timers) (i : Nat) : Prop :=
  ∃ e, t.slots i = some e ∧ e.ns ≠ 0

-- Every slot before the next one has some time left.
def Filled (t : Timers) : Prop :=
  ∀ i < t.next, t.Taken i

@[simp]
theorem setSlot_self : (t.setSlot i e).slots i = some e :=
  update_self _ _ _

theorem setSlot_of_ne (hi : i ≠ n) : (t.setSlot n e).slots i = t.slots i :=
  update_of_ne hi _ _

theorem Taken.setSlot (h : t.Taken i) (he : e.ns ≠ 0) : (t.setSlot n e).Taken i := by
  by_cases hi : i = n
  case pos => exact ⟨e, by rw [hi, setSlot_self], he⟩
  case neg =>
    obtain ⟨e', he', hne⟩ := h
    exact ⟨e', (setSlot_of_ne hi).trans he', hne⟩

theorem taken_setSlot (he : e.ns ≠ 0) : (t.setSlot n e).Taken n :=
  ⟨e, setSlot_self, he⟩

theorem taken_of_slots {i : Nat} (h : t.Taken i) (he : t'.slots i = t.slots i) : t'.Taken i := by
  obtain ⟨e, hs, hne⟩ := h
  exact ⟨e, he.trans hs, hne⟩

section Add

-- Two times change places.
theorem Taken.swap (hi : t.Taken i ∨ i = p) (hv : ev.ns ≠ 0) (hp : ep.ns ≠ 0) :
    (t.swap v p ev ep).Taken i := by
  unfold Timers.swap
  apply Taken.setSlot
  · rcases hi with hi | rfl
    · apply Taken.setSlot hi
      exact hv
    · apply taken_setSlot
      exact hv
  · exact hp

theorem Taken.swapUp (hv : t.Taken v) (hi : t.Taken i) (h : swapUp fuel v p t = .ok t') :
    t'.Taken i ∧ t'.next = t.next ∧ t'.calls = t.calls := by
  induction fuel generalizing v p t
  case zero => cases h
  case succ fuel hind =>
    obtain ⟨ev, hev, h⟩ := Except.bind_ok_iff.mp h
    obtain ⟨ep, hep, h⟩ := Except.bind_ok_iff.mp h
    split at h
    case isTrue hlt =>
      have hev := slot_ok hev
      obtain ⟨ev', hv, hne⟩ := hv
      cases hev.symm.trans hv
      have hep : ep.ns ≠ 0 := Nat.ne_of_gt (Nat.lt_of_le_of_lt (Nat.zero_le _) hlt)
      -- The parent's time is the longer one, so that neither of them is 0.
      have hp' : (t.swap v p ev ep).Taken p := .swap (.inr rfl) hne hep
      have hi' : (t.swap v p ev ep).Taken i := .swap (.inl hi) hne hep
      obtain ⟨htaken, hnext, hcalls⟩ := hind hp' hi' h
      exact ⟨htaken, hnext, hcalls⟩
    case isFalse =>
      cases h
      exact ⟨hi, rfl, rfl⟩

theorem findFree_taken (hn : ∀ i < n, t.Taken i) (h : t.findFree fuel n = .ok p) : ∀ i < p, t.Taken i := by
  induction fuel generalizing n
  case zero => cases h
  case succ fuel hi =>
    obtain ⟨e, he, h⟩ := Except.bind_ok_iff.mp h
    split at h
    case isTrue hne =>
      apply hi _ h
      intro i hlt
      have hle : i < n + 1 := Nat.lt_of_lt_of_le hlt (Nat.mod_le _ _)
      rcases Nat.lt_succ_iff_lt_or_eq.mp hle with hlt | rfl
      · exact hn i hlt
      · exact ⟨e, slot_ok he, hne⟩
    case isFalse =>
      cases h
      exact hn

theorem Filled.add (hf : t.Filled) (h : addTimerEvent fuel ns id call t = .ok t') :
    t'.Filled ∧ t'.calls = if ns = 0 then (call, id) :: t.calls else t.calls := by
  unfold addTimerEvent at h
  split at h
  case isTrue h0 =>
    cases h
    rw [if_pos h0]
    exact ⟨hf, rfl⟩
  case isFalse h0 =>
    obtain ⟨_, -, h⟩ := Except.bind_ok_iff.mp h
    obtain ⟨t₁, hs, h⟩ := Except.bind_ok_iff.mp h
    obtain ⟨next, hn, h⟩ := Except.bind_ok_iff.mp h
    cases h
    let e : TimerEvent := { ns, id, callback := call }
    have hnew : (t.setSlot t.next e).Taken t.next := taken_setSlot h0
    have hold (i : Nat) (hi : i < t.next + 1) : t₁.Taken i := by
      rcases Nat.lt_succ_iff_lt_or_eq.mp hi with hi | rfl
      · exact (hnew.swapUp ((hf i hi).setSlot h0) hs).left
      · exact (hnew.swapUp hnew hs).left
    obtain ⟨_, hnext, hcalls⟩ := hnew.swapUp hnew hs
    rw [if_neg h0]
    refine ⟨fun i hi => findFree_taken (fun i hi => ?_) hn i hi, hcalls⟩
    rw [hnext] at hi
    exact hold i (Nat.lt_of_lt_of_le hi (Nat.mod_le _ _))

end Add

section Interrupt

theorem pullUp_never {idx l : Nat} {r : Nat × Timers} : pullUp fuel idx l t ≠ .ok r := by
  induction fuel generalizing idx l t
  case zero => intro h; cases h
  case succ fuel hi =>
    intro h
    simp only [pullUp, Except.bind_ok_iff] at h
    obtain ⟨_, _, _, _, _, _, _, _, h⟩ := h
    exact hi h

theorem resortTree_never (h0 : t.slots 0 = some e) (he : e.ns = 0) : resortTree fuel t ≠ .ok t' := by
  intro h
  obtain ⟨root, hr, h⟩ := Except.bind_ok_iff.mp h
  cases h0.symm.trans (slot_ok hr)
  rw [if_pos he] at h
  obtain ⟨r, h, _⟩ := Except.bind_ok_iff.mp h
  exact pullUp_never h

-- The end of the tree is never seen before the last slot.
theorem deincrement_all {ended : Bool} (ht : ∀ j, i ≤ j → j < i + n → t.Taken j) (hi : 0 < i)
    (h : deincrement dec n i t = .ok (ended, t')) : ended = false ∧ t'.slots 0 = t.slots 0 := by
  induction n generalizing i t
  case zero =>
    cases h
    exact ⟨rfl, rfl⟩
  case succ n hind =>
    obtain ⟨e, he, h⟩ := Except.bind_ok_iff.mp h
    obtain ⟨e', he', hne⟩ := ht i (Nat.le_refl i) (by omega)
    cases (slot_ok he).symm.trans he'
    rw [if_neg hne] at h
    have hrest (t₁ : Timers) (hs : ∀ j ≠ i, t₁.slots j = t.slots j)
        (h : deincrement dec n (i + 1) t₁ = .ok (ended, t')) :
        ended = false ∧ t'.slots 0 = t.slots 0 := by
      have ht₁ (j : Nat) (hj : i + 1 ≤ j) (hlt : j < i + 1 + n) : t₁.Taken j :=
        taken_of_slots (ht j (by omega) (by omega)) (hs j (by omega))
      obtain ⟨hended, h0⟩ := hind ht₁ (Nat.succ_pos i) h
      exact ⟨hended, h0.trans (hs 0 (Nat.ne_of_lt hi))⟩
    dsimp only at h
    split at h
    case isTrue  => exact hrest _ (fun j hj => setSlot_of_ne (t := t.invoke _ _) hj) h
    case isFalse => exact hrest _ (fun j hj => setSlot_of_ne hj) h

-- The interrupt never returns: the root has no time left, and the loop that pulls up its side has no
-- end.
theorem Filled.timerEnd_never (hf : t.Filled) : timerEnd fuel t ≠ .ok t' := by
  intro h
  obtain ⟨root, hr, h⟩ := Except.bind_ok_iff.mp h
  obtain ⟨⟨ended, t₁⟩, hd, h⟩ := Except.bind_ok_iff.mp h
  have htaken (j : Nat) (hj : 1 ≤ j) (hlt : j < 1 + (t.next - 1)) :
      ((t.invoke root.callback t.queue).setSlot 0 { root with ns := 0 }).Taken j := by
    exact taken_of_slots (hf j (by omega)) (setSlot_of_ne (by omega))
  obtain ⟨rfl, h0⟩ := deincrement_all htaken Nat.one_pos hd
  obtain ⟨t₂, h, _⟩ := Except.bind_ok_iff.mp h
  exact resortTree_never (h0.trans setSlot_self) rfl h

end Interrupt

end Timers

namespace Clock

open Timers

variable {c c' : Clock} {fuel n ns id call : Nat} {a : Act} {acts : List Act} {r : Registered}

theorem run_ok {f : Timers → Except Exit Timers} (h : c.run f = .ok c') :
    ∃ t, f { c.timers with calls := [] } = .ok t ∧
      c' = { c with timers := t, log := t.calls.map (fun call => ⟨c.now, call.1, call.2⟩) ++ c.log } := by
  obtain ⟨t, hf, h⟩ := Except.bind_ok_iff.mp h
  cases h
  exact ⟨t, hf, rfl⟩

section Quiet

-- As long as no interrupt has come, only the events without a time have been called.
structure Quiet (c : Clock) : Prop where
  filled : c.timers.Filled
  log    : c.log = (c.registered.filter (·.ns = 0)).map Registered.due
  due {r : Registered} : r ∈ c.registered → r.due.time ≤ c.now + r.ns

theorem Quiet.add (hq : Quiet c) (h : c.step fuel (.add ns id call) = .ok c') :
    Quiet c' ∧ c'.registered = ⟨ns, ⟨c.now + ns, call, id⟩⟩ :: c.registered ∧ c'.now = c.now := by
  obtain ⟨_, hr, hc⟩ := Except.bind_ok_iff.mp h
  obtain ⟨t, ht, rfl⟩ := run_ok hr
  cases hc
  obtain ⟨hfilled, hcalls⟩ := Filled.add (t := { c.timers with calls := [] }) hq.filled ht
  refine ⟨⟨hfilled, ?_, ?_⟩, rfl, rfl⟩
  · by_cases h0 : ns = 0
    case pos => simp [hcalls, hq.log, h0]
    case neg => simp [hcalls, hq.log, h0]
  · intro r hr
    rcases List.mem_cons.mp hr with rfl | hr
    · exact Nat.le_refl _
    · exact hq.due hr

-- The time passes, and that is all: an interrupt would never return.
theorem Quiet.wait (hq : Quiet c) (h : c.step fuel .wait = .ok c') :
    Quiet c' ∧ c'.registered = c.registered ∧ c'.now = c.now + 1 := by
  simp only [step] at h
  split at h
  case isTrue =>
    obtain ⟨_, h, _⟩ := Except.bind_ok_iff.mp h
    obtain ⟨t, h, _⟩ := run_ok h
    exact absurd h (Filled.timerEnd_never hq.filled)
  case isFalse =>
    cases h
    refine ⟨⟨hq.filled, hq.log, fun {r} hr => ?_⟩, rfl, rfl⟩
    have hdue := hq.due hr
    dsimp only
    omega

theorem execute_cons (h : c.execute fuel (a :: acts) = .ok c') :
    ∃ c₁, c.step fuel a = .ok c₁ ∧ c₁.execute fuel acts = .ok c' := by
  rw [execute, List.foldlM_cons] at h
  exact Except.bind_ok_iff.mp h

theorem Quiet.execute (hq : Quiet c) (h : c.execute fuel acts = .ok c') :
    Quiet c' ∧ (∀ r ∈ c.registered, r ∈ c'.registered) ∧
      ∀ ns id call, Act.add ns id call ∈ acts → ∃ r ∈ c'.registered, r.ns = ns := by
  induction acts generalizing c
  case nil =>
    cases h
    exact ⟨hq, fun _ hr => hr, fun _ _ _ hm => by cases hm⟩
  case cons a acts hi =>
    obtain ⟨c₁, hs, hrest⟩ := execute_cons h
    cases a
    case add ns id call =>
      obtain ⟨hq, hr, _⟩ := hq.add hs
      obtain ⟨hq, hkept, hadds⟩ := hi hq hrest
      rw [hr] at hkept
      refine ⟨hq, fun r hm => hkept r (List.mem_cons_of_mem _ hm), fun ns' id' call' hm => ?_⟩
      rcases List.mem_cons.mp hm with he | hm
      · cases he
        exact ⟨_, hkept _ (List.mem_cons_self ..), rfl⟩
      · exact hadds ns' id' call' hm
    case wait =>
      obtain ⟨hq, hr, _⟩ := hq.wait hs
      obtain ⟨hq, hkept, hadds⟩ := hi hq hrest
      rw [hr] at hkept
      refine ⟨hq, hkept, fun ns' id' call' hm => ?_⟩
      rcases List.mem_cons.mp hm with he | hm
      · cases he
      · exact hadds ns' id' call' hm

theorem Quiet.waits (hq : Quiet c) (h : c.execute fuel (List.replicate n .wait) = .ok c') :
    Quiet c' ∧ c'.registered = c.registered ∧ c'.now = c.now + n := by
  induction n generalizing c
  case zero =>
    cases h
    exact ⟨hq, rfl, rfl⟩
  case succ n hi =>
    obtain ⟨c₁, hs, h⟩ := execute_cons h
    obtain ⟨hq, hr, hnow⟩ := hq.wait hs
    obtain ⟨hq, hr', hnow'⟩ := hi hq h
    exact ⟨hq, hr'.trans hr, by omega⟩

-- An event with a time is missing as soon as it is due.
theorem Quiet.not_delivered (hq : Quiet c) (hr : r ∈ c.registered) (h0 : r.ns ≠ 0)
    (hdue : r.due.time ≤ c.now) : ¬c.Delivered := by
  intro hd
  have hlen := hd.length_eq
  simp only [hq.log, List.length_map] at hlen
  have hsub : c.registered.filter (·.ns = 0) =
      (c.registered.filter (fun r => r.due.time ≤ c.now)).filter (·.ns = 0) := by
    rw [List.filter_filter]
    apply List.filter_congr
    intro r hr
    by_cases h : r.ns = 0
    case pos =>
      have := hq.due hr
      simp [h, (by omega : r.due.time ≤ c.now)]
    case neg => simp [h]
  rw [hsub] at hlen
  have hlt : ((c.registered.filter (fun r => r.due.time ≤ c.now)).filter (·.ns = 0)).length <
      (c.registered.filter (fun r => r.due.time ≤ c.now)).length :=
    List.length_filter_lt_length_iff_exists.mpr
      ⟨r, List.mem_filter.mpr ⟨hr, decide_eq_true hdue⟩, by simpa using h0⟩
  exact absurd hlen (Nat.ne_of_lt hlt)

theorem quiet_start {queue : Nat} {beyond : Nat → Option TimerEvent} :
    Quiet (start (initTimers queue beyond)) where
  filled _ hi := absurd hi (Nat.not_lt_zero _)
  log         := rfl
  due hr      := by cases hr

-- Some time after an event with a time has been registered, it is missing, or the code has not returned.
theorem Quiet.missing (hq : Quiet c) (hm : Act.add ns id call ∈ acts) (h0 : ns ≠ 0) :
    ∃ n, ¬∃ fuel c', c.execute fuel (acts ++ List.replicate n .wait) = .ok c' ∧ c'.Delivered := by
  refine ⟨ns, fun h => ?_⟩
  obtain ⟨fuel, c', h, hd⟩ := h
  rw [Clock.execute, List.foldlM_append] at h
  obtain ⟨c₁, h₁, h⟩ := Except.bind_ok_iff.mp h
  obtain ⟨hq, _, hadds⟩ := hq.execute h₁
  obtain ⟨r, hr, rfl⟩ := hadds _ _ _ hm
  have hdue := hq.due hr
  obtain ⟨hq, hregistered, hnow⟩ := hq.waits h
  exact hq.not_delivered (hregistered ▸ hr) h0 (by omega) hd

end Quiet

section Immediate

-- The queue is empty, and everything that has been registered has been called at once.
structure Idle (c : Clock) : Prop where
  root : c.rootTime = 0
  log  : c.log = c.registered.map Registered.due
  due {r : Registered} : r ∈ c.registered → r.due.time ≤ c.now

theorem Idle.delivered (hi : Idle c) : c.Delivered := by
  have hall : c.registered.filter (fun r => r.due.time ≤ c.now) = c.registered :=
    List.filter_eq_self.mpr fun r hr => decide_eq_true (hi.due hr)
  rw [Delivered, hall, hi.log]

theorem Idle.step (hi : Idle c) (ha : ∀ ns id call, a = .add ns id call → ns = 0) :
    ∃ c', c.step fuel a = .ok c' ∧ Idle c' := by
  cases a
  case add ns id call =>
    obtain rfl := ha ns id call rfl
    refine ⟨_, rfl, hi.root, ?_, fun {r} hr => ?_⟩
    · simp [invoke, hi.log]
    · rcases List.mem_cons.mp hr with rfl | hr
      · exact Nat.le_refl _
      · exact hi.due hr
  case wait =>
    have he : ({ c with now := c.now + 1 } : Clock).elapsed = false := by
      simp [elapsed, show ({ c with now := c.now + 1 } : Clock).rootTime = 0 from hi.root]
    refine ⟨{ c with now := c.now + 1 }, ?_, hi.root, hi.log, fun hr => Nat.le_succ_of_le (hi.due hr)⟩
    simp only [Clock.step, he]
    rfl

theorem Idle.execute (hi : Idle c) (ha : ∀ ns id call, Act.add ns id call ∈ acts → ns = 0) :
    ∃ c', c.execute fuel acts = .ok c' ∧ Idle c' := by
  induction acts generalizing c
  case nil => exact ⟨c, rfl, hi⟩
  case cons a acts hind =>
    obtain ⟨c₁, h₁, hi⟩ := @Idle.step c fuel a hi fun ns id call he => ha ns id call (he ▸ List.mem_cons_self ..)
    obtain ⟨c', h, hi⟩ := hind hi fun ns id call hm => ha ns id call (List.mem_cons_of_mem _ hm)
    refine ⟨c', ?_, hi⟩
    rw [Clock.execute, List.foldlM_cons, h₁]
    exact h

theorem idle_start {queue : Nat} {beyond : Nat → Option TimerEvent} :
    Idle (start (initTimers queue beyond)) where
  root   := rfl
  log    := rfl
  due hr := by cases hr

end Immediate

-- However time goes on after a schedule, whatever is in the memory behind the queue.
theorem fires_once_iff {queue : Nat} {beyond : Nat → Option TimerEvent} :
    (∀ n, ∃ fuel c, (start (initTimers queue beyond)).execute fuel (acts ++ List.replicate n .wait) = .ok c ∧
      c.Delivered) ↔ ∀ ns id call, Act.add ns id call ∈ acts → ns = 0 := by
  constructor
  case mp =>
    intro h ns id call hm
    by_contra h0
    obtain ⟨n, hn⟩ := (@quiet_start queue beyond).missing hm h0
    exact hn (h n)
  case mpr =>
    intro h n
    have hall (ns id call : Nat) (hm : Act.add ns id call ∈ acts ++ List.replicate n .wait) : ns = 0 := by
      rcases List.mem_append.mp hm with hm | hm
      · exact h ns id call hm
      · cases List.eq_of_mem_replicate hm
    obtain ⟨c, hc, hi⟩ := @Idle.execute _ 0 _ (@idle_start queue beyond) hall
    exact ⟨0, c, hc, hi.delivered⟩

-- One event of 5 ns, with all memory behind the queue there and zero: it is added, and its interrupt
-- does not return.
theorem event_missing : ¬∀ (queue : Nat) (beyond : Nat → Option TimerEvent) (acts : List Act),
    acts.length ≤ 100 → ∀ n, ∃ fuel c,
      (start (initTimers queue beyond)).execute fuel (acts ++ List.replicate n .wait) = .ok c ∧ c.Delivered := by
  intro h
  obtain ⟨n, hn⟩ := (@quiet_start 0x1000 fun _ => some ⟨0, 0, 0⟩).missing
    (List.mem_singleton_self (Act.add 5 7 9)) (by decide)
  exact hn (h _ _ _ (by decide) n)

example : ((start (initTimers 0x1000 fun _ => some ⟨0, 0, 0⟩)).execute 9 [.add 5 7 9]).map
    (fun c => (c.timers.next, c.rootTime, c.since)) = .ok (1, 5, 0) := by rfl

end Clock

end RoverOS
