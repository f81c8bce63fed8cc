import RoverOS.Timer.Theorems.Fires

-- The queue as a heap: what an insertion keeps of it, and that a removal never ends.

open Function (update update_self update_of_ne)

namespace RoverOS.Timers

variable {t t' : Timers} {fuel i j n v p ns id call idx l : Nat} {e : TimerEvent}

def qsize : Nat := 100

-- The time of an event, and 0 for a free slot.
def time (t : Timers) (i : Nat) : Nat :=
  (t.slots i).elim 0 TimerEvent.ns

-- The parent of every slot that is taken has no longer time.
def MinHeap (t : Timers) : Prop :=
  ∀ i, 0 < i → i < qsize → t.Taken i → t.time ((i - 1) / 2) ≤ t.time i

def eventAt (t : Timers) (i : Nat) : Option TimerEvent :=
  (t.slots i).filter (·.ns ≠ 0)

def events (t : Timers) : List TimerEvent :=
  (List.range qsize).filterMap t.eventAt

-- The queue and no memory behind it: what returns here touches the slots below `qsize` alone.
def own (t : Timers) : Timers :=
  { t with slots := fun i => if i < qsize then t.slots i else none }

structure Queue (t : Timers) : Prop where
  there : ∀ i < qsize, t.slots i ≠ none
  heap  : t.MinHeap

-- The next slot is the first one that is free, and it is in the queue.
structure Queue.Next (t : Timers) : Prop extends Queue t where
  lt    : t.next < qsize
  taken : t.Filled
  free  : ¬t.Taken t.next

section Slots

theorem taken_iff : t.Taken i ↔ t.time i ≠ 0 := by
  unfold Taken time
  cases t.slots i
  case none   => simp
  case some e => simp

theorem own_slots (hi : i < qsize) : t.own.slots i = t.slots i :=
  if_pos hi

theorem own_none (hi : qsize ≤ i) : t.own.slots i = none :=
  if_neg (Nat.not_lt.mpr hi)

theorem time_congr (h : t'.slots i = t.slots i) : t'.time i = t.time i := by
  rw [time, time, h]

theorem taken_congr (h : t'.slots i = t.slots i) : t'.Taken i ↔ t.Taken i := by
  rw [taken_iff, taken_iff, time_congr h]

theorem time_of_slots (h : t.slots i = some e) : t.time i = e.ns := by
  rw [time, h]
  rfl

theorem eventAt_eq_none : t.eventAt i = none ↔ ¬t.Taken i := by
  unfold eventAt Taken
  cases t.slots i
  case none   => simp
  case some e => simp [Option.filter]

theorem eventAt_eq_some : t.eventAt i = some e ↔ t.slots i = some e ∧ e.ns ≠ 0 := by
  simp [eventAt, Option.filter_eq_some_iff]

theorem mem_events : e ∈ t.events ↔ ∃ i < qsize, t.slots i = some e ∧ e.ns ≠ 0 := by
  simp [events, eventAt_eq_some]

theorem events_congr (h : ∀ i < qsize, t'.slots i = t.slots i) : t'.events = t.events := by
  apply List.filterMap_congr
  intro i hi
  rw [eventAt, eventAt, h i (List.mem_range.mp hi)]

-- One more index has a value.
theorem filterMap_perm {f g : Nat → Option TimerEvent} {is : List Nat} (hn : n ∈ is) (hd : is.Nodup)
    (hg : g n = none) (hf : f n = some e) (h : ∀ i ≠ n, f i = g i) :
    (is.filterMap f).Perm (e :: is.filterMap g) := by
  induction is
  case nil => cases hn
  case cons i is hi =>
    obtain ⟨hnot, hd⟩ := List.nodup_cons.mp hd
    by_cases he : i = n
    case pos =>
      subst he
      have hrest : is.filterMap f = is.filterMap g :=
        List.filterMap_congr fun j hj => h j fun he => hnot (he ▸ hj)
      rw [List.filterMap_cons_some hf, List.filterMap_cons_none hg, hrest]
    case neg =>
      have hn : n ∈ is := (List.mem_cons.mp hn).resolve_left (Ne.symm he)
      cases hgi : g i
      case none =>
        rw [List.filterMap_cons_none hgi, List.filterMap_cons_none ((h i he).trans hgi)]
        exact hi hn hd
      case some q =>
        rw [List.filterMap_cons_some hgi, List.filterMap_cons_some ((h i he).trans hgi)]
        exact ((hi hn hd).cons q).trans (.swap e q _)

-- A free slot is taken by an event.
theorem events_setSlot (hn : n < qsize) (hfree : ¬t.Taken n) (he : e.ns ≠ 0) :
    (t.setSlot n e).events.Perm (e :: t.events) := by
  apply filterMap_perm (List.mem_range.mpr hn) List.nodup_range (eventAt_eq_none.mpr hfree)
  · exact eventAt_eq_some.mpr ⟨setSlot_self, he⟩
  · intro i hi
    rw [eventAt, eventAt, setSlot_of_ne hi]

end Slots

section Insert

-- The insertion as it should be: it is in the queue alone, and the queue has one event more.
def Inserts (ns id call : Nat) (t : Timers) : Prop :=
  ∃ fuel t', addTimerEvent fuel ns id call t.own = .ok t' ∧ t'.MinHeap ∧
    t'.events.Perm ({ ns, id, callback := call } :: t.events)

-- The event can stay where it is put, and the slot that `TIMER_PARENT` gives does not make it move.
structure Stays (ns : Nat) (t : Timers) : Prop where
  two   : 2 ≤ t.next
  given : t.time (timerParent t.next t.next) ≤ ns
  above : t.time ((t.next - 1) / 2) ≤ ns
  below : ∀ c < qsize, (c - 1) / 2 = t.next → t.Taken c → ns ≤ t.time c
  room  : ∃ i < qsize, t.next < i ∧ ¬t.Taken i

theorem timerParent_lt (hv : v < qsize) : timerParent n v < v ∨ qsize ≤ timerParent n v := by
  simp only [timerParent, u32, qsize] at *
  split <;> omega

theorem timerParent_small (hn : n < 2) : qsize ≤ timerParent n n := by
  simp only [timerParent, u32, qsize]
  split <;> omega

theorem timerParent_large (h2 : 2 ≤ n) (hn : n < qsize) : timerParent n n < n := by
  simp only [timerParent, u32, qsize] at *
  split <;> omega

-- What moving up from slot `v` leaves as it is.
structure SiftsFrom (v : Nat) (t t' : Timers) : Prop where
  next  : t'.next = t.next
  above : ∀ i, v < i → t'.slots i = t.slots i
  free  : ∀ i, ¬t.Taken i → t'.slots i = t.slots i
  ids   : ∀ i, (t'.slots i).map TimerEvent.id = (t.slots i).map TimerEvent.id

theorem SiftsFrom.refl : SiftsFrom v t t where
  next      := rfl
  above _ _ := rfl
  free _ _  := rfl
  ids _     := rfl

theorem SiftsFrom.swap {ev ep : TimerEvent} {t₁ : Timers} (hv : t.slots v = some ev) (hp : t.slots p = some ep)
    (hne : ev.ns ≠ 0) (hlt : ev.ns < ep.ns) (hpv : p < v) (h : SiftsFrom p (t.swap v p ev ep) t₁) :
    SiftsFrom v t t₁ := by
  have hother (i : Nat) (hiv : i ≠ v) (hip : i ≠ p) : (t.swap v p ev ep).slots i = t.slots i := by
    rw [Timers.swap, setSlot_of_ne hiv, setSlot_of_ne hip]
  have hsv : (t.swap v p ev ep).slots v = some { ev with ns := ep.ns, callback := ep.callback } := setSlot_self
  have hsp : (t.swap v p ev ep).slots p = some { ep with ns := ev.ns, callback := ev.callback } := by
    rw [Timers.swap, setSlot_of_ne (Nat.ne_of_lt hpv), setSlot_self]
  constructor
  case next => exact h.next
  case above =>
    intro i hi
    rw [h.above i (by omega), hother i (by omega) (by omega)]
  case free =>
    intro i hi
    have hiv : i ≠ v := by
      rintro rfl
      exact hi ⟨ev, hv, hne⟩
    have hip : i ≠ p := by
      rintro rfl
      exact hi ⟨ep, hp, by omega⟩
    have hs := hother i hiv hip
    rw [h.free i (mt (taken_congr hs).mp hi), hs]
  case ids =>
    intro i
    rw [h.ids i]
    by_cases hiv : i = v
    case pos => rw [hiv, hsv, hv]; rfl
    case neg =>
      by_cases hip : i = p
      case pos => rw [hip, hsp, hp]; rfl
      case neg => rw [hother i hiv hip]

-- Slots that are not there end the way up.
theorem swapUp_sifts (hout : ∀ i, qsize ≤ i → t.slots i = none) (hv : t.Taken v)
    (hp : p < v ∨ qsize ≤ p) (h : swapUp fuel v p t = .ok t') : SiftsFrom v t t' := by
  induction fuel generalizing v p t
  case zero => cases h
  case succ fuel hi =>
    obtain ⟨ev, hev, h⟩ := Except.bind_ok_iff.mp h
    obtain ⟨ep, hep, h⟩ := Except.bind_ok_iff.mp h
    replace hev := slot_ok hev
    replace hep := slot_ok hep
    have hpq : p < qsize := by
      by_contra hq
      rw [hout p (Nat.not_lt.mp hq)] at hep
      cases hep
    have hpv : p < v := hp.resolve_right (Nat.not_le.mpr hpq)
    have hne : ev.ns ≠ 0 := by
      obtain ⟨e, he, hne⟩ := hv
      cases hev.symm.trans he
      exact hne
    split at h
    case isTrue hlt =>
      refine .swap hev hep hne hlt hpv (hi ?_ (.swap (.inr rfl) hne (by omega)) (timerParent_lt hpq) h)
      intro i hq
      have hvq : v < qsize := by
        by_contra hvq
        rw [hout v (Nat.not_lt.mp hvq)] at hev
        cases hev
      rw [Timers.swap, setSlot_of_ne (by omega), setSlot_of_ne (by omega)]
      exact hout i hq
    case isFalse =>
      cases h
      exact .refl

-- The search ends in the queue, and not before where it starts.
theorem findFree_free (hout : ∀ i, qsize ≤ i → t.slots i = none) (hn : n ≤ qsize)
    (h : t.findFree fuel n = .ok p) : n ≤ p ∧ p < qsize ∧ ¬t.Taken p := by
  induction fuel generalizing n
  case zero => cases h
  case succ fuel hi =>
    obtain ⟨e, he, h⟩ := Except.bind_ok_iff.mp h
    replace he := slot_ok he
    have hlt : n < qsize := by
      by_contra hq
      rw [hout n (Nat.not_lt.mp hq)] at he
      cases he
    split at h
    case isTrue =>
      have hu : u32 (n + 1) = n + 1 := u32_of_lt (by simp only [qsize] at hlt; omega)
      rw [hu] at h
      obtain ⟨hle, hp⟩ := hi hlt h
      exact ⟨by omega, hp⟩
    case isFalse h0 =>
      cases h
      refine ⟨Nat.le_refl _, hlt, fun ht => h0 ?_⟩
      rw [← time_of_slots he]
      exact taken_iff.mp ht

theorem findFree_finds (hin : ∀ i < qsize, t.slots i ≠ none) (hi : i < qsize) (hfree : ¬t.Taken i)
    (hn : n ≤ i) (hf : i < n + fuel) : ∃ p, t.findFree fuel n = .ok p := by
  induction fuel generalizing n
  case zero => omega
  case succ fuel hind =>
    obtain ⟨e, he⟩ := Option.ne_none_iff_exists'.mp (hin n (by omega))
    have hs : t.slot n = .ok e := by rw [slot, he]
    rw [findFree, hs]
    by_cases h0 : e.ns = 0
    case pos => exact ⟨n, by simp [h0, bind, Except.bind, pure, Except.pure]⟩
    case neg =>
      have hne : n ≠ i := by
        rintro rfl
        exact hfree ⟨e, he, h0⟩
      have hu : u32 (n + 1) = n + 1 := u32_of_lt (by simp only [qsize] at hi; omega)
      obtain ⟨p, hp⟩ := @hind (n + 1) (by omega) (by omega)
      exact ⟨p, by simpa [h0, bind, Except.bind, hu] using hp⟩

-- The new event is put into the next slot.
def put (ns id call : Nat) (t : Timers) : Timers :=
  t.own.setSlot t.next { ns, id, callback := call }

theorem addTimerEvent_own_iff (hq : Queue.Next t) (h0 : ns ≠ 0) :
    addTimerEvent fuel ns id call t.own = .ok t' ↔
      ∃ t₁ p, swapUp fuel t.next (timerParent t.next t.next) (put ns id call t) = .ok t₁ ∧
        t₁.findFree fuel (u32 (t₁.next + 1)) = .ok p ∧ t' = { t₁ with next := p } := by
  obtain ⟨e, he⟩ := Option.ne_none_iff_exists'.mp (hq.there t.next hq.lt)
  have hs : t.own.slot t.own.next = .ok e := by
    rw [slot, show t.own.next = t.next from rfl, own_slots hq.lt, he]
  rw [addTimerEvent, if_neg h0]
  simp only [Except.bind_ok_iff, hs]
  constructor
  case mp =>
    rintro ⟨_, -, t₁, h₁, p, hp, h⟩
    cases h
    exact ⟨t₁, p, h₁, hp, rfl⟩
  case mpr =>
    rintro ⟨t₁, p, h₁, hp, rfl⟩
    exact ⟨e, rfl, t₁, h₁, p, hp, rfl⟩

section Put

theorem put_self : (put ns id call t).slots t.next = some { ns, id, callback := call } :=
  setSlot_self

theorem put_other (hi : i < qsize) (hne : i ≠ t.next) : (put ns id call t).slots i = t.slots i := by
  rw [put, setSlot_of_ne hne, own_slots hi]

theorem put_time_self : (put ns id call t).time t.next = ns :=
  time_of_slots put_self

theorem put_time_other (hi : i < qsize) (hne : i ≠ t.next) : (put ns id call t).time i = t.time i :=
  time_congr (put_other hi hne)

variable (hq : Queue.Next t)

include hq

theorem put_none (hi : qsize ≤ i) : (put ns id call t).slots i = none := by
  have hlt := hq.lt
  rw [put, setSlot_of_ne (by omega), own_none hi]

theorem put_events (h0 : ns ≠ 0) :
    (put ns id call t).events.Perm ({ ns, id, callback := call } :: t.events) := by
  have hfree : ¬t.own.Taken t.next := mt (taken_congr (own_slots hq.lt)).mp hq.free
  have hown : t.own.events = t.events := events_congr fun i hi => own_slots hi
  have he := events_setSlot (e := { ns, id, callback := call }) hq.lt hfree h0
  rwa [hown] at he

-- The heap with the new event is one exactly when the event fits between its parent and its children.
theorem put_minHeap_iff (h0 : ns ≠ 0) (hpos : 0 < t.next) : (put ns id call t).MinHeap ↔
    t.time ((t.next - 1) / 2) ≤ ns ∧
      ∀ c < qsize, (c - 1) / 2 = t.next → t.Taken c → ns ≤ t.time c := by
  have hlt := hq.lt
  constructor
  case mp =>
    intro hm
    constructor
    case left =>
      have hp := hm t.next hpos hlt ⟨_, put_self, h0⟩
      rwa [put_time_self, put_time_other (by omega) (by omega)] at hp
    case right =>
      intro c hc hp ht
      have hne : c ≠ t.next := by omega
      have hh := hm c (by omega) hc ((taken_congr (put_other hc hne)).mpr ht)
      rwa [hp, put_time_self, put_time_other hc hne] at hh
  case mpr =>
    rintro ⟨habove, hbelow⟩ i hi hiq ht
    by_cases hin : i = t.next
    case pos =>
      rw [hin, put_time_self, put_time_other (by omega) (by omega)]
      exact habove
    case neg =>
      have ht' := (taken_congr (put_other hiq hin)).mp ht
      rw [put_time_other hiq hin]
      by_cases hp : (i - 1) / 2 = t.next
      case pos =>
        rw [hp, put_time_self]
        exact hbelow i hiq hp ht'
      case neg =>
        rw [put_time_other (by omega) hp]
        exact hq.heap i hi hiq ht'

theorem put_swapUp_stays (hm : t.time (timerParent t.next t.next) ≤ ns) (h2 : 2 ≤ t.next) :
    swapUp (fuel + 1) t.next (timerParent t.next t.next) (put ns id call t) = .ok (put ns id call t) := by
  have hp := timerParent_large h2 hq.lt
  have hpq : timerParent t.next t.next < qsize := Nat.lt_trans hp hq.lt
  obtain ⟨ep, hep⟩ := Option.ne_none_iff_exists'.mp (hq.there _ hpq)
  have hv : (put ns id call t).slot t.next = .ok { ns, id, callback := call } := by
    rw [slot, put_self]
  have hs : (put ns id call t).slot (timerParent t.next t.next) = .ok ep := by
    rw [slot, put_other hpq (Nat.ne_of_lt hp), hep]
  have hle : ¬ns < ep.ns := by
    rw [time_of_slots hep] at hm
    exact Nat.not_lt.mpr hm
  rw [swapUp, hv, hs]
  exact if_neg hle

end Put

theorem Stays.inserts (hq : Queue.Next t) (h0 : ns ≠ 0) (h : Stays ns t) : Inserts ns id call t := by
  obtain ⟨i, hi, hlt, hfree⟩ := h.room
  have hu : u32 ((put ns id call t).next + 1) = t.next + 1 := u32_of_lt (by
    have := hq.lt
    simp only [qsize] at this
    exact Nat.lt_of_le_of_lt (Nat.succ_le_of_lt this) (by decide))
  have hin (j : Nat) (hj : j < qsize) : (put ns id call t).slots j ≠ none := by
    by_cases hjn : j = t.next
    case pos => simp [hjn, put_self]
    case neg => simpa [put_other hj hjn] using hq.there j hj
  have hfree' : ¬(put ns id call t).Taken i :=
    mt (taken_congr (put_other hi (Nat.ne_of_gt hlt))).mp hfree
  have hsteps : i < t.next + 1 + (qsize + 1) := by omega
  obtain ⟨p, hp⟩ := findFree_finds hin hi hfree' hlt hsteps
  refine ⟨qsize + 1, { put ns id call t with next := p }, ?_, ?_, put_events hq h0⟩
  · refine (addTimerEvent_own_iff hq h0).mpr ⟨_, p, put_swapUp_stays hq h.given h.two, ?_, rfl⟩
    rw [hu]
    exact hp
  · exact (put_minHeap_iff hq h0 (by have := h.two; omega)).mpr ⟨h.above, h.below⟩

-- An event that moves leaves its id behind.
theorem Inserts.stays (hq : Queue.Next t) (h0 : ns ≠ 0) (hid : ∀ e ∈ t.events, e.id ≠ id)
    (h : Inserts ns id call t) : Stays ns t := by
  obtain ⟨fuel, t', h, hheap, hperm⟩ := h
  obtain ⟨t₁, q, hs, hf, rfl⟩ := (addTimerEvent_own_iff hq h0).mp h
  have hlt := hq.lt
  obtain _ | fuel := fuel
  · cases hs
  have hout (i : Nat) (hi : qsize ≤ i) : (put ns id call t).slots i = none := put_none hq hi
  -- The parent that the macro gives is read, so that it is in the queue.
  obtain ⟨ev, hev, hs₁⟩ := Except.bind_ok_iff.mp hs
  obtain ⟨ep, hep, hs₁⟩ := Except.bind_ok_iff.mp hs₁
  replace hep := slot_ok hep
  cases (slot_ok hev).symm.trans put_self
  have hpq : timerParent t.next t.next < qsize := by
    by_contra hn
    rw [hout _ (Nat.not_lt.mp hn)] at hep
    cases hep
  have h2 : 2 ≤ t.next := by
    by_contra hn
    have := timerParent_small (Nat.not_le.mp hn)
    omega
  have hpn := timerParent_large h2 hlt
  have hpt : t.time (timerParent t.next t.next) = ep.ns := by
    exact (put_time_other hpq (Nat.ne_of_lt hpn)).symm.trans (time_of_slots hep)
  split at hs₁
  case isFalse hle =>
    cases hs₁
    have hu : u32 ((put ns id call t).next + 1) = t.next + 1 := u32_of_lt (by
      simp only [qsize] at hlt
      exact Nat.lt_of_le_of_lt (Nat.succ_le_of_lt hlt) (by decide))
    rw [hu] at hf
    obtain ⟨hq₁, hq₂, hq₃⟩ := findFree_free hout hlt hf
    obtain ⟨habove, hbelow⟩ := (put_minHeap_iff hq h0 (by omega)).mp hheap
    refine ⟨h2, by rw [hpt]; exact Nat.not_lt.mp hle, habove, hbelow, q, hq₂, hq₁, ?_⟩
    exact mt (taken_congr (put_other hq₂ (by omega))).mpr hq₃
  case isTrue hmove =>
    exfalso
    have htaken : (put ns id call t).Taken t.next := ⟨_, put_self, h0⟩
    have hsift := swapUp_sifts hout htaken (.inl hpn) hs
    have hsift₁ : SiftsFrom (timerParent t.next t.next) _ t₁ :=
      swapUp_sifts (t := (put ns id call t).swap t.next _ _ ep) (fun i hi => by
        rw [Timers.swap, setSlot_of_ne (by omega), setSlot_of_ne (by omega)]
        exact hout i hi) (.swap (.inr rfl) h0 (by dsimp only at hmove; omega)) (timerParent_lt hpq) hs₁
    have hmem : ({ ns, id, callback := call } : TimerEvent) ∈ t₁.events :=
      hperm.symm.subset List.mem_cons_self
    obtain ⟨i, hi, hsi, _⟩ := mem_events.mp hmem
    by_cases hin : i = t.next
    case pos =>
      rw [hin, hsift₁.above _ hpn, Timers.swap, setSlot_self] at hsi
      have hns := congrArg TimerEvent.ns (Option.some.inj hsi)
      dsimp only at hns hmove
      omega
    case neg =>
      have hids := hsift.ids i
      rw [hsi, put_other hi hin] at hids
      cases hti : t.slots i
      case none => exact hq.there i hi hti
      case some e =>
        rw [hti] at hids
        have he : e.id = id := (Option.some.inj hids).symm
        by_cases he0 : e.ns = 0
        case pos =>
          have hfree : ¬(put ns id call t).Taken i := by
            rw [taken_congr (put_other hi hin), taken_iff, time_of_slots hti]
            exact not_not.mpr he0
          rw [hsift.free i hfree, put_other hi hin, hti] at hsi
          exact h0 ((congrArg TimerEvent.ns (Option.some.inj hsi)).symm.trans he0)
        case neg => exact hid e (mem_events.mpr ⟨i, hi, hti, he0⟩) he

-- It is enough that the event stays where it is put, and for an id that is new it is also necessary.
theorem addTimerEvent_inserts_iff (hq : Queue.Next t) (h0 : 1 ≤ ns) :
    (Stays ns t → Inserts ns id call t) ∧
      ((∀ e ∈ t.events, e.id ≠ id) → Inserts ns id call t → Stays ns t) :=
  ⟨Stays.inserts hq (Nat.ne_of_gt h0), Inserts.stays hq (Nat.ne_of_gt h0)⟩

end Insert

section Resort

-- The queue when the root's event is over.
structure Cleared (t : Timers) : Prop extends Queue t where
  root : ¬t.Taken 0

-- The removal as it should be: the events are those that are left, with the first of them at the root.
def Restores (t : Timers) : Prop :=
  ∃ fuel t', resortTree fuel t.own = .ok t' ∧ t'.MinHeap ∧ t'.events.Perm t.events ∧
    (∀ i < qsize, t'.Taken i → t'.Taken 0 ∧ t'.time 0 ≤ t'.time i) ∧
      t'.next < qsize ∧ ¬t'.Taken t'.next

theorem timerLeftEntry_eq (hi : idx < qsize) : timerLeftEntry idx = 2 * idx + 1 :=
  u32_of_lt (by simp only [qsize] at hi; omega)

theorem timerRightEntry_eq (hi : idx < qsize) : timerRightEntry idx = 2 * idx + 2 :=
  u32_of_lt (by simp only [qsize] at hi; omega)

-- Every round goes down one level, and the last one reads below the lowest.
theorem pullUp_fault (hin : ∀ i < qsize, t.slots i ≠ none) (hout : ∀ i, qsize ≤ i → t.slots i = none)
    (hi : idx < qsize) (hd : qsize < 2 ^ n * (idx + 1)) : pullUp n idx l t = .error .fault := by
  induction n generalizing idx l t
  case zero => omega
  case succ n hind =>
    rw [pullUp, timerLeftEntry_eq hi, timerRightEntry_eq hi]
    rcases Nat.lt_or_ge (2 * idx + 1) qsize with hl | hl
    case inr => simp [slot, hout _ hl, bind, Except.bind]
    rcases Nat.lt_or_ge (2 * idx + 2) qsize with hr | hr
    case inr =>
      obtain ⟨left, hleft⟩ := Option.ne_none_iff_exists'.mp (hin _ hl)
      simp [slot, hleft, hout _ hr, bind, Except.bind]
    obtain ⟨left, hleft⟩ := Option.ne_none_iff_exists'.mp (hin _ hl)
    obtain ⟨right, hright⟩ := Option.ne_none_iff_exists'.mp (hin _ hr)
    obtain ⟨e, he⟩ := Option.ne_none_iff_exists'.mp (hin _ hi)
    have hdeep (p : Nat) (hp : idx + 1 + (idx + 1) ≤ p + 1) : qsize < 2 ^ n * (p + 1) := by
      calc qsize < 2 ^ (n + 1) * (idx + 1)       := hd
        _ = 2 ^ n * (idx + 1 + (idx + 1))        := by rw [Nat.pow_succ, Nat.mul_assoc, Nat.two_mul]
        _ ≤ 2 ^ n * (p + 1)                      := Nat.mul_le_mul_left _ hp
    have hin' (q : TimerEvent) (i : Nat) (h : i < qsize) : (t.setSlot idx q).slots i ≠ none := by
      by_cases hii : i = idx
      case pos => simp [hii]
      case neg => simpa [setSlot_of_ne hii] using hin i h
    have hout' (q : TimerEvent) (i : Nat) (h : qsize ≤ i) : (t.setSlot idx q).slots i = none := by
      rw [setSlot_of_ne (by omega)]
      exact hout i h
    by_cases hge : left.ns ≥ right.ns
    case pos =>
      simp only [slot, hleft, hright, he, if_pos hge, bind, Except.bind]
      exact hind (hin' _) (hout' _) hl (hdeep _ (by omega))
    case neg =>
      simp only [slot, hleft, hright, he, if_neg hge, bind, Except.bind]
      exact hind (hin' _) (hout' _) hr (hdeep _ (by omega))

-- The function does not return, and it leaves the queue.
theorem resortTree_never_restores (hc : Cleared t) :
    ¬Restores t ∧ ∃ fuel, resortTree fuel t.own = .error .fault := by
  obtain ⟨e, he⟩ := Option.ne_none_iff_exists'.mp (hc.there 0 (by decide))
  have hs : t.own.slots 0 = some e := (own_slots (by decide)).trans he
  have h0 : e.ns = 0 := by
    by_contra hne
    exact hc.root ⟨e, he, hne⟩
  constructor
  case left =>
    rintro ⟨fuel, t', h, _⟩
    exact resortTree_never hs h0 h
  case right =>
    refine ⟨7, ?_⟩
    have hp : pullUp 7 0 t.own.next t.own = .error .fault := by
      apply pullUp_fault _ (fun i hi => own_none hi) (by decide) (by decide)
      intro i hi
      rw [own_slots hi]
      exact hc.there i hi
    simp [resortTree, slot, hs, h0, hp, bind, Except.bind]

end Resort

section Examples

-- The times of the first slots. All other slots are free.
def queueOf (times : List Nat) : Timers where
  queue   := 0x1000
  slots i := some { ns := times.getD i 0, id := i, callback := 0x2000 }
  next    := times.length
  calls   := []
  sets    := []

theorem queueOf_taken {times : List Nat} : (queueOf times).Taken i ↔ times.getD i 0 ≠ 0 := by
  simp [Taken, queueOf]

theorem queueOf_queue {times : List Nat}
    (h : ∀ i < times.length, times.getD i 0 ≠ 0 → times.getD ((i - 1) / 2) 0 ≤ times.getD i 0) :
    Queue (queueOf times) where
  there _ _      := nofun
  heap i _ _ ht := by
    have hne := queueOf_taken.mp ht
    have hi : i < times.length := by
      by_contra hn
      exact hne (List.getD_eq_default _ _ (Nat.not_lt.mp hn))
    exact h i hi hne

theorem queueOf_next {times : List Nat} (hl : times.length < qsize) (h0 : ∀ x ∈ times, x ≠ 0)
    (h : ∀ i < times.length, times.getD i 0 ≠ 0 → times.getD ((i - 1) / 2) 0 ≤ times.getD i 0) :
    Queue.Next (queueOf times) where
  toQueue    := queueOf_queue h
  lt         := hl
  taken i hi := queueOf_taken.mpr (by
    rw [List.getD_eq_getElem _ _ hi]
    exact h0 _ (List.getElem_mem hi))
  free ht    := queueOf_taken.mp ht (List.getD_eq_default _ _ (Nat.le_refl _))

-- A third event that is the last of all.
theorem addTimerEvent_inserts_last : Inserts 7 9 0x3000 (queueOf [3, 5]) := by
  refine (addTimerEvent_inserts_iff (queueOf_next (by decide) (by decide) (by decide)) (by decide)).1 ?_
  refine ⟨Nat.le_refl _, by decide, by decide, fun c _ hp ht => ?_, 3, by decide, by decide, by simp [queueOf_taken]⟩
  have hc : 2 ≤ c := by
    have : (c - 1) / 2 = 2 := hp
    omega
  exact absurd (List.getD_eq_default _ _ hc) (queueOf_taken.mp ht)

-- The first event into an empty queue: it is compared with the parent of the root.
theorem first_event_outside : ¬∀ (t : Timers) (ns id call : Nat), Queue.Next t → 1 ≤ ns →
    Inserts ns id call t := by
  intro h
  have hq : Queue.Next (queueOf []) := queueOf_next (by decide) (by decide) (by decide)
  have hnone (e : TimerEvent) : e ∉ (queueOf []).events := by
    intro he
    obtain ⟨i, _, hs, hne⟩ := mem_events.mp he
    exact queueOf_taken.mp ⟨e, hs, hne⟩ rfl
  have hstays := (h _ 5 7 0x3000 hq (by decide)).stays hq (by decide) fun e he => absurd he (hnone e)
  exact absurd hstays.two (by decide)

theorem resortTree_outside_two : ¬Restores (queueOf [0, 5]) ∧
    ∃ fuel, resortTree fuel (queueOf [0, 5]).own = .error .fault :=
  resortTree_never_restores ⟨queueOf_queue (by decide), by simp [queueOf_taken]⟩

-- One event is left, and it never gets to the root.
theorem resortTree_not_restored : ¬∀ t, Cleared t → Restores t := by
  intro h
  obtain ⟨fuel, t', hr, _⟩ := h (queueOf [0, 5]) ⟨queueOf_queue (by decide), by simp [queueOf_taken]⟩
  exact resortTree_never (e := { ns := 0, id := 0, callback := 0x2000 }) rfl rfl hr

end Examples

end RoverOS.Timers
