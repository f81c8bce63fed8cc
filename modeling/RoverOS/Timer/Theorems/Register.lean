import RoverOS.Timer.Basic

-- Which timer is left after all have been registered.

namespace RoverOS.Timers

variable {timer : TimerInfo} {regs : List TimerInfo}

-- One call of `registerTimer` for each timer.
def registerAll (regs : List TimerInfo) (timer : TimerInfo) : TimerInfo :=
  regs.foldl (fun timer r => registerTimer r.type r.set timer) timer

-- One of the timers, and none has a smaller type.
structure Best (regs : List TimerInfo) (timer : TimerInfo) : Prop where
  mem   : timer ∈ regs
  least : ∀ r ∈ regs, timer.type ≤ r.type

theorem registerAll_cons {r : TimerInfo} :
    registerAll (r :: regs) timer = registerAll regs (registerTimer r.type r.set timer) := rfl

theorem registerTimer_le (r timer : TimerInfo) : (registerTimer r.type r.set timer).type ≤ timer.type ∧
    (registerTimer r.type r.set timer).type ≤ r.type := by
  rw [registerTimer]
  split
  case isTrue h  => exact ⟨UInt8.le_refl _, UInt8.le_of_lt h⟩
  case isFalse h => exact ⟨UInt8.not_lt.mp h, UInt8.le_refl _⟩

theorem registerTimer_eq (r timer : TimerInfo) :
    registerTimer r.type r.set timer = timer ∨ registerTimer r.type r.set timer = r := by
  rw [registerTimer]
  split
  case isTrue  => exact .inl rfl
  case isFalse => exact .inr rfl

-- The timer that was there before counts like the ones that are registered.
theorem registerAll_best : Best (timer :: regs) (registerAll regs timer) := by
  induction regs generalizing timer
  case nil =>
    refine ⟨List.mem_singleton_self timer, fun r hr => ?_⟩
    cases List.mem_singleton.mp hr
    exact UInt8.le_refl _
  case cons r regs hi =>
    have hbest := @hi (registerTimer r.type r.set timer)
    have hfirst := hbest.least _ List.mem_cons_self
    obtain ⟨htimer, hr⟩ := registerTimer_le r timer
    rw [registerAll_cons]
    constructor
    case mem =>
      rcases List.mem_cons.mp hbest.mem with he | hm
      · rw [he]
        rcases registerTimer_eq r timer with h | h
        · simp [h]
        · simp [h]
      · simp [hm]
    case least =>
      intro q hq
      rcases List.mem_cons.mp hq with rfl | hq
      · exact UInt8.le_trans hfirst htimer
      · rcases List.mem_cons.mp hq with rfl | hq
        · exact UInt8.le_trans hfirst hr
        · exact hbest.least q (List.mem_cons_of_mem _ hq)

-- As soon as one of them is as good as the timer that was there before, that one is gone.
theorem registerAll_mem (h : ∃ r ∈ regs, r.type ≤ timer.type) : registerAll regs timer ∈ regs := by
  induction regs generalizing timer
  case nil =>
    obtain ⟨r, hr, _⟩ := h
    cases hr
  case cons r regs hi =>
    obtain ⟨q, hq, hle⟩ := h
    rw [registerAll_cons, registerTimer]
    split
    case isTrue hlt =>
      rcases List.mem_cons.mp hq with rfl | hq
      · exact absurd hle (UInt8.not_le.mpr hlt)
      · exact List.mem_cons_of_mem _ (hi ⟨q, hq, hle⟩)
    case isFalse => exact registerAll_best.mem

-- The timer that is there before the first call has the best type of all.
theorem registerAll_best_iff :
    Best regs (registerAll regs timerInit) ↔ ∃ r ∈ regs, r.type = 0 := by
  have hall : Best (timerInit :: regs) (registerAll regs timerInit) := registerAll_best
  have hzero : (registerAll regs timerInit).type ≤ 0 := hall.least timerInit List.mem_cons_self
  constructor
  case mp =>
    intro h
    exact ⟨_, h.mem, UInt8.le_antisymm hzero (UInt8.zero_le)⟩
  case mpr =>
    rintro ⟨r, hr, h0⟩
    exact ⟨registerAll_mem ⟨r, hr, h0 ▸ UInt8.le_refl _⟩,
      fun q hq => hall.least q (List.mem_cons_of_mem _ hq)⟩

-- The HPET is the only timer, and it is not taken.
theorem hpet_not_taken : ¬∀ regs, regs ≠ [] → Best regs (registerAll regs timerInit) := by
  intro h
  have hm := (h [⟨2, 0x8000⟩] (by simp)).mem
  exact absurd (congrArg TimerInfo.type (List.mem_singleton.mp hm)) (by decide)

end RoverOS.Timers
