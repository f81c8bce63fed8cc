import RoverOS.Kcache.Theorems.Buffers
import RoverOS.Pmm.Theorems.Fill

-- The words of a slab's bitmap that are read and written, against the ones that it was given.

namespace RoverOS.Kcache

open Pmm (intBit fillWord fillWords)

-- The words that the loop over the buffers reads. What is behind the end of the bitmap is not known, so
-- it is followed up to there.
def findBufferReads (bitmap : List Word) (checked b : Nat) : Nat → List Nat
  | 0     => []
  | n + 1 =>
    let i := checked / 64
    let b := if b = 64 then 0 else b
    i :: match bitmap[i]? with
      | none   => []
      | some w => if w &&& intBit b ≠ 0#64 then findBufferReads bitmap (checked + 1) (b + 1) n else []

-- The words that `allocateBuffer` reads, and the one that it writes.
def wordAccesses (slab : Kslab) : List Nat :=
  if slab.bufferCount = slab.references then []
  else
    findBufferReads slab.bitmap 0 0 slab.bufferCount ++
      match findBuffer slab.bitmap 0 0 slab.bufferCount with
      | .ok (some (i, _)) => [i]
      | _                 => []

-- The calls of `allocateBuffer` for one slab.
inductive BufferStep (objSize : Nat) : Kslab → Unit → Kslab → Prop
  | allocate {slab slab' : Kslab} {ptr : Option Nat} :
    allocateBuffer objSize slab = .ok (ptr, slab') → BufferStep objSize slab () slab'

-- In every state of a new slab, the words are those of its bitmap.
def StaysInWords (objSize : Nat) (new : Kslab) : Prop :=
  ∀ slab, Run.Steps (BufferStep objSize) (fun _ _ => True) new slab →
    ∀ i ∈ wordAccesses slab, i < new.bitmap.length

variable {slab slab' : Kslab} {bitmap : List Word} {cache : Kcache}
variable {i b k n t checked objSize virt phys slabsz : Nat}

section Reads

theorem mem_findBufferReads (hb : (if b = 64 then 0 else b) = checked % 64)
    (h : i ∈ findBufferReads bitmap checked b n) : ∃ k, checked ≤ k ∧ k < checked + n ∧ i = k / 64 := by
  induction n generalizing checked b
  case zero => cases h
  case succ n hi =>
    rw [findBufferReads, hb] at h
    rcases List.mem_cons.mp h with rfl | h
    · exact ⟨checked, Nat.le_refl _, by omega, rfl⟩
    · split at h
      case h_1 => cases h
      case h_2 =>
        split at h
        case isFalse => cases h
        case isTrue =>
          obtain ⟨k, hl, hu, he⟩ := hi (by split <;> omega) h
          exact ⟨k, by omega, by omega, he⟩

-- The word of a buffer is read when all the buffers before it are taken.
theorem findBufferReads_of_taken (hb : (if b = 64 then 0 else b) = checked % 64) (hl : checked ≤ k)
    (hu : k < checked + n) (ht : ∀ j, checked ≤ j → j < k → Taken bitmap j) :
    k / 64 ∈ findBufferReads bitmap checked b n := by
  induction n generalizing checked b
  case zero => omega
  case succ n hi =>
    rw [findBufferReads, hb]
    rcases Nat.eq_or_lt_of_le hl with rfl | hlt
    · exact List.mem_cons_self
    · obtain ⟨w, hw, hm⟩ := ht checked (Nat.le_refl _) hlt
      refine List.mem_cons_of_mem _ ?_
      simp only [hw, if_pos hm]
      exact hi (by split <;> omega) hlt (by omega) fun j hj => ht j (by omega)

-- The model stops at a read that is not in the bitmap, and at no other.
theorem findBuffer_fault_iff : findBuffer bitmap checked b n = .error .fault ↔
    ∃ i ∈ findBufferReads bitmap checked b n, bitmap.length ≤ i := by
  induction n generalizing checked b
  case zero => simp [findBuffer, findBufferReads]
  case succ n hi =>
    rw [findBuffer, findBufferReads]
    generalize (if b = 64 then 0 else b) = c
    cases hw : bitmap[checked / 64]?
    case none => simp [List.getElem?_eq_none_iff.mp hw]
    case some w =>
      obtain ⟨hlt, -⟩ := List.getElem?_eq_some_iff.mp hw
      dsimp only
      split
      case isTrue  => simp [hi, Nat.not_le.mpr hlt]
      case isFalse => simp [Nat.not_le.mpr hlt]

theorem wordAccesses_lt (h : i ∈ wordAccesses slab) : ∃ k < slab.bufferCount, i = k / 64 := by
  rw [wordAccesses] at h
  split at h
  case isTrue => cases h
  case isFalse =>
    rcases List.mem_append.mp h with h | h
    · obtain ⟨k, _, hu, he⟩ := mem_findBufferReads rfl h
      exact ⟨k, by omega, he⟩
    · have hf : Finds slab.bitmap 0 slab.bufferCount (findBuffer slab.bitmap 0 0 slab.bufferCount) :=
        findBuffer_finds rfl
      generalize findBuffer slab.bitmap 0 0 slab.bufferCount = r at h hf
      cases hf
      case full    => cases h
      case outside => cases h
      case free k _ hu _ _ _ => exact ⟨k, by omega, List.mem_singleton.mp h⟩

end Reads

section Fill

-- A slab that has given away `t` buffers, each the first whose bit is clear.
structure FilledTo (new slab : Kslab) (t : Nat) : Prop where
  lock        : slab.lock = false
  bufferCount : slab.bufferCount = new.bufferCount
  references  : slab.references = u16 t
  bitmap      : slab.bitmap = fillWords new.bitmap.length t

theorem taken_fillWords : Taken (fillWords n t) k ↔ k / 64 < n ∧ k % 32 < t - 32 * (k / 64) := by
  have hmod : k % 64 % 32 = k % 32 := Nat.mod_mod_of_dvd k (by decide)
  rw [Taken, Pmm.getElem?_fillWords, ← hmod]
  by_cases hk : k / 64 < n
  case pos => simp [hk, Pmm.fillWord_and_intBit]
  case neg => simp [hk]

-- The first buffer that is not taken.
theorem first_fillWords (ht : t < 32 * n) : ¬Taken (fillWords n t) (64 * (t / 32) + t % 32) ∧
    ∀ j < 64 * (t / 32) + t % 32, Taken (fillWords n t) j := by
  constructor
  case left =>
    rw [taken_fillWords]
    omega
  case right =>
    intro j hj
    rw [taken_fillWords]
    omega

variable {new : Kslab}

theorem FilledTo.not_full (h : FilledTo new slab t) (ht : t ≤ 32 * new.bitmap.length)
    (hc : 64 * new.bitmap.length < new.bufferCount) : slab.bufferCount ≠ slab.references := by
  have hle : u16 t ≤ t := Nat.mod_le t _
  rw [h.bufferCount, h.references]
  omega

theorem FilledTo.allocate (h : FilledTo new slab t) (ht : t < 32 * new.bitmap.length)
    (hc : 64 * new.bitmap.length < new.bufferCount) :
    ∃ slab', BufferStep objSize slab () slab' ∧ FilledTo new slab' (t + 1) := by
  have hne := h.not_full (Nat.le_of_lt ht) hc
  have ha := @allocateBuffer_allocates _ objSize h.lock fun he => absurd he hne
  obtain ⟨hfirst, hbefore⟩ := first_fillWords ht
  rw [← h.bitmap] at hfirst hbefore
  have hfree : Free slab (64 * (t / 32) + t % 32) := by
    refine ⟨?_, hfirst⟩
    rw [h.bufferCount]
    omega
  have hlen : slab.bitmap.length = new.bitmap.length := by rw [h.bitmap, Pmm.length_fillWords]
  generalize hr : allocateBuffer objSize slab = r at ha
  cases ha
  case full hn => exact absurd hfree (hn _)
  case outside k hk hi hb => exact absurd (hb _ (by omega)) hfirst
  case free k hf hi hb =>
    have hk : k = 64 * (t / 32) + t % 32 := by
      rcases Nat.lt_trichotomy k (64 * (t / 32) + t % 32) with hlt | he | hlt
      · exact absurd (hbefore k hlt) hf.right
      · exact he
      · exact absurd (hb _ hlt) hfirst
    have hword : k / 64 = t / 32 := by omega
    have hbit : k % 64 = t % 32 := by omega
    refine ⟨_, .allocate hr, h.lock, h.bufferCount, ?_, ?_⟩
    · change u16 (slab.references + 1) = u16 (t + 1)
      rw [h.references]
      unfold u16
      omega
    · dsimp only
      rw [hword, hbit, h.bitmap, Pmm.fillWords_succ]

-- All words of the bitmap are full after 32 calls for each.
theorem exists_filledTo (hf : FilledTo new new 0) (ht : t ≤ 32 * new.bitmap.length)
    (hc : 64 * new.bitmap.length < new.bufferCount) :
    ∃ slab, Run.Steps (BufferStep objSize) (fun _ _ => True) new slab ∧ FilledTo new slab t := by
  induction t
  case zero => exact ⟨new, .refl _, hf⟩
  case succ t hi =>
    obtain ⟨slab, run, h⟩ := hi (Nat.le_of_succ_le ht)
    obtain ⟨slab', hs, h'⟩ := h.allocate ht hc
    exact ⟨slab', .step run trivial hs, h'⟩

-- The next call then reads the word behind the bitmap.
theorem FilledTo.reads_outside (h : FilledTo new slab (32 * new.bitmap.length))
    (hc : 64 * new.bitmap.length < new.bufferCount) : new.bitmap.length ∈ wordAccesses slab := by
  have hread : 64 * new.bitmap.length / 64 ∈ findBufferReads slab.bitmap 0 0 slab.bufferCount := by
    refine findBufferReads_of_taken rfl (Nat.zero_le _) (by rw [h.bufferCount]; omega) fun j _ hj => ?_
    rw [h.bitmap, taken_fillWords]
    omega
  rw [Nat.mul_div_cancel_left _ (by decide)] at hread
  rw [wordAccesses, if_neg (h.not_full (Nat.le_refl _) hc)]
  exact List.mem_append_left _ hread

end Fill

section Slab

theorem filledTo_carveSlab : FilledTo (cache.carveSlab virt phys slabsz) (cache.carveSlab virt phys slabsz) 0 where
  lock        := rfl
  bufferCount := rfl
  references  := rfl
  bitmap      := by
    rw [Pmm.fillWords_zero, carveSlab]
    simp

theorem length_carveSlab : (cache.carveSlab virt phys slabsz).bitmap.length =
    if u32 (slabsz / cache.objSize) / 64 = 0 then 1 else u32 (slabsz / cache.objSize) / 64 := by
  simp [carveSlab]

theorem allocateBuffer_bufferCount {ptr : Option Nat} (h : allocateBuffer objSize slab = .ok (ptr, slab')) :
    slab'.bufferCount = slab.bufferCount := by
  obtain ⟨_, _, h⟩ := Except.bind_ok_iff.mp h
  split at h
  case isTrue =>
    cases h
    rfl
  case isFalse =>
    obtain ⟨found, _, h⟩ := Except.bind_ok_iff.mp h
    rcases found with _ | ⟨i, b⟩ <;> cases h <;> rfl

theorem bufferCount_of_steps (run : Run.Steps (BufferStep objSize) (fun _ _ => True) slab slab') :
    slab'.bufferCount = slab.bufferCount := by
  refine run.invariant (I := fun t => t.bufferCount = slab.bufferCount) rfl fun hi _ hs => ?_
  cases hs
  case allocate h => exact (allocateBuffer_bufferCount h).trans hi

-- The bitmap has a bit for every buffer exactly when there are fewer than 64 of them, or a multiple of 64.
theorem allocateBuffer_words_iff : StaysInWords cache.objSize (cache.carveSlab virt phys slabsz) ↔
    u32 (slabsz / cache.objSize) < 64 ∨ u32 (slabsz / cache.objSize) % 64 = 0 := by
  have hlen := @length_carveSlab cache virt phys slabsz
  have hcount : (cache.carveSlab virt phys slabsz).bufferCount = u32 (slabsz / cache.objSize) := rfl
  constructor
  case mp =>
    intro h
    by_contra hn
    have hc : 64 * (cache.carveSlab virt phys slabsz).bitmap.length <
        (cache.carveSlab virt phys slabsz).bufferCount := by
      rw [hlen, hcount, if_neg (by omega)]
      omega
    obtain ⟨slab, run, hf⟩ := exists_filledTo filledTo_carveSlab (Nat.le_refl _) hc
    exact absurd (h slab run _ (hf.reads_outside hc)) (Nat.lt_irrefl _)
  case mpr =>
    intro h slab run i hi
    obtain ⟨k, hk, rfl⟩ := wordAccesses_lt hi
    rw [bufferCount_of_steps run, hcount] at hk
    rw [hlen]
    split <;> omega

-- A page of 102 buffers has a bitmap of one word.
theorem allocateBuffer_outside : ¬∀ (cache : Kcache) (virt phys slabsz : Nat), 1 ≤ cache.objSize →
    StaysInWords cache.objSize (cache.carveSlab virt phys slabsz) := by
  intro h
  have hc : 64 * ((fillCacheDetails 40 0 0).carveSlab 0x200000 0x100000 0x1000).bitmap.length <
      ((fillCacheDetails 40 0 0).carveSlab 0x200000 0x100000 0x1000).bufferCount := by decide
  obtain ⟨slab, run, hf⟩ := exists_filledTo filledTo_carveSlab (Nat.le_refl _) hc
  have hlt := h (fillCacheDetails 40 0 0) 0x200000 0x100000 0x1000 (by decide) slab run _ (hf.reads_outside hc)
  exact Nat.lt_irrefl _ hlt

end Slab

end RoverOS.Kcache
