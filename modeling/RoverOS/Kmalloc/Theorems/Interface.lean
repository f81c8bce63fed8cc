import RoverOS.Kmalloc.Interface

-- What the heap does to the blocks of others.

open Function (update update_of_ne update_self)

namespace RoverOS.Kmalloc

-- The memory that was in use is unchanged, and so are the sizes of the blocks in `P`.
structure Kept (P : Ptr → Prop) (h h' : Heap) : Prop where
  next   : h.next ≤ h'.next
  mem    : ∀ {p}, p < h.next → h'.mem p = h.mem p
  blocks : ∀ {p}, p < h.next → P p → h'.blocks p = h.blocks p

-- `memcpy(dest,src,sz)` writes the bytes of `src` to a block of `sz` bytes and leaves its redzone alone.
def Copies (memcpy : Memcpy) (dest src : Bytes) (sz : Nat) : Prop :=
  ∀ i < sz + 8, memcpy dest src sz i = if i < sz then src i else dest i

-- The `memcpy` that callers mean.
def copyBytes : Memcpy :=
  fun dest src sz i => if i < sz then src i else dest i

theorem copyBytes_copies (dest src : Bytes) (sz : Nat) : Copies copyBytes dest src sz :=
  fun _ _ => rfl

variable {h h' : Heap} {P : Ptr → Prop} {p : Ptr} {sz : Nat} {b : Bytes} {memcpy : Memcpy}

theorem Kept.refl (h : Heap) : Kept P h h :=
  ⟨Nat.le_refl _, fun _ => rfl, fun _ _ => rfl⟩

theorem intact_setRedzone : Intact (setRedzone b sz) sz := by
  intro i hi
  simp [setRedzone, hi]

theorem Copies.intact {dest src : Bytes} (hc : Copies memcpy dest src sz) (hi : Intact dest sz) :
    Intact (memcpy dest src sz) sz := by
  intro i hlt
  rw [hc _ (by omega), if_neg (by omega), hi i hlt]

def Heap.grow (h : Heap) (sz : Nat) : Heap :=
  { h with
    mem    := update h.mem h.next (setRedzone (h.mem h.next) sz)
    blocks := update h.blocks h.next (some sz)
    next   := h.next + 1 }

theorem kmalloc_ok (hl : h.lock = false) (h0 : 0 < sz) (hs : sz < maxRequest) :
    kmalloc sz h = .ok (some h.next, h.grow sz) := by
  rw [kmalloc, getLock_of_free hl, if_neg (by omega), if_neg (by omega)]
  rfl

theorem kmalloc_some (hk : kmalloc sz h = .ok (some p, h')) : p = h.next ∧ h' = h.grow sz := by
  obtain ⟨_, hl, hk⟩ := Except.bind_ok_iff.mp hk
  split at hk
  case isTrue => cases hk
  case isFalse hz =>
    split at hk <;> cases hk
    exact ⟨rfl, rfl⟩

theorem Heap.kept_grow : Kept P h (h.grow sz) where
  next          := Nat.le_succ _
  mem hp        := update_of_ne (Nat.ne_of_lt hp) _ _
  blocks hp _   := update_of_ne (Nat.ne_of_lt hp) _ _

theorem checkBlock_ok (hb : h.blocks p = some sz) (hi : Intact (h.mem p) sz) :
    checkBlock h (some p) = .ok (p, sz) := by
  simp [checkBlock, hb, hi]

theorem kfree_ok (hl : h.lock = false) (hb : h.blocks p = some sz) (hi : Intact (h.mem p) sz) :
    kfree (some p) h = .ok { h with blocks := update h.blocks p none } := by
  rw [kfree, getLock_of_free hl, checkBlock_ok hb hi]
  rfl

theorem kept_free : Kept (· ≠ p) h { h with blocks := update h.blocks p none } where
  next          := Nat.le_refl _
  mem _         := rfl
  blocks _ hne  := update_of_ne hne _ _

-- The lock stays held.
theorem krealloc_same (hl : h.lock = false) (hb : h.blocks p = some sz) (hi : Intact (h.mem p) sz) :
    krealloc memcpy (some p) sz h = .ok (some p, { h with lock := true }) := by
  rw [krealloc, getLock_of_free hl, checkBlock_ok hb hi]
  simp only [bind, Except.bind, if_pos]
  rfl

end RoverOS.Kmalloc
