import RoverOS.Lienzo.Basic

-- The pixels that drawing a window writes, and when they are the window's.

namespace RoverOS.Lienzo

variable {display : Display} {win : Window} {buff c : Canvas} {p left x i k n : Nat}

-- The indices that row `i` is written at, in the order of the loop.
def rowWrites (display : Display) (win : Window) (i : Nat) : List Nat :=
  (List.range (display.xSz.toNat - win.relX.toNat)).map fun k =>
    u64 (LIENZO_BUFFER_OFFSET display.xSz.toNat (i + win.relY.toNat) win.relX.toNat bpp + (win.relX.toNat + k))

def writes (display : Display) (win : Window) : List Nat :=
  (List.range (min win.ySz.toNat (display.ySz.toNat + 1))).flatMap (rowWrites display win)

-- The buffer with the pixels of `is` drawn.
def Canvas.paint (buff : Canvas) (is : List Nat) : Canvas :=
  ⟨is.foldl (fun pixels i => pixels.set i 0xFF00FF) buff.pixels, buff.written ++ is⟩

theorem storeAll_ok_iff {is : List Nat} :
    is.foldlM Canvas.store buff = .ok c ↔ (∀ i ∈ is, i < buff.pixels.length) ∧ c = buff.paint is := by
  induction is generalizing buff
  case nil => simp [Canvas.paint, eq_comm, pure, Except.pure]
  case cons i is hi =>
    rw [List.foldlM_cons, Except.bind_ok_iff]
    by_cases hb : i < buff.pixels.length
    case neg => simp [Canvas.store, hb]
    case pos =>
      rw [Canvas.store, if_pos hb, List.forall_mem_cons, and_iff_right hb]
      simp [hi, Canvas.paint]

theorem drawPixels_eq : drawPixels p left x buff =
    ((List.range left).map fun k => u64 (p + (x + k))).foldlM Canvas.store buff := by
  induction left generalizing x buff
  case zero => rfl
  case succ left hi =>
    rw [drawPixels, List.range_succ_eq_map, List.map_cons, List.foldlM_cons, List.map_map]
    refine congrArg _ (funext fun buff => ?_)
    rw [hi]
    simp only [Function.comp_def, Nat.succ_eq_add_one, Nat.add_comm 1, Nat.add_assoc]

theorem drawRow_eq : drawRow buff (i + win.relY.toNat) win.relX.toNat display.xSz.toNat =
    (rowWrites display win i).foldlM Canvas.store buff :=
  drawPixels_eq

-- The loop leaves early at the first row behind the screen's last one, which is one row too late.
theorem drawRows_eq : drawRows display win left i buff =
    ((List.range (min left (display.ySz.toNat + 1 - i))).flatMap fun j => rowWrites display win (i + j)).foldlM
      Canvas.store buff := by
  induction left generalizing i buff
  case zero => simp [drawRows, pure, Except.pure]
  case succ left hi =>
    rw [drawRows]
    split
    case isTrue h =>
      have hz : display.ySz.toNat + 1 - i = 0 := by omega
      simp [hz, pure, Except.pure]
    case isFalse h =>
      have hs : min (left + 1) (display.ySz.toNat + 1 - i) = min left (display.ySz.toNat + 1 - (i + 1)) + 1 := by omega
      rw [hs, List.range_succ_eq_map, List.flatMap_cons, List.foldlM_append, drawRow_eq, List.flatMap_map]
      refine congrArg _ (funext fun buff => ?_)
      rw [hi]
      simp only [Nat.succ_eq_add_one, Nat.add_comm 1, Nat.add_assoc]

theorem drawLienzoWindow_eq :
    drawLienzoWindow display win = (writes display win).foldlM Canvas.store ⟨display.dbuffer, []⟩ := by
  rw [drawLienzoWindow, drawRows_eq, writes, Nat.sub_zero]
  simp only [Nat.zero_add]

-- The window's part of the screen.
def rectangle (display : Display) (win : Window) : Set Nat :=
  { k | ∃ x y, win.relX.toNat ≤ x ∧ x < min (win.relX.toNat + win.xSz.toNat) display.xSz.toNat ∧
    win.relY.toNat ≤ y ∧ y < min (win.relY.toNat + win.ySz.toNat) display.ySz.toNat ∧
    k = y * display.xSz.toNat + x }

-- What drawing a window should do: it ends without leaving the buffer, and writes the window's part.
def Draws (display : Display) (win : Window) : Prop :=
  ∃ buff, drawLienzoWindow display win = .ok buff ∧ ∀ k, k ∈ buff.written ↔ k ∈ rectangle display win

-- The index that the loops compute, before it is a `uint64_t`.
def index (display : Display) (win : Window) (i x : Nat) : Nat :=
  4 * (win.relY.toNat * display.xSz.toNat + win.relX.toNat + i * display.xSz.toNat) + x

theorem u64_offset : u64 (LIENZO_BUFFER_OFFSET display.xSz.toNat (i + win.relY.toNat) win.relX.toNat bpp + x) =
    u64 (index display win i x) := by
  rw [LIENZO_BUFFER_OFFSET, u64, u64, u64, Nat.mod_add_mod, index, bpp]
  congr 1
  ring

theorem mem_writes : k ∈ writes display win ↔ ∃ i x, i < win.ySz.toNat ∧ i ≤ display.ySz.toNat ∧
    win.relX.toNat ≤ x ∧ x < display.xSz.toNat ∧ k = u64 (index display win i x) := by
  simp only [writes, rowWrites, List.mem_flatMap, List.mem_map, List.mem_range, u64_offset]
  constructor
  case mp =>
    rintro ⟨i, hi, n, hn, rfl⟩
    exact ⟨i, win.relX.toNat + n, by omega, by omega, by omega, by omega, rfl⟩
  case mpr =>
    rintro ⟨i, x, hi, hi', hx, hx', rfl⟩
    exact ⟨i, by omega, x - win.relX.toNat, by omega, by rw [Nat.add_sub_cancel' hx]⟩

theorem pixel_lt {x y : Nat} (hx : x < display.xSz.toNat) (hy : y < display.ySz.toNat) :
    y * display.xSz.toNat + x < display.dbuffer.length :=
  calc y * display.xSz.toNat + x
    _ < y * display.xSz.toNat + display.xSz.toNat := Nat.add_lt_add_left hx _
    _ = (y + 1) * display.xSz.toNat := (Nat.succ_mul _ _).symm
    _ ≤ display.ySz.toNat * display.xSz.toNat := Nat.mul_le_mul_right _ hy
    _ = display.xSz.toNat * display.ySz.toNat := Nat.mul_comm _ _
    _ ≤ display.dbuffer.length := display.holds

theorem lt_of_mem_rectangle (h : k ∈ rectangle display win) : k < display.dbuffer.length := by
  obtain ⟨x, y, -, hx, -, hy, rfl⟩ := h
  exact pixel_lt (by omega) (by omega)

-- The window's part of the screen is inside of the buffer, so that only the indices matter.
theorem draws_iff : Draws display win ↔ ∀ k, k ∈ writes display win ↔ k ∈ rectangle display win := by
  simp only [Draws, drawLienzoWindow_eq, storeAll_ok_iff]
  constructor
  case mp =>
    rintro ⟨_, ⟨-, rfl⟩, h⟩
    simpa [Canvas.paint] using h
  case mpr =>
    intro h
    exact ⟨_, ⟨fun k hk => lt_of_mem_rectangle ((h k).mp hk), rfl⟩, by simpa [Canvas.paint] using h⟩

section Exact

variable (h : ∀ k, k ∈ writes display win ↔ k ∈ rectangle display win)
  (hh : 0 < win.ySz.toNat) (hx : win.relX.toNat < display.xSz.toNat)

include h hh hx

theorem first_mem : u64 (index display win 0 win.relX.toNat) ∈ rectangle display win :=
  (h _).mp (mem_writes.mpr ⟨0, _, hh, Nat.zero_le _, Nat.le_refl _, hx, rfl⟩)

-- The corner of a part that is not empty.
theorem corner_mem : win.relY.toNat < display.ySz.toNat ∧
    win.relY.toNat * display.xSz.toNat + win.relX.toNat ∈ rectangle display win := by
  obtain ⟨x, y, hx, hx', hy, hy', -⟩ := first_mem h hh hx
  exact ⟨by omega, _, _, Nat.le_refl _, by omega, Nat.le_refl _, by omega, rfl⟩

-- No row that is drawn wraps around: the row before the first one that does is behind the buffer.
theorem index_lt (hi : i < win.ySz.toNat) (hi' : i ≤ display.ySz.toNat) :
    index display win i win.relX.toNat < display.dbuffer.length := by
  have hm := display.memory
  have hX := display.xSz.isLt
  induction i
  case zero =>
    obtain ⟨hy, -⟩ := corner_mem h hh hx
    have hc := pixel_lt hx hy
    have hf := first_mem h hh hx
    have hl := lt_of_mem_rectangle hf
    obtain ⟨x, y, hx', -, -, -, he⟩ := hf
    have hle : x ≤ y * display.xSz.toNat + x := Nat.le_add_left _ _
    rw [u64] at he hl
    simp only [index, Nat.zero_mul, Nat.add_zero] at he hl ⊢
    omega
  case succ i ih =>
    have hb := ih (by omega) (by omega)
    have hs : index display win (i + 1) win.relX.toNat =
        index display win i win.relX.toNat + 4 * display.xSz.toNat := by
      simp only [index]
      ring
    have hw : u64 (index display win (i + 1) win.relX.toNat) = index display win (i + 1) win.relX.toNat :=
      u64_of_lt (by omega)
    rw [← hw]
    exact lt_of_mem_rectangle ((h _).mp (mem_writes.mpr ⟨_, _, hi, hi', Nat.le_refl _, hx, rfl⟩))

theorem u64_index {x : Nat} (hi : i < win.ySz.toNat) (hi' : i ≤ display.ySz.toNat) (hx' : x < display.xSz.toNat) :
    u64 (index display win i x) = index display win i x := by
  have hb := index_lt h hh hx hi hi'
  have hm := display.memory
  have hX := display.xSz.isLt
  apply u64_of_lt
  simp only [index] at hb ⊢
  omega

theorem mem_rectangle_of_index {x : Nat} (hi : i < win.ySz.toNat) (hi' : i ≤ display.ySz.toNat)
    (hx : win.relX.toNat ≤ x) (hx' : x < display.xSz.toNat) : index display win i x ∈ rectangle display win := by
  rw [← u64_index h hh (by omega) hi hi' hx']
  exact (h _).mp (mem_writes.mpr ⟨i, x, hi, hi', hx, hx', rfl⟩)

theorem exists_index (hk : k ∈ rectangle display win) :
    ∃ i x, i < win.ySz.toNat ∧ i ≤ display.ySz.toNat ∧ win.relX.toNat ≤ x ∧ x < display.xSz.toNat ∧
      k = index display win i x := by
  obtain ⟨i, x, hi, hi', hx', hx'', rfl⟩ := mem_writes.mp ((h k).mpr hk)
  exact ⟨i, x, hi, hi', hx', hx'', u64_index h hh hx hi hi' hx''⟩

-- The offset is counted in pixels and multiplied by their size, so that only the origin stays.
theorem origin : win.relX.toNat = 0 ∧ win.relY.toNat = 0 := by
  obtain ⟨-, hc⟩ := corner_mem h hh hx
  obtain ⟨i, x, -, -, hx', -, he⟩ := exists_index h hh hx hc
  rw [index] at he
  have hz : win.relY.toNat * display.xSz.toNat = 0 := by omega
  rcases Nat.mul_eq_zero.mp hz with hy | hX
  case inl => exact ⟨by omega, hy⟩
  case inr => omega

-- At the origin the rows are four times too far apart, so that there is only one.
theorem one_row : win.ySz.toNat = 1 ∧ display.xSz.toNat ≤ win.xSz.toNat ∧ 0 < display.ySz.toNat := by
  obtain ⟨hX, hY⟩ := origin h hh hx
  obtain ⟨hy, -⟩ := corner_mem h hh hx
  have hw : display.xSz.toNat ≤ win.xSz.toNat := by
    obtain ⟨x, y, -, hx', -, -, he⟩ := mem_rectangle_of_index h hh hx hh (Nat.zero_le _)
      (show win.relX.toNat ≤ display.xSz.toNat - 1 by omega) (by omega)
    rw [index, hX, hY] at he
    have hz : y = 0 := by
      by_contra hn
      have hle : display.xSz.toNat ≤ y * display.xSz.toNat := Nat.le_mul_of_pos_left _ (by omega)
      omega
    subst hz
    omega
  refine ⟨?_, hw, by omega⟩
  by_contra hn
  by_cases h1 : display.ySz.toNat = 1
  case pos =>
    obtain ⟨x, y, -, hx', -, hy', he⟩ := mem_rectangle_of_index h hh hx
      (show 1 < win.ySz.toNat by omega) (by omega) (Nat.le_refl _) hx
    obtain rfl : y = 0 := by omega
    rw [index, hX, hY] at he
    omega
  case neg =>
    have hk : display.xSz.toNat ∈ rectangle display win :=
      ⟨0, 1, by omega, by omega, by omega, by omega, by omega⟩
    obtain ⟨i, x, -, -, -, hx', he⟩ := exists_index h hh hx hk
    rw [index, hX, hY] at he
    rcases Nat.eq_zero_or_pos i with rfl | hi
    case inl => omega
    case inr =>
      have hle : display.xSz.toNat ≤ i * display.xSz.toNat := Nat.le_mul_of_pos_left _ hi
      omega

end Exact

-- The window has no row, or lies right of the screen, or is one row at the origin that is at least as
-- wide as the screen.
theorem drawLienzoWindow_draws_iff : Draws display win ↔
    win.ySz.toNat = 0 ∨ display.xSz.toNat ≤ win.relX.toNat ∨
      (win.relX.toNat = 0 ∧ win.relY.toNat = 0 ∧ win.ySz.toNat = 1 ∧ display.xSz.toNat ≤ win.xSz.toNat ∧
        0 < display.ySz.toNat) := by
  rw [draws_iff]
  constructor
  case mp =>
    intro h
    by_cases hh : 0 < win.ySz.toNat
    case neg => exact .inl (by omega)
    case pos =>
      by_cases hx : win.relX.toNat < display.xSz.toNat
      case neg => exact .inr (.inl (by omega))
      case pos =>
        obtain ⟨hX, hY⟩ := origin h hh hx
        exact .inr (.inr ⟨hX, hY, one_row h hh hx⟩)
  case mpr =>
    intro h k
    rw [mem_writes]
    constructor
    case mp =>
      rintro ⟨i, x, hi, hi', hx, hx', rfl⟩
      rcases h with hh | hl | ⟨hX, hY, hh, hw, hy⟩
      case inl => omega
      case inr.inl => omega
      case inr.inr =>
        obtain rfl : i = 0 := by omega
        have hb := display.xSz.isLt
        refine ⟨x, 0, hx, by omega, by omega, by omega, ?_⟩
        rw [index, hX, hY, Nat.zero_mul, u64_of_lt (by omega)]
    case mpr =>
      rintro ⟨x, y, hx, hx', hy, hy', rfl⟩
      rcases h with hh | hl | ⟨hX, hY, hh, hw, hy⟩
      case inl => omega
      case inr.inl => omega
      case inr.inr =>
        obtain rfl : y = 0 := by omega
        have hb := display.xSz.isLt
        refine ⟨0, x, by omega, by omega, hx, by omega, ?_⟩
        rw [index, hX, hY, Nat.zero_mul, u64_of_lt (by omega)]

section Screen

theorem screen_holds : (2#32).toNat * (2#32).toNat ≤ (List.replicate 4 (0#32)).length := by decide

theorem screen_memory : 4 * (List.replicate 4 (0#32)).length ≤ 2 ^ 64 := by decide

-- A screen of two rows of two pixels.
def screen : Display := ⟨2, 2, List.replicate 4 0, screen_holds, screen_memory⟩

-- A window of the screen's own size: its second row is drawn where the fifth row would be.
theorem drawLienzoWindow_outside : ¬Draws screen ⟨0, 0, 2, 2⟩ := by
  rintro ⟨buff, hd, -⟩
  have hf : drawLienzoWindow screen ⟨0, 0, 2, 2⟩ = .error .fault := rfl
  rw [hf] at hd
  cases hd

end Screen

end RoverOS.Lienzo
