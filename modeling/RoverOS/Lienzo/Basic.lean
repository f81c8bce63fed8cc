import RoverOS.Basic

-- `lienzo.c`: windows are drawn into the double buffer.

namespace RoverOS.Lienzo

-- Bytes per pixel, as `initLienzo` sets it.
def bpp : Nat := 4

-- The screen's size and the double buffer, which holds a screen of 32-bit pixels and lies in memory.
structure Display where
  xSz     : BitVec 32
  ySz     : BitVec 32
  dbuffer : List (BitVec 32)
  holds   : xSz.toNat * ySz.toNat ≤ dbuffer.length
  memory  : 4 * dbuffer.length ≤ 2 ^ 64

-- The fields of `struct lienzoHeader` that drawing reads.
structure Window where
  relX : BitVec 32
  relY : BitVec 32
  xSz  : BitVec 32
  ySz  : BitVec 32
  deriving DecidableEq, Repr

-- The buffer while it is drawn into, and the indices that have been written.
structure Canvas where
  pixels  : List (BitVec 32)
  written : List Nat
  deriving DecidableEq, Repr

def Canvas.store (buff : Canvas) (i : Nat) : Except Exit Canvas :=
  if i < buff.pixels.length then .ok ⟨buff.pixels.set i 0xFF00FF, buff.written ++ [i]⟩ else .error .fault

def LIENZO_BUFFER_OFFSET (xsz yoff xoff sz : Nat) : Nat := u64 (((yoff * xsz) + xoff) * sz)

-- The loop of `drawRow` from `x` on, with `left` pixels to go. The index is one of 32-bit pixels.
def drawPixels (p : Nat) (left x : Nat) (buff : Canvas) : Except Exit Canvas :=
  match left with
  | 0        => .ok buff
  | left + 1 => do
    let buff ← buff.store (u64 (p + x))
    drawPixels p left (x + 1) buff

def drawRow (buff : Canvas) (yoff xoff xsz : Nat) : Except Exit Canvas :=
  let p := LIENZO_BUFFER_OFFSET xsz yoff xoff bpp
  drawPixels p (xsz - xoff) xoff buff

-- The loop of `drawLienzoWindow` from row `i` on, with `left` rows to go.
def drawRows (display : Display) (win : Window) (left i : Nat) (buff : Canvas) : Except Exit Canvas :=
  match left with
  | 0        => .ok buff
  | left + 1 =>
    if i > display.ySz.toNat then .ok buff
    else do
      let buff ← drawRow buff (i + win.relY.toNat) win.relX.toNat display.xSz.toNat
      drawRows display win left (i + 1) buff

def drawLienzoWindow (display : Display) (win : Window) : Except Exit Canvas :=
  drawRows display win win.ySz.toNat 0 ⟨display.dbuffer, []⟩

end RoverOS.Lienzo
