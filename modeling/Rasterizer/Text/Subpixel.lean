import Rasterizer.Text.Mark
import Rasterizer.Text.Scratch

/-! The subpixel weight. Ink is smoothed by a 3 by 3 kernel against the colours that
were there before. The filter reads the rows of the surface one ahead of the row it
draws, into three rows of colours that are kept from glyph to glyph. -/

namespace Rasterizer

namespace SubpixelWeight

/-- The whole weight of the kernel. -/
def total : Nat := 32

/-- The weight of all neighbours together. -/
def around : Nat := 16

/-- The neighbours of the kernel with their weights, in offsets of column and row. -/
def kernel : List (Int × Int × Nat) :=
  [(-1, 0, 3), (1, 0, 3), (0, -1, 3), (0, 1, 3), (-1, -1, 1), (1, -1, 1), (-1, 1, 1), (1, 1, 1)]

/-- A value for the row above, the row itself and the row below. -/
structure Triple (α : Type) where
  above : α
  here : α
  below : α

/-- The value for a row offset. -/
def Triple.at {α : Type} (t : Triple α) (d : Int) : α :=
  if d < 0 then t.above else if d = 0 then t.here else t.below

/-- The weight of the ink around a clear bit. -/
def inkAround (lines : Triple BitRow) (x : Int) : Nat :=
  kernel.foldl (fun n (dx, dy, wt) => n + wt * ((lines.at dy).get (x + dx)).toNat) 0

/-- Three sums of weighted channels. -/
structure Sums where
  r : Nat := 0
  g : Nat := 0
  b : Nat := 0

def Sums.add (s : Sums) (c : Color) (weight : Nat) : Sums :=
  ⟨s.r + c.r.toNat * weight, s.g + c.g.toNat * weight, s.b + c.b.toNat * weight⟩

def Sums.color (s : Sums) : Color :=
  .opaqueRgb (UInt8.ofNat (s.r / total)) (UInt8.ofNat (s.g / total)) (UInt8.ofNat (s.b / total))

/-- The colour on a set bit: the text for the centre, for set neighbours and in place of those
outside the picture, the old colours for the others. -/
def inkColor (lines : Triple BitRow) (back : Triple (Array Color)) (w : Int) (text : Color)
    (x : Int) : Color :=
  let (sums, own) := kernel.foldl
    (fun (acc : Sums × Nat) (dx, dy, wt) =>
      let k := x + dx
      if k < 0 ∨ w ≤ k then (acc.1, acc.2 + wt)
      else if (lines.at dy).get k then (acc.1.add text wt, acc.2)
      else (acc.1.add ((back.at dy).getD k.toNat default) wt, acc.2))
    ({}, total - around)
  (sums.add text own).color

/-- What the bit `k` of a row and those around it leave on the pixel behind it. -/
def inkAt? (format : PixelFormat) (w : Int) (lines : Triple BitRow) (back : Triple (Array Color))
    (text : Color) (k : Int) : Option Pixel :=
  if lines.here.get k then some (format.mapOpaque (inkColor lines back w text k))
  else
    let wt := inkAround lines k
    if wt = 0 then none
    else some (format.mapOpaque (Color.mix (back.here.getD k.toNat default) text wt total))

def rowMarks (format : PixelFormat) (w x y : Int) (lines : Triple BitRow)
    (back : Triple (Array Color)) (text : Color) : List Mark :=
  (irange 0 (w - 1)).filterMap fun k =>
    (inkAt? format w lines back text k).map fun v => .pixel (x + k) y v

/-- The rows of colours moved on to the row `i` of a picture: the first row is read, and counts as
the one above itself; every other has been read one row ahead. -/
def moveOn (s : Surface) (n : Nat) (i x y : Int) (outside : Color) (b : Scratch) : Scratch :=
  if i = 0 then
    let here := Scratch.readRow s n x y outside b.here
    { b with here := here, above := Scratch.copyRow n here b.above }
  else { b with above := b.here, here := b.below, below := b.above }

/-- The rows of colours around the row `i` of a picture of height `h`. The last row counts as the
one below itself. -/
def readAround (s : Surface) (n : Nat) (h i x y : Int) (outside : Color) (b : Scratch) : Scratch :=
  let b := moveOn s n i x y outside b
  if i = h - 1 then { b with below := Scratch.copyRow n b.here b.below }
  else { b with below := Scratch.readRow s n x (y + 1) outside b.below }

/-- The rows of bits around the row `i` of a picture, beyond the first and the last these rows
themselves. -/
def linesAround (b : BitPicture) (i : Int) : Triple BitRow :=
  let cur := b.row i
  ⟨if i = 0 then cur else b.row (i - 1), cur, if i = b.h - 1 then cur else b.row (i + 1)⟩

def drawRow (b : BitPicture) (origin : Point) (slant : Slant) (text outside : Color)
    (st : Painter × Scratch) (i : Int) : Painter × Scratch :=
  let (p, back) := st
  let n := b.w.toNat
  let x := origin.x + slant.shift i
  let y := origin.y + i
  let back := readAround p.surface n b.h i x y outside back
  let ms := rowMarks p.surface.format b.w x y (linesAround b i)
    ⟨back.above.take n, back.here.take n, back.below.take n⟩ text
  (p.markAll ms, back)

/-- Draws a picture against the colours of the surface, those outside it taken as `outside`. The rows of
colours must have room for a row of the picture. -/
def draw (b : BitPicture) (origin : Point) (slant : Slant) (text outside : Color) (p : Painter)
    (back : Scratch) : Painter × Scratch :=
  if back.hasRoom b.w.toNat then b.rowNumbers.foldl (drawRow b origin slant text outside) (p, back)
  else (p, back)

end SubpixelWeight

end Rasterizer
