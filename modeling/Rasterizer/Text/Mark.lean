import Rasterizer.Bitmap.BitRow
import Rasterizer.Painter

/-! Marks: what a glyph leaves on the page, before any clipping. Most renderers turn a
picture into a list of marks without looking at the surface. -/

namespace Rasterizer

inductive Mark where
  /-- The pixels between two columns of a row. -/
  | span (x1 x2 y : Int) (value : Pixel)
  | pixel (x y : Int) (value : Pixel)
  /-- A colour laid over a pixel. -/
  | blend (x y : Int) (color : Color)
deriving Repr, DecidableEq

def Painter.mark (p : Painter) : Mark → Painter
  | .span x1 x2 y v => p.spanOf x1 x2 y v
  | .pixel x y v => p.pixelOf x y v
  | .blend x y c => p.blend x y c

def Painter.markAll (p : Painter) (ms : List Mark) : Painter := ms.foldl Painter.mark p

/-- How the rows of a glyph are moved sideways to make it lean. -/
structure Slant where
  leans : Bool := false
  /-- The rows above the baseline. -/
  ascent : Int := 0
  advance : Int := 0
  /-- The glyph is mirrored once, and leans the other way. -/
  mirrored : Bool := false
deriving Repr, DecidableEq

/-- How far a row is moved: one column for two rows above the baseline. -/
def Slant.shift (s : Slant) (row : Int) : Int :=
  if s.leans then
    let lean := (s.ascent - row) / 2
    if s.mirrored then s.advance - lean else lean
  else 0

/-- A picture of packed bits about to be drawn. -/
structure BitPicture where
  data : Array UInt8
  pitch : Nat
  w : Int
  h : Int

/-- The row `i` of the picture, without bits outside it. -/
def BitPicture.row (b : BitPicture) (i : Int) : BitRow :=
  if i < 0 ∨ b.h ≤ i then .empty else .ofPicture b.data b.pitch i.toNat b.w

/-- The rows of the picture, from the top. -/
def BitPicture.rowNumbers (b : BitPicture) : List Int := irange 0 (b.h - 1)

end Rasterizer
