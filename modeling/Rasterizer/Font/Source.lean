import Rasterizer.Angle
import Rasterizer.Color
import Rasterizer.Font.Style
import Rasterizer.Point

/-! Glyph sources: what a font is to the text drawing code. A source reports metrics
and hands out one kind of glyph picture. -/

namespace Rasterizer

/-- The number of a glyph. The highest bit asks for the second source of a font. -/
abbrev Glyph := UInt32

namespace Glyph

/-- The glyph that is never drawn. -/
def invalid : Glyph := 0xFFFFFFFF

def secondSourceBit : UInt32 := 0x80000000

def asksSecond (g : Glyph) : Bool := g &&& secondSourceBit != 0

/-- The number of the glyph within its source. -/
def index (g : Glyph) : UInt32 := g &&& ~~~secondSourceBit

/-- The glyph of that number in the second source. -/
def inSecond (index : UInt32) : Glyph := index ||| secondSourceBit

end Glyph

/-- The whole displacement `(x, y)` of that length in the direction of an angle, rows counted upwards. -/
def rotateVector (length angle : Int) : Point :=
  let t := Angle.toRadians angle
  ⟨roundHalfOut (Float.ofInt length * Float.cos t), roundHalfOut (Float.ofInt length * Float.sin t)⟩

/-- How far the pen moves for a glyph. -/
structure Advance where
  length : Int := 0
  dx : Int := 0
  dy : Int := 0
deriving Repr, DecidableEq, Inhabited

/-- The advance of that length along a baseline turned by tenths of a degree. -/
def Advance.along (length tenths : Int) : Advance :=
  if tenths = 0 then ⟨length, length, 0⟩
  else
    let v := rotateVector length (Angle.ofTenths tenths)
    ⟨length, v.x, -v.y⟩

/-- The box of a glyph relative to the pen. -/
structure GlyphBox where
  x : Int := 0
  y : Int := 0
  w : Int := 0
  h : Int := 0
deriving Repr, DecidableEq, Inhabited

inductive GlyphKind where
  | mono
  /-- One byte of coverage a pixel. -/
  | grey
  /-- Three bytes of coverage a pixel, one for each channel. -/
  | subpixel
  | prerendered
deriving Repr, DecidableEq, Inhabited

structure GlyphBitmap where
  data : Array UInt8
  /-- The bytes of one row. -/
  pitch : Nat
  scale : Nat
deriving Repr, DecidableEq

structure GlyphPixels where
  width : Nat
  height : Nat
  pixels : Array Color
deriving Repr, DecidableEq

structure FontRequest where
  size : Int
  ascent : Int
  descent : Int
  /-- The direction of the baseline in tenths of a degree. -/
  rotation : Int := 0
  style : FontStyle := .regular
deriving Repr, DecidableEq

/-- One concrete set of glyphs. -/
structure GlyphSource where
  name : String
  /-- The style that the pictures have by themselves. -/
  style : FontStyle
  kind : GlyphKind
  height : Int
  ascent : Int
  descent : Int
  /-- How often a pixel of a picture is repeated in each direction. -/
  scale : Nat
  hasGlyph : UInt32 → Bool
  advance : FontRequest → UInt32 → Advance
  box : FontRequest → UInt32 → GlyphBox
  mono? : FontRequest → UInt32 → Option GlyphBitmap := fun _ _ => none
  grey? : FontRequest → UInt32 → Option GlyphBitmap := fun _ _ => none
  pixels? : FontRequest → UInt32 → Option GlyphPixels := fun _ _ => none

end Rasterizer
