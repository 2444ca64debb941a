import Rasterizer.Bitmap.Flip
import Rasterizer.Font.Source
import Rasterizer.Text.Mark
import Rasterizer.Text.Ramp

/-! Glyphs of coverage and of colours. Grey coverage picks a step of a ramp, coverage by
channel mixes the text colour into what is there, and coloured pictures are copied or
laid over it. -/

namespace Rasterizer

structure CoveragePicture where
  data : Array UInt8
  pitch : Nat
  w : Int
  h : Int

namespace CoveragePicture

/-- The bytes from the start of row `i` to the end of the data. -/
def bytesFrom (c : CoveragePicture) (i : Int) : Array UInt8 :=
  c.data.extract (i.toNat * c.pitch) c.data.size

/-- The step of a ramp for a coverage. -/
def level (v : UInt8) : Nat := if v = 255 then 16 else v.toNat / 16

/-- The marks of one step of a ramp on a square of `scale` pixels. -/
def levelMarks (ramp : GreyRamp) (level : Nat) (scale left y : Int) : List Mark :=
  match ramp with
  | .blended r =>
    (irange left (left + scale - 1)).map fun x => .blend x y (r.getD level default)
  | .opaquePixels r => [.span left (left + scale - 1) y (r.getD level 0)]

/-- The marks of one row, with nothing where there is no coverage. -/
def greyRowMarks (c : CoveragePicture) (scale row : Int) (origin : Point) (slant : Slant)
    (ramp : GreyRamp) : List Mark :=
  let bytes := c.bytesFrom row
  (List.range (min c.w.toNat bytes.size)).flatMap fun x : Nat =>
    let k := level (bytes.getD x 0)
    if k = 0 then []
    else (irange 0 (scale - 1)).flatMap fun i =>
      levelMarks ramp k scale (origin.x + x * scale + slant.shift (row * scale + i))
        (origin.y + row * scale + i)

/-- The marks of a picture of grey coverage magnified by the scale. -/
def greyMarks (c : CoveragePicture) (scale : Int) (origin : Point) (slant : Slant)
    (ramp : GreyRamp) : List Mark :=
  (irange 0 (c.h - 1)).flatMap fun i => c.greyRowMarks (max scale 1) i origin slant ramp

/-- One channel of the text mixed into what is there by its coverage. -/
def mixCovered (text old coverage : UInt8) : UInt8 :=
  if coverage = 0 then old
  else
    let a := coverage.toNat + 1
    UInt8.ofNat ((text.toNat * a + old.toNat * (256 - a)) / 256)

/-- Mixes the text colour into one pixel by three coverages; a pixel that stays is not drawn. -/
def drawMixed (p : Painter) (x y : Int) (text : Color) (r g b : UInt8) : Painter :=
  match p.surface.get? x y with
  | none => p
  | some old =>
    let f := p.surface.format
    let c := f.getRgb old
    let v := f.mapRgb (mixCovered text.r c.r r) (mixCovered text.g c.g g) (mixCovered text.b c.b b)
    if v = old then p else p.pixelOf x y v

def drawChannelRow (c : CoveragePicture) (p : Painter) (origin : Point) (text : Color) (row : Int) :
    Painter :=
  let bytes := c.bytesFrom row
  (List.range (min c.w.toNat (bytes.size / 3))).foldl
    (fun p (x : Nat) => drawMixed p (origin.x + (x : Int)) (origin.y + row) text (bytes.getD (3 * x) 0)
      (bytes.getD (3 * x + 1) 0) (bytes.getD (3 * x + 2) 0))
    p

def drawChannels (c : CoveragePicture) (p : Painter) (origin : Point) (text : Color) : Painter :=
  (irange 0 (c.h - 1)).foldl (fun p i => c.drawChannelRow p origin text i) p

end CoveragePicture

namespace GlyphPixels

/-- The mark of one colour: nothing when it is clear, a pixel when it is opaque. -/
def colorMark? (format : PixelFormat) (x y : Int) (c : Color) : Option Mark :=
  if c.a = 0 then none
  else if c.a = 255 then some (.pixel x y (format.mapOpaque c))
  else some (.blend x y c)

/-- The places along a side of that length. Places are signed 32-bit numbers, so a side of
2147483648 or more has none. -/
def places (side : Nat) : Nat := (wrap32 side).toNat

theorem places_of_lt {side : Nat} (h : side < 2147483648) : places side = side := by
  unfold places
  rw [wrap32_of_range (by omega) (by omega)]
  exact Int.toNat_natCast side

def columns (g : GlyphPixels) : Nat := places g.width

def rows (g : GlyphPixels) : Nat := places g.height

/-- The marks of a coloured picture, row by row as far as there are pixels. -/
def marks (g : GlyphPixels) (format : PixelFormat) (origin : Point) : List Mark :=
  (List.range (min (g.columns * g.rows) g.pixels.size)).filterMap fun i : Nat =>
    colorMark? format (origin.x + (i % g.columns : Nat)) (origin.y + (i / g.columns : Nat))
      (g.pixels.getD i default)

/-- All whole rows mirrored left to right. -/
def flipColumns (g : GlyphPixels) : GlyphPixels :=
  if g.columns = 0 then g
  else
    { g with
      pixels := g.pixels.mapIdx fun i v =>
        if i / g.columns < g.pixels.size / g.columns then
          g.pixels.getD (i / g.columns * g.columns + (g.columns - 1 - i % g.columns)) v
        else v }

/-- The picture mirrored as the style asks. -/
def flipped (g : GlyphPixels) (style : FontStyle) : Except Fault GlyphPixels := do
  let g := if style.contains .flipHorz then g.flipColumns else g
  if style.contains .flipVert then
    return { g with pixels := ← flipRows g.pixels g.rows g.columns }
  else return g

end GlyphPixels

end Rasterizer
