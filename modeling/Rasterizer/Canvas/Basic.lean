import Rasterizer.CoordSpace
import Rasterizer.RowSpans
import Rasterizer.Stroke.Pen
import Rasterizer.Text.Glyph

/-! Canvases: a surface with a clip region, a coordinate space and the attributes that
drawing calls use. The clip region lies in screen points and never reaches beyond the
device rectangle or the surface. The colour ramps of the text are kept up to date with
the colours they come from. -/

namespace Rasterizer

inductive BackgroundMode where
  | transparent | filled
deriving Repr, DecidableEq, Inhabited

structure TextAttributes where
  font : Option LogicalFont := none
  align : TextAlign := {}
  color : Pixel
  background : Pixel
  mode : BackgroundMode := .filled
  charExtra : Int := 0
  lineExtra : Int := 0
  /-- The ramps of the colours, the mode and the surface's format. -/
  ramps : Ramps

namespace TextAttributes

def currentRamps (t : TextAttributes) (format : PixelFormat) : Ramps :=
  .compute format t.color t.background (t.mode == .transparent)

def refresh (t : TextAttributes) (format : PixelFormat) : TextAttributes :=
  { t with ramps := t.currentRamps format }

def styleOf (t : TextAttributes) (font : LogicalFont) : TextStyle :=
  { font := font
    align := t.align
    textColor := t.color
    background := t.background
    transparent := t.mode == .transparent
    ramps := t.ramps
    charExtra := t.charExtra
    lineExtra := t.lineExtra }

end TextAttributes

/-- A surface to draw on with logical coordinates. -/
structure Canvas where
  surface : Surface
  space : CoordSpace
  clip : Region
  rop : RasterOp := .set
  /-- Where the next connected line begins, in logical points. -/
  penPos : Point := ⟨0, 0⟩
  penColor : Pixel
  pen : Pen := {}
  /-- The brush, its origin in device points. -/
  brush : Brush
  text : TextAttributes
  /-- Buffers kept between glyphs. -/
  scratch : Scratch := {}

namespace Canvas

/-- The part of the device rectangle that lies on the surface. -/
def visibleRect? (surface : Surface) (space : CoordSpace) : Option Rect :=
  space.device.intersect? surface.rect

/-- The region of all pixels that may ever be touched. -/
def wholeClip (surface : Surface) (space : CoordSpace) : Region :=
  match visibleRect? surface space with
  | some rc => .ofRect rc
  | none => .empty

/-- A canvas with black pen and text and white brush and background. -/
def create (surface : Surface) (space : CoordSpace) : Canvas :=
  let black := surface.format.mapRgb 0 0 0
  let white := surface.format.mapRgb 255 255 255
  { surface := surface
    space := space
    clip := wholeClip surface space
    penColor := black
    brush := { color := white }
    text :=
      { color := black
        background := white
        ramps := .compute surface.format black white false } }

def ofSurface (surface : Surface) : Canvas := create surface (.screen surface.rect)

def ofWindow (surface : Surface) (device : Rect) : Canvas := create surface (.window device.normalized)

/-! ## Coordinates -/

def toScreen (c : Canvas) (x y : Int) : Point := c.space.logicalToScreen ⟨x, y⟩

def withMapping (c : Canvas) (m : Mapping) : Canvas := { c with space := { c.space with mapping := m } }

def setMapMode (c : Canvas) (mode : MapMode) : Canvas :=
  c.withMapping { c.space.mapping with mode := mode }

def setWindowOrg (c : Canvas) (p : Point) : Canvas :=
  c.withMapping { c.space.mapping with windowOrg := p }

def setViewportOrg (c : Canvas) (p : Point) : Canvas :=
  c.withMapping { c.space.mapping with viewportOrg := p }

def setWindowExt (c : Canvas) (p : Point) : Except RasterError Canvas :=
  return c.withMapping (← c.space.mapping.withWindowExt p)

def setViewportExt (c : Canvas) (p : Point) : Except RasterError Canvas :=
  return c.withMapping (← c.space.mapping.withViewportExt p)

/-! ## Clipping -/

/-- Limits drawing to a region given in device points. -/
def setClip (c : Canvas) (region : Region) : Canvas :=
  let o := c.space.deviceToScreen ⟨0, 0⟩
  { c with
    clip := match visibleRect? c.surface c.space with
      | some rc => (region.shift o.x o.y).intersectRect rc
      | none => .empty }

/-- Allows drawing on the whole device rectangle. -/
def resetClip (c : Canvas) : Canvas := { c with clip := wholeClip c.surface c.space }

/-! ## Attributes -/

def setRop (c : Canvas) (rop : RasterOp) : Canvas := { c with rop := rop }

def setPenColor (c : Canvas) (color : Pixel) : Canvas := { c with penColor := color }

def setPenWidth (c : Canvas) (width : Nat) : Canvas := { c with pen := { c.pen with width := width } }

def setPenStyle (c : Canvas) (style : PenStyle) : Canvas := { c with pen := { c.pen with style := style } }

def setPenCap (c : Canvas) (cap : LineCap) : Canvas := { c with pen := { c.pen with cap := cap } }

def setPenJoin (c : Canvas) (join : LineJoin) : Canvas := { c with pen := { c.pen with join := join } }

def setPenDashes (c : Canvas) (offset : Nat) (dashes : List UInt8) : Canvas :=
  { c with pen := { c.pen with dashOffset := offset, dashes := dashes } }

def setBrushColor (c : Canvas) (color : Pixel) : Canvas :=
  { c with brush := { c.brush with color := color } }

def setBrushKind (c : Canvas) (kind : BrushKind) : Canvas :=
  { c with brush := { c.brush with kind := kind } }

def setBrushPatterns (c : Canvas) (tile : Option Tile) (stipple : Option Stipple) : Canvas :=
  { c with brush := { c.brush with tile := tile, stipple := stipple } }

def setBrushOrigin (c : Canvas) (origin : Point) : Canvas :=
  { c with brush := { c.brush with origin := origin } }

/-- The canvas with other text attributes and the ramps that belong to them. -/
def setText (c : Canvas) (t : TextAttributes) : Canvas :=
  { c with text := t.refresh c.surface.format }

def setTextColor (c : Canvas) (color : Pixel) : Canvas := c.setText { c.text with color := color }

def setBackground (c : Canvas) (color : Pixel) : Canvas := c.setText { c.text with background := color }

def setBackgroundMode (c : Canvas) (mode : BackgroundMode) : Canvas :=
  c.setText { c.text with mode := mode }

def setFont (c : Canvas) (font : LogicalFont) : Canvas := c.setText { c.text with font := some font }

def setTextAlign (c : Canvas) (align : TextAlign) : Canvas :=
  { c with text := { c.text with align := align } }

def setCharExtra (c : Canvas) (extra : Int) : Canvas :=
  { c with text := { c.text with charExtra := extra } }

def setLineExtra (c : Canvas) (extra : Int) : Canvas :=
  { c with text := { c.text with lineExtra := extra } }

/-- The brush with its origin in screen points. -/
def screenBrush (c : Canvas) : Brush :=
  { c.brush with origin := c.space.deviceToScreen c.brush.origin }

/-- The pen with its width on the screen, one pixel at least unless it has no width at all. -/
def screenPen (c : Canvas) : Pen :=
  if c.pen.width = 0 then c.pen
  else { c.pen with width := (max (c.space.widthToScreen (wrap32 c.pen.width)) 1).toNat }

/-! ## Painting -/

/-- Opens the canvas for drawing in a rectangle of the screen. -/
def paint (c : Canvas) (rc : Rect) (rop : RasterOp) (draw : Painter → Painter) : Canvas :=
  match Painter.open? c.surface c.clip rc with
  | none => c
  | some p => { c with surface := (draw (p.withRop rop)).surface }

def paintSpans (c : Canvas) (spans : RowSpans) (color : Pixel) : Canvas :=
  match spans.bound? with
  | none => c
  | some rc =>
    c.paint rc c.rop fun p =>
      spans.toList.foldl (fun p r => p.spanOf r.x1 r.x2 r.y color) p

def brushSpans (c : Canvas) (spans : RowSpans) : Canvas :=
  match spans.bound? with
  | none => c
  | some rc =>
    let brush := c.screenBrush
    c.paint rc c.rop fun p =>
      spans.toList.foldl (fun p r => p.brushRow r.x1 r.x2 r.y brush c.text.background) p

end Canvas

end Rasterizer
