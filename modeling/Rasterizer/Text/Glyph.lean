import Rasterizer.Bitmap.Expand
import Rasterizer.Line.Clip
import Rasterizer.Text.Background
import Rasterizer.Text.Coverage
import Rasterizer.Text.Subpixel
import Rasterizer.Text.Weight

/-! Drawing glyphs: the background, the ink and the lines under and through the text.
A glyph's picture is made ready first, in buffers that are kept between glyphs, which fails
when the source handed out a picture that is shorter than it says; the ink is drawn
afterwards and cannot fail. -/

namespace Rasterizer

/-- The weights of packed bits. -/
inductive InkWeight where
  | regular | book | light | subpixel
deriving Repr, DecidableEq

/-- A glyph's picture made ready for drawing. -/
inductive GlyphImage where
  | bits (picture : BitPicture) (weight : InkWeight) (scale : Int)
  | grey (picture : CoveragePicture) (scale : Int)
  | channels (picture : CoveragePicture)
  | colors (picture : GlyphPixels)

/-- The part of a glyph's place that its picture depends on. -/
structure InkBox where
  origin : Point
  w : Int
  h : Int
  /-- The picture is to be widened. -/
  bold : Bool
  slant : Slant

namespace TextStyle

/-- The weight in which bits are drawn. Book needs a format to blend in, and light needs two
colours; without them the weight is regular. -/
def inkWeight (st : TextStyle) : InkWeight :=
  let style := st.font.style
  if style.contains .book then (if st.ramps.book.isSome then .book else .regular)
  else if style.contains .light then
    (if st.textColor ≠ st.background then .light else .regular)
  else if style.contains .subpixel then .subpixel
  else .regular

/-- The packed rows of a glyph, widened and magnified in the buffer as far as the renderer does not do
that, with their height, the scale that is left and whether they are in the buffer. Rows that are to be
mirrored are copied to it. -/
def loadRows (st : TextStyle) (bmp : GlyphBitmap) (scale : Int) (ink : InkBox) (buffer : Array UInt8) :
    Except Fault (PackedRows × Int × Int × Bool) :=
  let w := ink.w.tdiv scale
  let h := ink.h.tdiv scale
  if 1 < scale ∧ st.inkWeight ≠ .regular then
    pure (expandScaleIn buffer bmp.data bmp.pitch (w - if ink.bold then 1 else 0) h scale ink.bold,
      h * scale, 1, true)
  else if ink.bold then do
    return (← expandBoldIn buffer bmp.data bmp.pitch (w - 1) h, h, scale, true)
  else if st.font.style.flips then
    pure (⟨w, bmp.pitch, Buffer.load buffer (bmp.data.extract 0 (bmp.pitch * h.toNat))⟩, h, scale, true)
  else pure (⟨w, bmp.pitch, bmp.data⟩, h, scale, false)

/-- A picture mirrored as the style asks, with what mirrors its columns and its rows. -/
def mirrored (st : TextStyle) (columns rows : Array UInt8 → Except Fault (Array UInt8))
    (data : Array UInt8) : Except Fault (Array UInt8) := do
  let data ← if st.font.style.contains .flipHorz then columns data else pure data
  if st.font.style.contains .flipVert then rows data else pure data

/-- The picture of a glyph of packed bits. The subpixel weight also takes rows of colours, as wide as the
glyph. -/
def loadBits (st : TextStyle) (bmp : GlyphBitmap) (scale : Int) (ink : InkBox) (scratch : Scratch) :
    Except Fault (GlyphImage × Scratch) := do
  let scratch := if st.inkWeight = .subpixel then scratch.prepare ink.w.toNat else scratch
  let (rows, h, left, buffered) ← st.loadRows bmp scale ink scratch.bits
  let data ← st.mirrored (flipBits · rows.width h rows.pitch) (flipRows · h rows.pitch) rows.data
  return (.bits ⟨data, rows.pitch, rows.width, h⟩ st.inkWeight left,
    if buffered then { scratch with bits := data } else scratch)

/-- The picture of a glyph of grey pixels, in the buffer when it is mirrored. -/
def loadGrey (st : TextStyle) (bmp : GlyphBitmap) (scale : Int) (ink : InkBox) (scratch : Scratch) :
    Except Fault (GlyphImage × Scratch) := do
  let w := ink.w.tdiv scale
  let h := ink.h.tdiv scale
  if st.font.style.flips then
    let data ← st.mirrored (flipPixels · w h bmp.pitch 1) (flipRows · h bmp.pitch)
      (Buffer.load scratch.bits bmp.data)
    return (.grey ⟨data, bmp.pitch, w, h⟩ scale, { scratch with bits := data })
  else return (.grey ⟨bmp.data, bmp.pitch, w, h⟩ scale, scratch)

/-- The picture of a glyph of coloured pixels, copied to the buffer. -/
def loadColors (st : TextStyle) (px : GlyphPixels) (scratch : Scratch) :
    Except Fault (GlyphImage × Scratch) := do
  let px ← { px with pixels := Buffer.load scratch.pixels px.pixels }.flipped st.font.style
  return (.colors px, { scratch with pixels := px.pixels })

/-- Makes the picture of a glyph ready, if its source has one. -/
def load (st : TextStyle) (g : Glyph) (ink : InkBox) (scratch : Scratch) :
    Except Fault (Option GlyphImage × Scratch) := do
  let s := st.font.sourceOf g
  let request := st.font.toFontRequest
  let i := Glyph.index g
  let scale : Int := max s.scale 1
  match s.kind with
  | .mono =>
    match s.mono? request i with
    | none => return (none, scratch)
    | some bmp =>
      let (image, scratch) ← st.loadBits bmp scale ink scratch
      return (some image, scratch)
  | .grey =>
    match s.grey? request i with
    | none => return (none, scratch)
    | some bmp =>
      let (image, scratch) ← st.loadGrey bmp scale ink scratch
      return (some image, scratch)
  | .subpixel =>
    match s.grey? request i with
    | none => return (none, scratch)
    | some bmp => return (some (.channels ⟨bmp.data, bmp.pitch, ink.w, ink.h⟩), scratch)
  | .prerendered =>
    match s.pixels? request i with
    | none => return (none, scratch)
    | some px =>
      let (image, scratch) ← st.loadColors px scratch
      return (some image, scratch)

def drawImage (st : TextStyle) (p : Painter) (back : Scratch) (ink : InkBox) :
    GlyphImage → Painter × Scratch
  | .bits b .regular scale =>
    (p.markAll (RegularWeight.marks b scale ink.origin ink.slant st.textColor), back)
  | .bits b .book _ =>
    match st.ramps.book with
    | some ramp => (p.markAll (BookWeight.marks b ink.origin ink.slant ramp), back)
    | none => (p, back)
  | .bits b .light _ =>
    let (_, background, text) := st.ramps.light
    (p.markAll (LightWeight.marks b ink.origin ink.slant background text), back)
  | .bits b .subpixel _ =>
    let f := p.surface.format
    SubpixelWeight.draw b ink.origin ink.slant (f.getRgb st.textColor) (f.getRgb st.background) p
      back
  | .grey c scale => (p.markAll (c.greyMarks scale ink.origin ink.slant st.ramps.grey), back)
  | .channels c => (c.drawChannels p ink.origin (p.surface.format.getRgb st.textColor), back)
  | .colors px => (p.markAll (px.marks p.surface.format ink.origin), back)

end TextStyle

namespace LogicalFont

/-- The line between two points moved up by that distance from the baseline. -/
def parallel (f : LogicalFont) (a b : Point) (distance : Int) : Point × Point :=
  let v := rotateVector distance (Angle.ofTenths (f.rotation + 900))
  (⟨a.x + v.x, a.y - v.y⟩, ⟨b.x + v.x, b.y - v.y⟩)

/-- The font is slanted and its baseline level. -/
def leansUpright (f : LogicalFont) : Bool := f.rotation == 0 && f.style.contains .italic

def underline (f : LogicalFont) (a b : Point) : Point × Point :=
  let (p, q) :=
    if f.style.contains .flipVert then f.parallel a b (f.size - f.descent * 2) else (a, b)
  let shift :=
    if !f.leansUpright then 0
    else if f.style.contains .flipHorz then (f.size - f.descent) / 2 - 1
    else f.descent / 2
  (⟨p.x + shift, p.y⟩, ⟨q.x + shift, q.y⟩)

def strikeOut (f : LogicalFont) (a b : Point) : Point × Point :=
  let distance := f.size / 2 - f.descent + if f.style.contains .flipVert then 1 else 0
  let (p, q) := f.parallel a b distance
  let shift := if f.leansUpright then f.size / 4 else 0
  (⟨p.x + shift, p.y⟩, ⟨q.x + shift, q.y⟩)

/-- The lines that the style draws along the text from `a` to `b`, none for a text without length. -/
def textLines (f : LogicalFont) (a b : Point) : List (Point × Point) :=
  if a = b then []
  else
    (if f.style.contains .underline then [f.underline a b] else []) ++
      if f.style.contains .struckOut then [f.strikeOut a b] else []

end LogicalFont

/-- Draws the visible part of a line with the ink. The numbers of the lines of a text are taken to fit in 32 bits,
so the walk is exact. -/
def Painter.line (p : Painter) (a b : Point) : Painter :=
  match LineWalk.clipped? a b p.window with
  | none => p
  | some walk => walk.points.foldl (fun p q => p.pixel q.x q.y) p

structure TextPage where
  surface : Surface
  clip : Region
  /-- Nothing outside is touched. -/
  bound : Rect
  /-- Buffers kept between glyphs. -/
  scratch : Scratch

namespace TextPage

/-- The picture of a glyph is drawn slanted by this many columns in all. -/
def leanWidth (f : LogicalFont) (s : GlyphSource) : Int :=
  if f.style.contains .italic && !s.style.contains .italic then s.height / 2 else 0

def inkRect (f : LogicalFont) (s : GlyphSource) (box : GlyphBox) : Rect :=
  let rc := Rect.ofSize box.x box.y (box.w + leanWidth f s) box.h
  if f.hasHalo s then rc.inflate 1 1 else rc

/-- The area behind a glyph whose advance goes from `pen` to `stop`, when anything needs one. -/
def backArea? (st : TextStyle) (halo : Bool) (pen stop : Point) : Option BackArea :=
  if !st.transparent || st.font.style.intersects (FontStyle.underline.union .struckOut) then
    some (if st.runsRight then .behind st.font pen stop halo else .behind st.font stop pen halo)
  else none

/-- Where a glyph is drawn, and with what around it. -/
structure GlyphPlan where
  advance : Advance
  /-- The rectangle that the ink is to fill. -/
  rc : Rect
  ink : InkBox
  area : Option BackArea
  lines : List (Point × Point)

/-- The plan of a glyph with the pen at `(x, y)` of the baseline. -/
def plan (st : TextStyle) (g : Glyph) (x y : Int) : GlyphPlan :=
  let f := st.font
  let s := f.sourceOf g
  let placed := st.place g x y
  let rc := inkRect f s placed.box
  let pen : Point := ⟨x, y⟩
  let stop := pen.shift placed.move
  { advance := ⟨placed.length, placed.move.x, placed.move.y⟩
    rc := rc
    ink :=
      { origin := ⟨rc.left, rc.top⟩
        w := placed.box.w
        h := placed.box.h
        bold := 0 < placed.bold
        slant := ⟨leanWidth f s ≠ 0, y - placed.box.y, placed.length, f.style.flipsOnce⟩ }
    area := backArea? st (f.hasHalo s) pen stop
    lines := f.textLines pen stop }

/-- The rectangle that holds all of a glyph. -/
def GlyphPlan.window (pl : GlyphPlan) : Rect :=
  let front := { pl.rc with bottom := pl.rc.bottom + 1 }
  match pl.area with
  | some a => a.bound.bound front
  | none => front

/-- Fills the area behind a glyph unless it is left alone. -/
def drawGround (st : TextStyle) (area : Option BackArea) (p : Painter) : Painter :=
  match st.transparent, area with
  | false, some a => a.fill (p.withInk st.background)
  | _, _ => p

/-- Draws the ink of a glyph when any of it lies in the painter's window. -/
def drawInk (st : TextStyle) (g : Glyph) (rc : Rect) (ink : InkBox) (p : Painter) (scratch : Scratch) :
    (Painter × Scratch) × Except Fault Unit :=
  if (rc.intersect? p.window).isSome then
    match st.load g ink scratch with
    | .error e => ((p, scratch), .error e)
    | .ok (none, scratch) => ((p, scratch), .ok ())
    | .ok (some image, scratch) => (st.drawImage p scratch ink image, .ok ())
  else ((p, scratch), .ok ())

def drawLines (st : TextStyle) (lines : List (Point × Point)) (p : Painter) : Painter :=
  lines.foldl (fun p l => p.line l.1 l.2) (p.withInk st.textColor)

/-- Draws a glyph as planned. When its picture is at fault, the background stays drawn. -/
def drawPlanned (st : TextStyle) (g : Glyph) (pl : GlyphPlan) (p : Painter) (scratch : Scratch) :
    (Painter × Scratch) × Except Fault Advance :=
  match drawInk st g pl.rc pl.ink (drawGround st pl.area p) scratch with
  | (drawn, .error e) => (drawn, .error e)
  | ((p, scratch), .ok ()) => ((drawLines st pl.lines p, scratch), .ok pl.advance)

/-- Draws one glyph with the pen at `(x, y)` of the baseline. -/
def drawGlyph (page : TextPage) (st : TextStyle) (g : Glyph) (x y : Int) :
    TextPage × Except Fault Advance :=
  if g = Glyph.invalid then (page, .ok {})
  else
    let pl := plan st g x (y + st.lineExtra)
    match (pl.window.intersect? page.bound).bind (Painter.open? page.surface page.clip) with
    | none => (page, .ok pl.advance)
    | some p =>
      let ((p, scratch), advance) := drawPlanned st g pl p page.scratch
      ({ page with surface := p.surface, scratch := scratch }, advance)

def addAdvance (a b : Advance) : Advance := ⟨a.length + b.length, a.dx + b.dx, a.dy + b.dy⟩

/-- Draws glyphs one after another, `total` beyond the pen at `(x, y)`, up to the first fault. -/
def drawFrom (st : TextStyle) (x y : Int) :
    List Glyph → Advance → TextPage → TextPage × Except Fault Advance
  | [], total, page => (page, .ok total)
  | g :: gs, total, page =>
    match page.drawGlyph st g (x + total.dx) (y + total.dy) with
    | (page, .error e) => (page, .error e)
    | (page, .ok a) => drawFrom st x y gs (addAdvance total a) page

/-- Draws a text with the pen at `(x, y)` of the baseline. -/
def drawText (page : TextPage) (st : TextStyle) (glyphs : List Glyph) (x y : Int) :
    TextPage × Except Fault Advance :=
  drawFrom st x y glyphs {} page

end TextPage

end Rasterizer
