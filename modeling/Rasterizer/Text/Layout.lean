import Rasterizer.Font.Logical
import Rasterizer.Rect
import Rasterizer.Text.Ramp

/-! Where the glyphs of a text stand. Each glyph advances the pen; boldness and a halo
around the ink take room of their own. -/

namespace Rasterizer

/-- The side of the text on which its position lies. -/
inductive HorzAlign where
  | left | right
deriving Repr, DecidableEq, Inhabited

/-- The height of the text at which its position lies. -/
inductive VertAlign where
  | top | baseline | bottom
deriving Repr, DecidableEq, Inhabited

structure TextAlign where
  horz : HorzAlign := .left
  vert : VertAlign := .top
deriving Repr, DecidableEq

/-- A font with everything that text in it depends on. -/
structure TextStyle where
  font : LogicalFont
  align : TextAlign
  textColor : Pixel
  background : Pixel
  /-- The background is left alone. -/
  transparent : Bool
  ramps : Ramps
  /-- Room added after each glyph. -/
  charExtra : Int
  /-- Rows added above each line. -/
  lineExtra : Int

structure GlyphInfo where
  box : GlyphBox
  advance : Advance
  height : Int
  descent : Int
  kind : GlyphKind
deriving Repr, DecidableEq

namespace LogicalFont

/-- How many columns wider a glyph is made to look bold: none unless bold is asked for, the source
is not bold by itself, and its pictures are bits. -/
def boldWidth (f : LogicalFont) (s : GlyphSource) : Int :=
  if f.style.contains .bold && !s.style.contains .bold && s.kind == .mono then s.scale else 0

/-- The ink of a glyph reaches one pixel beyond its picture. -/
def hasHalo (f : LogicalFont) (s : GlyphSource) : Bool :=
  s.kind == .mono && f.style.intersects (FontStyle.book.union .light)

/-- The metrics of a glyph; the invalid one has none. -/
def glyphInfo? (f : LogicalFont) (g : Glyph) : Option GlyphInfo :=
  if g = Glyph.invalid then none
  else
    let s := f.sourceOf g
    let a := s.advance f.toFontRequest (Glyph.index g)
    let extra : Int := if f.style.contains .bold then 1 else 0
    some
      { box := s.box f.toFontRequest (Glyph.index g)
        advance := ⟨a.length + extra, a.dx + extra, a.dy⟩
        height := s.height
        descent := s.descent
        kind := s.kind }

/-- The point of the baseline for a text positioned at `p`. -/
def baselinePoint (f : LogicalFont) (vert : VertAlign) (p : Point) : Point :=
  let down (length : Int) : Point :=
    if f.rotation = 0 then ⟨p.x, p.y + length⟩
    else
      let v := rotateVector length (Angle.ofTenths (f.rotation + 2700))
      ⟨p.x + v.x, p.y - v.y⟩
  match vert with
  | .baseline => p
  | .top => down f.ascent
  | .bottom => down (-f.descent)

end LogicalFont

structure Placement where
  length : Int
  move : Point
  box : GlyphBox
  /-- The columns added to look bold. -/
  bold : Int
deriving Repr, DecidableEq

namespace TextStyle

/-- The text runs from left to right of its position. -/
def runsRight (st : TextStyle) : Bool := st.align.horz == .left

/-- The place of a glyph with the pen at `(x, y)`. -/
def place (st : TextStyle) (g : Glyph) (x y : Int) : Placement :=
  let f := st.font
  let s := f.sourceOf g
  let box := s.box f.toFontRequest (Glyph.index g)
  let a := s.advance f.toFontRequest (Glyph.index g)
  let bold := f.boldWidth s
  let extra := bold + st.charExtra
  let more : Point :=
    if extra = 0 then ⟨0, 0⟩
    else if f.rotation = 0 then ⟨extra, 0⟩
    else
      let v := rotateVector extra f.angle
      ⟨v.x, -v.y⟩
  let dx := a.dx + more.x
  let dy := a.dy + more.y
  let halo : Int := if f.hasHalo s then 1 else 0
  { length := a.length + extra + halo
    move := if st.runsRight then ⟨dx + halo, dy⟩ else ⟨-dx - halo, -dy⟩
    box := ⟨box.x + x - (if st.runsRight then 0 else extra + a.length), box.y + y, box.w + bold, box.h⟩
    bold := bold }

end TextStyle

end Rasterizer
