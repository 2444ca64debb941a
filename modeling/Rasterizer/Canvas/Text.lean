import Rasterizer.Canvas.Basic

/-! Text on a canvas. Without a font nothing is drawn and everything measures zero. -/

namespace Rasterizer.Canvas

/-- Draws a text at a logical point with the selected font, up to the first fault. -/
def drawText (c : Canvas) (x y : Int) (glyphs : List Glyph) : Canvas × Except Fault Advance :=
  match c.text.font, visibleRect? c.surface c.space with
  | some font, some bound =>
    let p := font.baselinePoint c.text.align.vert (c.toScreen x y)
    let (page, advance) := TextPage.drawText ⟨c.surface, c.clip, bound, c.scratch⟩
      (c.text.styleOf font) glyphs p.x p.y
    ({ c with surface := page.surface, scratch := page.scratch }, advance)
  | _, _ => (c, .ok {})

def drawGlyph (c : Canvas) (x y : Int) (g : Glyph) : Canvas × Except Fault Advance :=
  c.drawText x y [g]

/-- The length of a text's advances and the size of the box around it. -/
def textExtent (c : Canvas) (glyphs : List Glyph) : Int × Int × Int :=
  match c.text.font with
  | some font => (c.text.styleOf font).extent glyphs
  | none => (0, 0, 0)

def glyphInfo? (c : Canvas) (g : Glyph) : Option GlyphInfo :=
  c.text.font.bind fun font => font.glyphInfo? g

def italicWidth (c : Canvas) : Int :=
  match c.text.font with
  | some font => font.italicWidth
  | none => 0

end Rasterizer.Canvas
