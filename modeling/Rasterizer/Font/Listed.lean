import Rasterizer.Font.Source

/-! Sources that list their glyphs one by one, each with metrics and pictures of its own.
Nothing ties the pictures to the metrics. -/

namespace Rasterizer

/-- A glyph with whatever its source has of it. -/
structure ListedGlyph where
  glyph : UInt32
  length : Int
  box : GlyphBox
  bitmap : Option GlyphBitmap := none
  pixels : Option GlyphPixels := none

/-- A source with the given glyphs. A glyph that is not listed has no size and no picture. -/
def GlyphSource.ofList (name : String) (style : FontStyle) (kind : GlyphKind)
    (height ascent descent : Int) (scale : Nat) (glyphs : List ListedGlyph) : GlyphSource :=
  let find (g : UInt32) : Option ListedGlyph := glyphs.find? fun e => e.glyph == g
  let bitmap (g : UInt32) : Option GlyphBitmap := (find g).bind ListedGlyph.bitmap
  { name := name
    style := style
    kind := kind
    height := height
    ascent := ascent
    descent := descent
    scale := scale
    hasGlyph := fun g => (find g).isSome
    advance := fun r g => .along (((find g).map ListedGlyph.length).getD 0) r.rotation
    box := fun _ g => ((find g).map ListedGlyph.box).getD {}
    mono? := fun _ g => bitmap g
    grey? := fun _ g => bitmap g
    pixels? := fun _ g => (find g).bind ListedGlyph.pixels }

end Rasterizer
