import Rasterizer.Font.Escaped
import Rasterizer.Font.Source

/-! Logical fonts: a request together with the source that serves it and, for glyphs
that ask for one, a second source. -/

namespace Rasterizer

/-- A font as it is selected for drawing. -/
structure LogicalFont extends FontRequest where
  main : GlyphSource
  second : Option GlyphSource := none

namespace LogicalFont

def ofSource (s : GlyphSource) : LogicalFont :=
  { size := s.height, ascent := s.ascent, descent := s.descent, main := s }

/-- The font with a second source; it grows to hold the glyphs of both. -/
def withSecond (f : LogicalFont) (s : GlyphSource) : LogicalFont :=
  let ascent := max f.ascent s.ascent
  let descent := max f.descent s.descent
  { f with
    ascent := ascent
    descent := descent
    size := max f.size (ascent + descent)
    second := some s }

def withStyle (f : LogicalFont) (style : FontStyle) : LogicalFont := { f with style := style }

def withRotation (f : LogicalFont) (tenths : Int) : LogicalFont := { f with rotation := tenths }

/-- The source that serves a glyph. -/
def sourceOf (f : LogicalFont) (g : Glyph) : GlyphSource :=
  if Glyph.asksSecond g then f.second.getD f.main else f.main

def angle (f : LogicalFont) : Int := Angle.ofTenths f.rotation

/-- Slanting is asked for and the main source does not do it by itself. -/
def slants (f : LogicalFont) : Bool :=
  f.style.contains .italic && !f.main.style.contains .italic

/-- What a slanted line of text takes beyond its advances. -/
def italicWidth (f : LogicalFont) : Int := if f.slants then (f.size + 1) / 2 else 0

def describe (f : LogicalFont) : String :=
  let second := match f.second with
    | some s => "Some(" ++ Escaped.quoted s.name ++ ")"
    | none => "None"
  "LogFont \x7b size: " ++ toString f.size ++ ", ascent: " ++ toString f.ascent ++
    ", descent: " ++ toString f.descent ++ ", rotation: " ++ toString f.rotation ++
    ", style: FontStyle(" ++ toString f.style.bits.toNat ++ "), sbc: " ++
    Escaped.quoted f.main.name ++ ", mbc: " ++ second ++ " \x7d"

end LogicalFont

end Rasterizer
