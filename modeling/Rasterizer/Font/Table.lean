import Rasterizer.Bitmap.BitRow
import Rasterizer.Font.Source

/-! Fonts held in tables. All glyphs of a table have the height of the font; their
numbers follow each other. Metrics are multiplied by the scale, pictures are not. -/

namespace Rasterizer

/-- A glyph of a table: its width and the elements of its rows. -/
structure TableGlyph (α : Type) where
  width : Nat
  data : Array α
deriving Repr, DecidableEq

/-- Glyphs of one height, numbered from `first` on. -/
structure GlyphTable (α : Type) where
  name : String
  height : Nat
  ascent : Nat
  first : UInt32
  scale : Nat
  style : FontStyle
  glyphs : Array (TableGlyph α)
  /-- The elements of a row of the given width. -/
  rowSize : Nat → Nat
  ascent_le_height : ascent ≤ height
  size_data : ∀ g ∈ glyphs, g.data.size = rowSize g.width * height

namespace GlyphTable

variable {α : Type}

/-- The table of the given glyphs; it has glyphs, its rows have a height that the ascent fits
into, and each glyph has the elements that its width asks for. -/
def build? (name : String) (height ascent : Nat) (first : UInt32) (rowSize : Nat → Nat)
    (glyphs : Array (TableGlyph α)) : Option (GlyphTable α) :=
  if height = 0 ∨ glyphs.isEmpty then none
  else if h : ascent ≤ height ∧ ∀ g ∈ glyphs, g.data.size = rowSize g.width * height then
    some ⟨name, height, ascent, first, 1, .regular, glyphs, rowSize, h.1, h.2⟩
  else none

/-- The table at that scale, one at least. -/
def withScale (t : GlyphTable α) (scale : Nat) : GlyphTable α := { t with scale := max scale 1 }

/-- The table of pictures that have that style by themselves. -/
def withStyle (t : GlyphTable α) (style : FontStyle) : GlyphTable α := { t with style := style }

def glyph? (t : GlyphTable α) (g : UInt32) : Option (TableGlyph α) :=
  if g < t.first then none else t.glyphs[(g - t.first).toNat]?

/-- The width of a glyph at the table's scale, 0 for an unknown one. -/
def widthOf (t : GlyphTable α) (g : UInt32) : Int :=
  match t.glyph? g with
  | some e => e.width * t.scale
  | none => 0

/-- The table as a source of the given kind, without its pictures. -/
def metricsSource (t : GlyphTable α) (kind : GlyphKind) : GlyphSource where
  name := t.name
  style := t.style
  kind := kind
  height := t.height * t.scale
  ascent := t.ascent * t.scale
  descent := (t.height - t.ascent : Nat) * t.scale
  scale := t.scale
  hasGlyph g := (t.glyph? g).isSome
  advance r g := .along (t.widthOf g) r.rotation
  box _ g := ⟨0, -(t.ascent * t.scale : Int), t.widthOf g, t.height * t.scale⟩

/-- The picture of a glyph with the row size of the table. -/
def bitmap? (t : GlyphTable UInt8) (g : UInt32) : Option GlyphBitmap :=
  (t.glyph? g).map fun e => ⟨e.data, t.rowSize e.width, t.scale⟩

def monoSource (t : GlyphTable UInt8) : GlyphSource :=
  { t.metricsSource .mono with mono? := fun _ g => t.bitmap? g }

def greySource (t : GlyphTable UInt8) : GlyphSource :=
  { t.metricsSource .grey with grey? := fun _ g => t.bitmap? g }

def subpixelSource (t : GlyphTable UInt8) : GlyphSource :=
  { t.metricsSource .subpixel with grey? := fun _ g => t.bitmap? g }

def prerenderedSource (t : GlyphTable Color) : GlyphSource :=
  { t.metricsSource .prerendered with
    pixels? := fun _ g => (t.glyph? g).map fun e => ⟨e.width, t.height, e.data⟩ }

/-- The bytes of a row of bits. -/
def bitRowSize (width : Nat) : Nat := (width + 7) / 8

/-- A table of bits from packed glyphs of one width, one after another. -/
def ofPackedBits? (name : String) (width height ascent : Nat) (first : UInt32)
    (bits : Array UInt8) : Option (GlyphTable UInt8) :=
  let size := bitRowSize width * height
  if size = 0 ∨ bits.size % size ≠ 0 then none
  else
    build? name height ascent first bitRowSize
      (Array.ofFn fun i : Fin (bits.size / size) =>
        ⟨width, bits.extract (i.val * size) (i.val * size + size)⟩)

def ofGrey? (name : String) (height ascent : Nat) (first : UInt32)
    (glyphs : Array (TableGlyph UInt8)) : Option (GlyphTable UInt8) :=
  build? name height ascent first id glyphs

def ofSubpixel? (name : String) (height ascent : Nat) (first : UInt32)
    (glyphs : Array (TableGlyph UInt8)) : Option (GlyphTable UInt8) :=
  build? name height ascent first (· * 3) glyphs

def ofColors? (name : String) (height ascent : Nat) (first : UInt32)
    (glyphs : Array (TableGlyph Color)) : Option (GlyphTable Color) :=
  build? name height ascent first id glyphs

end GlyphTable

end Rasterizer
