import Rasterizer.Surface

/-! What is kept from glyph to glyph: buffers for a picture while it is made ready, and three rows of
colours for the subpixel filter. They grow to the largest glyph and are never cleared. -/

namespace Rasterizer

/-- Buffers kept for reuse. What they hold between glyphs means nothing. -/
structure Scratch where
  /-- A picture of bits or of coverage while it is widened, magnified or mirrored. -/
  bits : Array UInt8 := #[]
  /-- A picture of colours while it is mirrored. -/
  pixels : Array Color := #[]
  /-- Three rows of colours read from the surface. -/
  above : Array Color := #[]
  here : Array Color := #[]
  below : Array Color := #[]
deriving Repr, DecidableEq

namespace Scratch

/-- A row with room for `n` colours. -/
def grow (row : Array Color) (n : Nat) : Array Color :=
  row ++ Array.replicate (n - row.size) default

/-- Three rows with room for `n` colours. -/
def prepare (b : Scratch) (n : Nat) : Scratch :=
  { b with above := grow b.above n, here := grow b.here n, below := grow b.below n }

/-- The three rows have room for `n` colours. -/
def hasRoom (b : Scratch) (n : Nat) : Bool :=
  n ≤ b.above.size && n ≤ b.here.size && n ≤ b.below.size

/-- The row with its first `n` colours replaced. -/
def overwrite (row : Array Color) (n : Nat) (color : Nat → Color) : Array Color :=
  (List.range n).foldl (fun row i => row.setIfInBounds i (color i)) row

/-- The colour of a pixel of the surface. -/
def colorAt (s : Surface) (outside : Color) (x y : Int) : Color :=
  match s.get? x y with
  | some v => s.format.getRgb v
  | none => outside

/-- The row with the colours of `n` pixels of the surface from `(x, y)` on. -/
def readRow (s : Surface) (n : Nat) (x y : Int) (outside : Color) (row : Array Color) :
    Array Color :=
  overwrite row n fun i => colorAt s outside (x + (i : Int)) y

/-- The row with the first `n` colours of another. -/
def copyRow (n : Nat) (source row : Array Color) : Array Color :=
  overwrite row n fun i => source.getD i default

end Scratch

end Rasterizer
