import Rasterizer.Color
import Rasterizer.Point
import Rasterizer.Scalar

/-! Brushes. A brush gives each pixel of an area its value: one colour, or a pattern
repeated from an origin, so that neighbouring areas line up. Along a span it reads a tile in
chunks, each up to the edge of the tile, and a stipple bit by bit, and each access is checked. -/

namespace Rasterizer

/-- A picture to repeat. Its sides are 32-bit numbers, and so is the number of pixels that it is
asked to have. -/
structure Tile where
  width : Nat
  height : Nat
  pixels : Array Pixel
  width_pos : 0 < width
  height_pos : 0 < height
  size_pixels : pixels.size = width * height % 4294967296

/-- The tile of exactly so many pixels, as far as 32 bits can count them. -/
def Tile.ofPixels? (width height : Nat) (pixels : Array Pixel) : Option Tile :=
  if h : 0 < width ∧ 0 < height ∧ pixels.size = width * height % 4294967296 then
    some ⟨width, height, pixels, h.1, h.2.1, h.2.2⟩
  else none

/-- The pixel at `(x, y)` of the repeated tile. -/
def Tile.pixelAt (t : Tile) (x y : Int) : Pixel :=
  t.pixels.getD ((y % t.height).toNat * t.width + (x % t.width).toNat) 0

/-- All pixels of the tile are there. -/
def Tile.Whole (t : Tile) : Prop := t.pixels.size = t.width * t.height

instance (t : Tile) : Decidable t.Whole := inferInstanceAs (Decidable (_ = _))

/-- A mask of bits to repeat, the lowest bit of each byte first. -/
structure Stipple where
  width : Nat
  height : Nat
  /-- The bytes of one row. -/
  pitch : Nat
  bits : Array UInt8
  width_pos : 0 < width
  height_pos : 0 < height
  width_le_pitch : width ≤ pitch * 8
  pitch_le_bits : pitch * height ≤ bits.size

/-- The stipple of rows that hold all its bits. -/
def Stipple.ofBits? (width height pitch : Nat) (bits : Array UInt8) : Option Stipple :=
  if h : 0 < width ∧ 0 < height ∧ width ≤ pitch * 8 ∧ pitch * height ≤ bits.size then
    some ⟨width, height, pitch, bits, h.1, h.2.1, h.2.2.1, h.2.2.2⟩
  else none

/-- The bit at `(x, y)` of the repeated stipple. -/
def Stipple.bitAt (s : Stipple) (x y : Int) : Bool :=
  let x := (x % s.width).toNat
  (s.bits.getD (x / 8 + s.pitch * (y % s.height).toNat) 0).toNat.testBit (x % 8)

/-- `n` elements from `start` on. All of them must be there. -/
def slice {α : Type} (xs : Array α) (start n : Nat) : Except Fault (Array α) :=
  if start + n ≤ xs.size then pure (xs.extract start (start + n)) else throw .outOfRange

/-- Where a coordinate falls in a pattern repeated from the origin. The period is cast to a signed number of
32 bits. -/
def wrapped (v origin : Int) (period : Nat) : Nat := ((v - origin) % wrap32 period).toNat

/-- The pixels of `left` columns from `x` on, in chunks of a row of a tile of that width. Behind the end of
the row there is no chunk. -/
def chunksFrom (row : Array Pixel) (width : Nat) (origin x : Int) (left : Nat) :
    Except Fault (List (Int × Pixel)) :=
  if left = 0 then pure []
  else if width ≤ wrapped x origin width then throw .outOfRange
  else do
    let n := min (width - wrapped x origin width) left
    let chunk ← slice row (wrapped x origin width) n
    let rest ← chunksFrom row width origin (x + n) (left - n)
    return chunk.toList.mapIdx (fun i p => (x + i, p)) ++ rest
termination_by left
decreasing_by omega

def Stipple.bit? (s : Stipple) (x y : Nat) : Except Fault Bool :=
  match s.bits[x / 8 + s.pitch * y]? with
  | some v => pure (v.toNat.testBit (x % 8))
  | none => throw .outOfRange

inductive BrushKind where
  | solid
  | tiled
  /-- Its colour where the stipple is set. -/
  | stippled
  /-- Its colour where the stipple is set, else the background colour. -/
  | opaqueStippled
deriving Repr, DecidableEq, Inhabited

/-- A brush; without the pattern that its kind asks for it paints nothing. -/
structure Brush where
  kind : BrushKind := .solid
  color : Pixel := 0
  tile : Option Tile := none
  stipple : Option Stipple := none
  /-- Where a pattern begins. -/
  origin : Point := ⟨0, 0⟩

namespace Brush

/-- What the brush paints at `(x, y)`, if anything. -/
def pixelAt (b : Brush) (background : Pixel) (x y : Int) : Option Pixel :=
  let u := x - b.origin.x
  let v := y - b.origin.y
  match b.kind with
  | .solid => some b.color
  | .tiled => b.tile.map fun t => t.pixelAt u v
  | .stippled => b.stipple.bind fun s => if s.bitAt u v then some b.color else none
  | .opaqueStippled => b.stipple.map fun s => if s.bitAt u v then b.color else background

/-- What the brush paints of the `n` pixels of the row `y` from `x` on, by column. -/
def spanPixels (b : Brush) (background : Pixel) (y x : Int) : Nat → List (Int × Pixel)
  | 0 => []
  | n + 1 =>
    match b.pixelAt background x y with
    | some p => (x, p) :: spanPixels b background y (x + 1) n
    | none => spanPixels b background y (x + 1) n

/-- A span painted whole is painted as in two pieces. -/
theorem spanPixels_add (b : Brush) (background : Pixel) (y x : Int) (m n : Nat) :
    b.spanPixels background y x (m + n) =
      b.spanPixels background y x m ++ b.spanPixels background y (x + m) n := by
  induction m generalizing x with
  | zero => simp [spanPixels]
  | succ m ih =>
    have e : m + 1 + n = (m + n) + 1 := by omega
    have ex : x + 1 + (m : Int) = x + ((m + 1 : Nat) : Int) := by omega
    rw [e]
    simp only [spanPixels]
    split <;> simp [ih, ex]

/-- The pixels of `n` columns from `x` on, by the bits of a row of a stipple. Clear bits paint `clear`, if
anything. -/
def bitsFrom (b : Brush) (s : Stipple) (clear : Option Pixel) (row : Nat) (x : Int) :
    Nat → Except Fault (List (Int × Pixel))
  | 0 => pure []
  | n + 1 => do
    let set ← s.bit? (wrapped x b.origin.x s.width) row
    let rest ← bitsFrom b s clear row (x + 1) n
    return ((if set then some b.color else clear).map (x, ·)).toList ++ rest

/-- What the brush paints of the `w` pixels of the row `y` from `x` on, in the order in which it does. -/
def walk (b : Brush) (background : Pixel) (x y w : Int) : Except Fault (List (Int × Pixel)) :=
  if w ≤ 0 then pure []
  else
    match b.kind with
    | .solid => pure ((irange x (x + w - 1)).map fun cx => (cx, b.color))
    | .tiled =>
      match b.tile with
      | none => pure []
      | some t => do
        let row ← slice t.pixels (wrapped y b.origin.y t.height * t.width) t.width
        chunksFrom row t.width b.origin.x x w.toNat
    | .stippled =>
      match b.stipple with
      | none => pure []
      | some s => b.bitsFrom s none (wrapped y b.origin.y s.height) x w.toNat
    | .opaqueStippled =>
      match b.stipple with
      | none => pure []
      | some s => b.bitsFrom s (some background) (wrapped y b.origin.y s.height) x w.toNat

end Brush

end Rasterizer
