import Rasterizer.Text.Mark
import Rasterizer.Text.Ramp

/-! Glyphs of packed bits in three weights. The regular weight draws the runs of set
bits. The book weight spreads ink by a weighted count of the set bits around each
pixel, and the light weight surrounds it with background; both reach one pixel beyond
the picture, so the first and the last row each give two rows of marks. -/

namespace Rasterizer

namespace RegularWeight

/-- The marks of one run of set bits, `n` bits wide from the bit `x` on. -/
def runMarks (origin : Point) (scale row : Int) (slant : Slant) (text : Pixel) (x : Int) (n : Nat) :
    List Mark :=
  (irange 0 (scale - 1)).map fun i =>
    let left := origin.x + x * scale + slant.shift (row * scale + i)
    .span left (left + n * scale - 1) (origin.y + row * scale + i) text

/-- The marks of the runs that follow each other from the bit `x` on. -/
def rowMarks (origin : Point) (scale row : Int) (slant : Slant) (text : Pixel) :
    Int → List (Bool × Nat) → List Mark
  | _, [] => []
  | x, (set, n) :: rest =>
    (if set then runMarks origin scale row slant text x n else []) ++
      rowMarks origin scale row slant text (x + n) rest

def marks (b : BitPicture) (scale : Int) (origin : Point) (slant : Slant) (text : Pixel) :
    List Mark :=
  b.rowNumbers.flatMap fun i => rowMarks origin (max scale 1) i slant text 0 (b.row i).runs

end RegularWeight

/-- One for a set bit. -/
def BitRow.count (r : BitRow) (x : Int) : Nat := (r.get x).toNat

/-- The marks of the rows of a picture of height `h` in which the first and the last row take
two rows of the page. `rowMarks` is given the row, the column and row of the page, and whether
the row of marks lies on the picture's row or beyond its edge. -/
def haloMarks (h : Int) (origin : Point) (slant : Slant)
    (rowMarks : (row x y : Int) → (beyond : Bool) → List Mark) : List Mark :=
  (irange 0 (h - 1)).flatMap fun i =>
    let x := origin.x + slant.shift i
    if i = 0 then rowMarks i x origin.y true ++ rowMarks i x (origin.y + 1) false
    else if i = h - 1 then
      rowMarks i x (origin.y + i + 1) false ++ rowMarks i x (origin.y + i + 2) true
    else rowMarks i x (origin.y + i + 1) false

namespace BookWeight

/-- The weight beyond the edge of the picture. -/
def outer (cur : BitRow) (x : Int) : Nat := 3 * cur.count x + cur.count (x - 1) + cur.count (x + 1)

/-- The weight on the first or the last row, beside the row next to it. -/
def edge (cur side : BitRow) (x : Int) : Nat :=
  if cur.get x then 16
  else
    3 * cur.count (x - 1) + side.count (x - 1) + 3 * cur.count (x + 1) + side.count (x + 1) +
      3 * side.count x

/-- The weight on a row between two others, with rules of their own for the first column and
the last. -/
def inner (cur prev next : BitRow) (w x : Int) : Nat :=
  if cur.get x then 16
  else if x = 0 then 3 * prev.count 0 + prev.count 1 + 3 * next.count 0 + next.count 1
  else if x = w - 1 then
    3 * cur.count (x - 1) + 3 * prev.count x + prev.count (x - 1) + 3 * next.count x +
      next.count (x - 1)
  else
    3 * cur.count (x - 1) + 3 * cur.count (x + 1) + prev.count (x - 1) + 3 * prev.count x +
      prev.count (x + 1) + next.count (x - 1) + 3 * next.count x + next.count (x + 1)

/-- The weight at a bit of a row of the picture, or beside it beyond the edge. -/
def weight (b : BitPicture) (row : Int) (beyond : Bool) (x : Int) : Nat :=
  let cur := b.row row
  if beyond then outer cur x
  else if row = 0 then edge cur (b.row 1) x
  else if row = b.h - 1 then edge cur (b.row (row - 1)) x
  else inner cur (b.row (row - 1)) (b.row (row + 1)) b.w x

def marks (b : BitPicture) (origin : Point) (slant : Slant) (ramp : Array Color) : List Mark :=
  haloMarks b.h origin slant fun row x y beyond =>
    (irange 0 (b.w - 1)).filterMap fun k =>
      let wt := weight b row beyond k
      if wt = 0 then none else some (.blend (x + k) y (ramp.getD (min wt 16) default))

end BookWeight

namespace LightWeight

/-- The marks of one row: text on the set bits, background on the clear bits beside them. -/
def rowMarks (w x y : Int) (cur prev next : BitRow) (background text : Pixel) : List Mark :=
  (irange 0 (w - 1)).flatMap (fun k =>
    if cur.get k then
      (if k = 0 then [Mark.pixel x y background] else []) ++ [.pixel (x + k + 1) y text]
    else if cur.get (k - 1) || cur.get (k + 1) || prev.get k || next.get k then
      [.pixel (x + k + 1) y background]
    else []) ++
  if cur.get (w - 1) then [.pixel (x + w + 1) y background] else []

/-- The marks of a picture surrounded by background. -/
def marks (b : BitPicture) (origin : Point) (slant : Slant) (background text : Pixel) :
    List Mark :=
  haloMarks b.h origin slant fun row x y beyond =>
    if beyond then rowMarks b.w x y .empty .empty (b.row row) background text
    else rowMarks b.w x y (b.row row) (b.row (row - 1)) (b.row (row + 1)) background text

end LightWeight

end Rasterizer
