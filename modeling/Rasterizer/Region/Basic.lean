import Rasterizer.Rect
import Rasterizer.Region.Row

/-! Regions: sets of pixels as lists of rectangles in bands. The rectangles of a band
share top and bottom and are sorted by column with gaps between them; bands follow
each other downwards, and two that touch differ in their columns. Equal sets of
pixels therefore have equal lists. -/

namespace Rasterizer

structure Region where
  rects : List Rect
  /-- The smallest rectangle around all of them, `Rect.zero` for none. -/
  bound : Rect
deriving Repr, DecidableEq

namespace Region

/-- Rows that all hold the same columns. -/
structure Band where
  top : Int
  bottom : Int
  row : List Interval
deriving Repr, DecidableEq

def Band.rects (b : Band) : List Rect := b.row.map fun iv => ⟨iv.1, b.top, iv.2, b.bottom⟩

/-- The bands with one more above, joined to the first when they touch and hold the same columns. -/
def Band.joinOnto (b : Band) : List Band → List Band
  | [] => [b]
  | c :: more =>
    if b.bottom = c.top ∧ b.row = c.row then ⟨b.top, c.bottom, b.row⟩ :: more
    else b :: c :: more

/-- Joins bands that touch and hold the same columns. -/
def joinBands (bands : List Band) : List Band := bands.foldr Band.joinOnto []

/-- The columns of the rectangles that reach over all rows from `y0` to `y1`. -/
def columnsAt (rects : List Rect) (y0 y1 : Int) : List Interval :=
  merged ((rects.filter fun rc => rc.top ≤ y0 && y1 ≤ rc.bottom).map fun rc => (rc.left, rc.right))

/-- The top and bottom rows of all rectangles. -/
def rowEnds (rects : List Rect) : List Int := rects.flatMap fun rc => [rc.top, rc.bottom]

/-- The strips between neighbouring tops and bottoms, with the columns that the operation keeps. -/
def strips (op : SetOp) (a b : List Rect) : List Band :=
  (cells (cuts (rowEnds a ++ rowEnds b))).map fun c =>
    ⟨c.1, c.2, combineRows op (columnsAt a c.1 c.2) (columnsAt b c.1 c.2)⟩

/-- The bands of the pixels that the operation keeps. -/
def combineBands (op : SetOp) (a b : List Rect) : List Band :=
  joinBands ((strips op a b).filter fun band => !band.row.isEmpty)

/-- The region of the given rectangles, with its bound. -/
def ofBandRects (rects : List Rect) : Region := ⟨rects, rects.foldl Rect.bound .zero⟩

/-- The pixels that the operation keeps of a region and a list of rectangles. -/
def combine (op : SetOp) (a : Region) (other : List Rect) : Region :=
  ofBandRects ((combineBands op a.rects (other.filter fun rc => !rc.isEmpty)).flatMap Band.rects)

def empty : Region := ⟨[], .zero⟩

def ofRect (rc : Rect) : Region :=
  if rc.normalized.isEmpty then empty else ⟨[rc.normalized], rc.normalized⟩

def unionRect (a : Region) (rc : Rect) : Region := combine .union a [rc.normalized]

def intersectRect (a : Region) (rc : Rect) : Region := combine .intersect a [rc.normalized]

def subtractRect (a : Region) (rc : Rect) : Region := combine .subtract a [rc.normalized]

def union (a b : Region) : Region := combine .union a b.rects

def intersect (a b : Region) : Region := combine .intersect a b.rects

/-- The pixels of any of the rectangles. -/
def ofRects (rects : List Rect) : Region := rects.foldl unionRect empty

/-- The region moved. -/
def shift (a : Region) (dx dy : Int) : Region :=
  ⟨a.rects.map fun rc => rc.shift dx dy,
    if a.rects.isEmpty then a.bound else a.bound.shift dx dy⟩

/-- The region moved in 32 bits. -/
def offset (a : Region) (dx dy : Int) : Region :=
  ⟨a.rects.map fun rc => rc.offset dx dy,
    if a.rects.isEmpty then a.bound else a.bound.offset dx dy⟩

def isEmpty (a : Region) : Bool := a.rects.isEmpty

/-- The rectangles that reach over the row `y`, in order of their columns. -/
def rowRects (a : Region) (y : Int) : List Rect :=
  a.rects.filter fun rc => rc.top ≤ y && y < rc.bottom

/-- The region and the rectangle share a pixel. -/
def overlapsRect (a : Region) (rc : Rect) : Bool :=
  a.bound.overlaps rc && a.rects.any fun r => r.overlaps rc

end Region

end Rasterizer
