import Rasterizer.Point
import Rasterizer.Scalar

/-! Polygons of any shape, filled where a row has crossed an odd number of edges. The
scan keeps the edges that meet the current row in order of their columns and pairs
them off. Columns are counted in `2 ^ 18`ths of a pixel. -/

namespace Rasterizer.Polygon

/-- Parts of a pixel in which the columns of edges are counted. -/
def unit : Int := 262144

/-- An edge that goes down from row `top` to row `bottom`, both inclusive. -/
structure Edge where
  top : Int
  bottom : Int
  /-- The column on the current row. -/
  x : Int
  /-- What the column gains from row to row. -/
  slope : Int
  /-- How far the edge spreads on one row. -/
  spread : Int
deriving Repr, DecidableEq

namespace Edge

/-- The edge between two points from its upper to its lower end. -/
def down (a b : Point) : Edge :=
  let slope := ((b.x - a.x) * unit).tdiv (b.y - a.y)
  let x := a.x * unit + unit / 2 - 1
  { top := a.y
    bottom := b.y - 1
    x := if slope < 0 then x + min (slope + unit) 0 else x
    slope := slope
    spread := max ((slope.natAbs : Int) - unit) 0 }

/-- The edge between two points, unless it is level. -/
def between? (a b : Point) : Option Edge :=
  if a.y = b.y then none else if b.y < a.y then some (down b a) else some (down a b)

/-- The order in which edges that start on a row are put in their places. -/
def startKey (e : Edge) : Int := e.x + (e.spread + e.slope).tdiv 2

/-- The order of the edges on a row. -/
def rowKey (e : Edge) : Int := e.x + e.spread.tdiv 2

/-- The edge `rows` rows further down. -/
def advance (e : Edge) (rows : Int) : Edge := { e with x := e.x + e.slope * rows }

/-- The edge as it enters the rows from `top` on. -/
def enterAt (top : Int) (e : Edge) : Edge :=
  if e.top < top then { e.advance (top - e.top) with top := top } else e

end Edge

/-- The edges of the closed polygon, each from a vertex back to the one before it. -/
def edges (pts : List Point) : List Edge :=
  (List.zipWith Edge.between? pts (pts.rotateRight 1)).filterMap id

/-- The list with `e` before the first edge that does not come before it. -/
def insertEdge (active : List Edge) (e : Edge) : List Edge :=
  active.takeWhile (fun a => a.startKey < e.startKey) ++
    e :: active.dropWhile (fun a => a.startKey < e.startKey)

/-- The runs between the edges of each pair. -/
def pairRuns (y : Int) : List Edge → List Run
  | a :: b :: rest => ⟨a.x / unit, (b.x + b.spread) / unit, y⟩ :: pairRuns y rest
  | _ => []

/-- The edges that go on below the row `y`, in order on the next row. -/
def nextRow (y : Int) (active : List Edge) : List Edge :=
  ((active.filter fun e => y < e.bottom).map fun e => e.advance 1).mergeSort
    fun a b => a.rowKey ≤ b.rowKey

/-- The edges that meet the row `y`, of those met on it so far and those that start there. -/
def activeOn (active : List Edge) (starting : List Edge) : List Edge :=
  starting.foldl insertEdge active

/-- The runs of the given rows, which follow each other downwards. `pending` holds the edges
yet to start, sorted by their top row. -/
def scanRows : List Int → List Edge → List Edge → List Run
  | [], _, _ => []
  | y :: ys, pending, active =>
    let now := activeOn active (pending.takeWhile fun e => e.top = y)
    pairRuns y now ++ scanRows ys (pending.dropWhile fun e => e.top = y) (nextRow y now)

/-- The smallest of the values, at most `v`. -/
def least (v : Int) (vs : List Int) : Int := vs.foldl min v

/-- The largest of the values, at least `v`. -/
def greatest (v : Int) (vs : List Int) : Int := vs.foldl max v

/-- The runs of a polygon, row by row, between the two given rows inclusive if there are any. -/
def evenOddRuns (pts : List Point) (rows : Option (Int × Int)) : List Run :=
  if pts.length < 3 then []
  else
    match edges pts with
    | [] => []
    | e :: es =>
      let all := e :: es
      let top := least e.top (es.map Edge.top)
      let bottom := greatest e.bottom (es.map Edge.bottom)
      let first := match rows with
        | some (t, _) => max top t
        | none => top
      let last := match rows with
        | some (_, b) => min bottom b
        | none => bottom
      let pending := ((all.filter fun a => first ≤ a.bottom).map (Edge.enterAt first)).mergeSort
        fun a b => a.top ≤ b.top
      scanRows (irange first last) pending []

end Rasterizer.Polygon
