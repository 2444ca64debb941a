import Rasterizer.Point
import Rasterizer.Scalar

/-! Polygons that every row meets in one run. Such a polygon has two chains of edges
from its topmost to its bottommost vertex, and each chain gives one end of each run. -/

namespace Rasterizer.Polygon

/-- The signs of the vertical directions of the edges, level ones left out. -/
def directions (pts : List Point) : List Int :=
  (List.zipWith (fun p q => (q.y - p.y).sign) pts pts.tail).filter (· ≠ 0)

/-- How often neighbouring values differ. -/
def changes (ds : List Int) : Nat := (List.zipWith (fun a b => a != b) ds ds.tail).countP id

/-- The polygon surely has one run a row: it has fewer than four points, or it is closed
and turns between up and down at most twice. -/
def isMonotone (pts : List Point) : Bool :=
  pts.length < 4 || (pts.head? == pts.getLast? && changes (directions pts) ≤ 2)

/-- The columns of an edge on the rows from its upper end to just above its lower end; none
for an edge that does not go down. The way from one end to the other is taken in 32 bits. -/
def edgeColumns (p q : Point) : List Int :=
  let dx := wrap32 (q.x - p.x)
  let dy := wrap32 (q.y - p.y)
  if dy ≤ 0 then []
  else (irange p.y (q.y - 1)).map fun y => wrap32 (p.x + ceilDiv ((y - p.y) * dx) dy)

/-- The columns of the edges of a chain, one after another. -/
def chainColumns (chain : List Point) : List Int :=
  (List.zipWith edgeColumns chain chain.tail).flatten

/-- The place of the first vertex on the row `y`. -/
def firstOnRow (pts : List Point) (y : Int) : Nat := pts.findIdx fun p => p.y == y

def topRow (p : Point) (pts : List Point) : Int := pts.foldl (fun y q => min y q.y) p.y

def bottomRow (p : Point) (pts : List Point) : Int := pts.foldl (fun y q => max y q.y) p.y

/-- The runs of a polygon with one run a row, downwards. On a row that a chain does not
reach its end counts as column zero. -/
def monotoneRuns : List Point → List Run
  | [] => []
  | p :: rest =>
    let pts := p :: rest
    let n := pts.length
    let top := topRow p rest
    let bottom := bottomRow p rest
    if n < 3 ∨ top = bottom then []
    else
      let cycle := pts.rotateLeft (firstOnRow pts top)
      let m := (firstOnRow pts bottom + n - firstOnRow pts top) % n
      let backward := (cycle.take 1 ++ (cycle.drop 1).reverse).take (n - m + 1)
      let left := (chainColumns backward).toArray
      let right := (chainColumns (cycle.take (m + 1))).toArray
      (List.range (bottom - top).toNat).map fun i =>
        ⟨left.getD i 0, right.getD i 0, top + (i : Int)⟩

end Rasterizer.Polygon
