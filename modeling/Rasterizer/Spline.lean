import Rasterizer.Point
import Rasterizer.Scalar

/-! Cubic curves through four control points, drawn as short polylines by forward
differences. The number of points grows with the square root of the length of the
control polygon. -/

namespace Rasterizer

/-- The four control points of a cubic curve. -/
structure Spline where
  p0 : Point
  p1 : Point
  p2 : Point
  p3 : Point
deriving Repr, DecidableEq

namespace Spline

/-- The most points that a curve is drawn with by itself. -/
def maxPoints : Nat := 64

def distance (a b : Point) : Float :=
  let dx := Float.ofInt (b.x - a.x)
  let dy := Float.ofInt (b.y - a.y)
  Float.sqrt (dx * dx + dy * dy)

def pointCount (s : Spline) : Nat :=
  let length := distance s.p0 s.p1 + distance s.p1 s.p2 + distance s.p2 s.p3
  min (max (Float.sqrt length * 1.2).toUInt64.toNat 2) maxPoints

/-- `n` further values, each reached by adding the differences of all orders. -/
def extend (dddv : Float) : Nat → Float → Float → Float → List Int
  | 0, _, _, _ => []
  | n + 1, ddv, dv, v =>
    let ddv := ddv + dddv
    let dv := dv + ddv
    let v := v + dv
    truncate v :: extend dddv n ddv dv v

def coordinates (c0 c1 c2 c3 : Float) (n : Nat) : List Int :=
  let dt := 1.0 / Float.ofNat (n - 1)
  let dt2 := dt * dt
  let dt3 := dt2 * dt
  let second := dt2 * 3.0 * (c2 - 2.0 * c1 + c0)
  let third := dt3 * (c3 + 3.0 * (c1 - c2) - c0)
  let ddv := -6.0 * third + 2.0 * second
  let dv := third - second + 3.0 * dt * (c1 - c0)
  truncate c0 :: extend (6.0 * third) (n - 1) ddv dv (c0 + 0.5)

/-- The curve as `n` points, two at least. -/
def pointsOf (s : Spline) (n : Nat) : List Point :=
  let n := max n 2
  let xs := coordinates (.ofInt s.p0.x) (.ofInt s.p1.x) (.ofInt s.p2.x) (.ofInt s.p3.x) n
  let ys := coordinates (.ofInt s.p0.y) (.ofInt s.p1.y) (.ofInt s.p2.y) (.ofInt s.p3.y) n
  List.zipWith Point.mk xs ys

def points (s : Spline) : List Point := s.pointsOf s.pointCount

end Spline

end Rasterizer
