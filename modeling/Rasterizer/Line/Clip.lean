import Rasterizer.Line.Walk
import Rasterizer.Rect
import Rasterizer.Scalar

/-! Clipping a line to a rectangle. The visible pixels of the walk are one stretch of
its moves; the ends of that stretch follow from exact division, and the walk is
entered there, so it meets the pixels that the whole walk meets inside. -/

namespace Rasterizer

/-- The sides of the rectangle beyond which `(x, y)` lies: 1 left, 2 right, 4 above, 8 below. -/
def Rect.outcode (clip : Rect) (x y : Int) : Nat :=
  (if x < clip.left then 1 else if clip.right ≤ x then 2 else 0) |||
    (if y < clip.top then 4 else if clip.bottom ≤ y then 8 else 0)

namespace LineWalk

/-- The coordinates between which a walk of the given sign takes steps `lo` to `hi`. -/
def stepBounds (forward : Bool) (start lo hi : Int) : Int × Int :=
  if forward then (lo - start, hi - start) else (start - hi, start - lo)

/-- The first and the last move of a walk whose place lies inside. Along the longer axis the walk
goes from `a0` over the distance `da`, and inside means from `alo` to `ahi`; along the shorter
axis likewise. -/
def movesWithin? (a0 da alo ahi b0 db blo bhi : Int) : Option (Int × Int) :=
  let major : Int := da.natAbs
  let minor : Int := db.natAbs
  let error := major / 2
  let (klo, khi) := stepBounds (0 < da) a0 alo ahi
  let (flo, fhi) := stepBounds (0 < db) b0 blo bhi
  if minor = 0 then
    if 0 < flo ∨ fhi < 0 then none
    else
      let first := max klo 0
      let last := min khi major
      if last < first then none else some (first, last)
  else
    let first := max (max klo 0) (ceilDiv (flo * major - error) minor)
    let last := min (min khi major) (floorDiv ((fhi + 1) * major - error - 1) minor)
    if last < first then none else some (first, last)

/-- The first and the last move of the walk from `p` to `q` whose place lies inside. -/
def visibleMoves? (p q : Point) (clip : Rect) : Option (Int × Int) :=
  let dx := q.x - p.x
  let dy := q.y - p.y
  if dy.natAbs ≤ dx.natAbs then
    movesWithin? p.x dx clip.left (clip.right - 1) p.y dy clip.top (clip.bottom - 1)
  else movesWithin? p.y dy clip.top (clip.bottom - 1) p.x dx clip.left (clip.right - 1)

/-- Of a walk from `p` to `q`, given whole and from one move to another, the part that lies in the rectangle, if
there is one. -/
def cut? (p q : Point) (clip : Rect) (whole : LineWalk) (part : Int → Int → LineWalk) : Option LineWalk :=
  let first := clip.outcode p.x p.y
  let last := clip.outcode q.x q.y
  if (first &&& last) ≠ 0 ∨ clip.isEmpty then none
  else if (first ||| last) = 0 then some whole
  else (visibleMoves? p q clip).map fun k => part k.1 k.2

/-- The part of the walk from `p` to `q` that lies in the rectangle, if there is one. -/
def clipped? (p q : Point) (clip : Rect) : Option LineWalk :=
  cut? p q clip (between p q) (between p q).window

/-! ## Walks of 32-bit numbers -/

/-- The walk from `p` to `q` by the low 32 bits of its distances. It ends level with `q`. -/
def between32 (p q : Point) : LineWalk :=
  let dx := wrap32 (wrap32 (q.x - p.x)).natAbs
  let dy := wrap32 (wrap32 (q.y - p.y)).natAbs
  { between p q with
    moves := if dy ≤ dx then (q.x - p.x).natAbs else (q.y - p.y).natAbs
    major := max dx dy
    minor := min dx dy
    alongX := dy ≤ dx
    error := max dx dy / 2 }

/-- The part of the walk that is found by the low 32 bits of its moves. -/
def window32 (w : LineWalk) (first last : Int) : LineWalk :=
  if w.major = 0 then w
  else
    let v := w.window (wrap32 first) (wrap32 last)
    { v with
      start := v.start.wrap
      moves := ((wrap32 last - wrap32 first) % 4294967296).toNat
      error := wrap32 v.error }

/-- The places met by `n` moves from `p` that keep the low 32 bits of the error and of each place. -/
def trail32 (w : LineWalk) : Nat → Point → Int → List Point
  | 0, p, _ => [p]
  | n + 1, p, error =>
    let e := wrap32 (error + w.minor)
    if w.major ≤ e then p :: trail32 w n (w.step p true).wrap (wrap32 (e - w.major))
    else p :: trail32 w n (w.step p false).wrap e

def points32 (w : LineWalk) : List Point := w.trail32 w.moves w.start w.error

/-- The part of a walk of 32-bit numbers that lies in the rectangle, if there is one; where it does is still
found by exact division. -/
def clipped32? (p q : Point) (clip : Rect) : Option LineWalk :=
  cut? p q clip (between32 p q) (between32 p q).window32

/-- The distances between the points, and the error carried from move to move, fit in 32 bits. A line along a row
or a column carries no error. -/
def Fits (p q : Point) : Prop :=
  p.x = q.x ∨ p.y = q.y ∨
    (p.Fits ∧ q.Fits) ∧ (q.x - p.x).natAbs + (q.y - p.y).natAbs ≤ 2147483648

instance (p q : Point) : Decidable (Fits p q) := inferInstanceAs (Decidable (_ ∨ _))

end LineWalk

end Rasterizer
