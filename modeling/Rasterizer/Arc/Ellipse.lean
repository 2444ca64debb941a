import Rasterizer.Arc.Sweep
import Rasterizer.Ellipse
import Rasterizer.Rect

/-! Arcs of ellipses given by a box and a sweep: the outline, the pie slice and the ring
of a wide pen. Each looks only at the pixels of a clip rectangle and asks of every
one whether its direction belongs to the sweep. -/

namespace Rasterizer

/-- An arc of the ellipse in a box, with its angles in 64ths of a degree. -/
structure EllipseArc where
  x : Int
  y : Int
  width : Int
  height : Int
  angle : Int
  extent : Int
deriving Repr, DecidableEq

/-- The runs of the pixels that are kept among `n` pixels of the row `y` from `x` on. `opened`
is the start of the run that is open before them. -/
def keptRuns (keep : Int → Bool) (y : Int) : Nat → Int → Option Int → List Run
  | 0, _, none => []
  | 0, x, some s => [⟨s, x - 1, y⟩]
  | n + 1, x, opened =>
    match keep x, opened with
    | true, none => keptRuns keep y n (x + 1) (some x)
    | false, some s => ⟨s, x - 1, y⟩ :: keptRuns keep y n (x + 1) none
    | _, _ => keptRuns keep y n (x + 1) opened

/-- The maximal runs of kept pixels between two columns inclusive. -/
def runsWhere (keep : Int → Bool) (x1 x2 y : Int) : List Run :=
  keptRuns keep y (x2 - x1 + 1).toNat x1 none

namespace EllipseArc

def rx (a : EllipseArc) : Int := a.width.tdiv 2

def ry (a : EllipseArc) : Int := a.height.tdiv 2

def centre (a : EllipseArc) : Point := ⟨a.x + a.rx, a.y + a.ry⟩

def sweep (a : EllipseArc) : Sweep := .ofSigned a.angle a.extent

/-- The direction of an offset from the centre, measured on the circle that the ellipse
is stretched from. -/
def parametricAngle (dx dy rx ry : Int) : Int :=
  let a := Float.atan2 (-(Float.ofInt dy) * Float.ofInt (max rx 1))
    (Float.ofInt dx * Float.ofInt (max ry 1))
  truncate (Float.round (Angle.degreesOfRadians a * 64.0)) % Angle.fullTurn

/-- The offset is the centre, or its direction belongs to the sweep. -/
def keepsOffset (a : EllipseArc) (dx dy : Int) : Bool :=
  (dx == 0 && dy == 0) || a.sweep.contains (parametricAngle dx dy a.rx a.ry)

/-- Row by row, then by column. -/
def pointLe (p q : Point) : Bool := p.y < q.y || (p.y = q.y && p.x ≤ q.x)

/-- The pixels of the outline inside the rectangle, each once, row by row. -/
def outline (a : EllipseArc) (clip : Rect) : List Point :=
  let c := a.centre
  let ends := (Ellipse.runs c a.rx a.ry).flatMap fun r =>
    [(⟨r.x1, r.y⟩ : Point), ⟨r.x2, r.y⟩]
  let inside := (ends.filter fun p => clip.contains p.x p.y).mergeSort pointLe
  inside.eraseReps.filter fun p => a.keepsOffset (p.x - c.x) (p.y - c.y)

/-- The runs of one row of the pie slice between two columns. -/
def sliceRow (a : EllipseArc) (x1 x2 y : Int) : List Run :=
  if x2 < x1 then []
  else if a.sweep.isFull then [⟨x1, x2, y⟩]
  else runsWhere (fun x => a.keepsOffset (x - a.centre.x) (y - a.centre.y)) x1 x2 y

/-- The first row of the whole ellipse. -/
def top (a : EllipseArc) : Int := a.centre.y - max a.ry 0

/-- The runs of the pie slice on the rows from the given number up to before `stop`, counted from the top
of the ellipse, between the columns of the rectangle. -/
def sliceRows (a : EllipseArc) (clip : Rect) (first stop : Nat) : List Run :=
  let rows := Ellipse.rowExtents a.centre a.rx a.ry
  (List.range' first (min stop rows.size - first)).flatMap fun i : Nat =>
    match rows[i]? with
    | some (some (x1, x2)) =>
      a.sliceRow (max x1 clip.left) (min x2 (clip.right - 1)) (a.top + (i : Int))
    | _ => []

/-- The runs of the pie slice inside the rectangle. -/
def pie (a : EllipseArc) (clip : Rect) : List Run :=
  a.sliceRows clip (clip.top - a.top).toNat (clip.bottom - a.top).toNat

/-- The same runs, found with the rows of the rectangle counted in 32 bits. -/
def slice (a : EllipseArc) (clip : Rect) : List Run :=
  a.sliceRows clip (wrap32 (clip.top - a.top)).toNat (wrap32 (clip.bottom - a.top)).toNat

/-- The offset lies in the ellipse of the given half axes; one without a positive axis is empty. -/
def inEllipse (dx dy ax ay : Float) : Bool :=
  if ax ≤ 0.0 || ay ≤ 0.0 then false
  else (dx * dx) / (ax * ax) + (dy * dy) / (ay * ay) ≤ 1.0

/-- Half the width of a pen, which is one pixel wide at least. -/
def halfWidth (penWidth : Int) : Float := Float.ofInt (max penWidth 1) / 2.0

/-- The offset lies between the ellipses half a pen outside and half a pen inside the arc. -/
def inRing (a : EllipseArc) (penWidth dx dy : Int) : Bool :=
  let hw := halfWidth penWidth
  let rx := Float.ofInt a.rx
  let ry := Float.ofInt a.ry
  inEllipse (.ofInt dx) (.ofInt dy) (rx + hw) (ry + hw) &&
    !inEllipse (.ofInt dx) (.ofInt dy) (rx - hw) (ry - hw)

/-- How far a ring reaches from the centre on an axis of the given radius. -/
def reach (radius penWidth : Int) : Int :=
  truncate (Float.ceil (Float.ofInt radius + halfWidth penWidth))

/-- The runs of the arc drawn with a wide pen, inside the rectangle. -/
def ring (a : EllipseArc) (penWidth : Int) (clip : Rect) : List Run :=
  let c := a.centre
  let rx := reach a.rx penWidth
  let ry := reach a.ry penWidth
  (irange (max (-ry) (clip.top - c.y)) (min ry (clip.bottom - 1 - c.y))).flatMap fun dy =>
    runsWhere (fun x => a.inRing penWidth (x - c.x) dy && a.keepsOffset (x - c.x) dy)
      (max (c.x - rx) clip.left) (min (c.x + rx) (clip.right - 1)) (c.y + dy)

end EllipseArc

end Rasterizer
