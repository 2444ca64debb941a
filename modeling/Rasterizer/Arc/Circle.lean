import Rasterizer.Angle
import Rasterizer.Point

/-! Arcs of circles, pixel by pixel. The walk starts at the rounded start of the arc
and goes counter-clockwise, always to the neighbour nearest to the true radius, until
it meets the rounded end. -/

namespace Rasterizer.CircleArc

/-- The rounded point at an angle of the circle of radius `r` around the origin. -/
def pointAt (r angle : Int) : Point :=
  let t := Angle.toRadians angle
  let s := -(Float.sin t) * Float.ofInt r
  let c := Float.cos t * Float.ofInt r
  ⟨roundHalfOut c, roundHalfOut s⟩

/-- The quadrant of an offset from the centre, counter-clockwise from the upper right. -/
def quadrant (p : Point) : Int :=
  if 0 ≤ p.x then (if p.y ≤ 0 then 0 else 3) else if p.y < 0 then 1 else 2

/-- A place on the walk and the directions in which it goes on. -/
structure Place where
  offset : Point
  /-- The quadrant, counted on beyond a full turn. -/
  quadrant : Int
  dx : Int
  dy : Int
deriving Repr, DecidableEq

def Place.start (p : Point) : Place :=
  let q := CircleArc.quadrant p
  ⟨p, q, if q = 0 ∨ q = 1 then -1 else 1, if q = 0 ∨ q = 3 then -1 else 1⟩

/-- The quadrant in which a walk from `p` to `q` ends. A walk that ends in the quadrant of
its start goes round once more when `wraps`. -/
def lastQuadrant (p q : Point) (wraps : Bool) : Int :=
  let first := quadrant p
  let last := quadrant q
  if last < first then last + 4
  else if first = last ∧ wraps then last + 4
  else last

/-- The walk stands on the axis that ends its quadrant. -/
def Place.onAxis (w : Place) : Bool :=
  if w.quadrant % 2 = 0 then w.offset.x = 0 else w.offset.y = 0

/-- The place as seen from the quadrant that follows. -/
def Place.turn (w : Place) : Place :=
  if w.quadrant % 2 = 0 then { w with quadrant := w.quadrant + 1, dy := -w.dy }
  else { w with quadrant := w.quadrant + 1, dx := -w.dx }

/-- The walk has come as far as `stop` in both directions. -/
def Place.reached (w : Place) (stop : Point) : Bool :=
  (if 0 < w.dx then stop.x ≤ w.offset.x else w.offset.x ≤ stop.x) &&
    (if 0 < w.dy then stop.y ≤ w.offset.y else w.offset.y ≤ stop.y)

/-- The step to the neighbour ahead that lies nearest to the circle of radius `r`: to the
side, diagonally, or up and down. -/
def Place.next (r : Int) (w : Place) : Place :=
  let p := w.offset
  let xx := p.x * p.x
  let yy := p.y * p.y - r * r
  let xx' := (p.x + w.dx) * (p.x + w.dx)
  let yy' := (p.y + w.dy) * (p.y + w.dy) - r * r
  let side := (xx' + yy).natAbs
  let diagonal := (xx' + yy').natAbs
  let upright := (xx + yy').natAbs
  let x := if min side diagonal ≤ upright then p.x + w.dx else p.x
  let y := if min diagonal upright < side then p.y + w.dy else p.y
  { w with offset := ⟨x, y⟩ }

/-- The offsets met from `w` on before the walk ends at `stop` in the quadrant `last`, and the
offset where it ends. -/
def trail (r : Int) (stop : Point) (last : Int) : Nat → Place → List Point × Point
  | 0, w => ([], w.offset)
  | n + 1, w =>
    if w.onAxis ∧ w.quadrant = last then ([], w.offset)
    else
      let w := if w.onAxis then w.turn else w
      if w.quadrant = last ∧ w.reached stop then ([], w.offset)
      else
        let (rest, stopped) := trail r stop last n (w.next r)
        (w.offset :: rest, stopped)

/-- A bound on the length of a walk. -/
def trailBound (r : Int) : Nat := 64 * (r.natAbs + 8)

/-- The offsets of the walk from `first` to `stop`; the end counts unless it is the start of a
walk that comes back to it. -/
def offsets (r : Int) (first stop : Point) (wraps : Bool) : List Point :=
  let last := lastQuadrant first stop wraps
  let (met, stopped) := trail r stop last (trailBound r) (.start first)
  met ++ if stopped ≠ first ∨ quadrant first = last then [stopped] else []

/-- The pixels of the arc of the circle around `c` from `angle` over the signed extent, where `ends`
gives the rounded point at an angle. -/
def pointsFrom (ends : Int → Point) (c : Point) (r angle extent : Int) : List Point :=
  let (first, stop) := if extent < 0 then (angle + extent, angle) else (angle, extent + angle)
  let wraps : Bool := stop < first || Angle.fullTurn ≤ stop - first
  (offsets r (ends first) (ends stop) wraps).map fun p => ⟨c.x + p.x, c.y + p.y⟩

/-- The same pixels with 32 bits of their places. -/
def reported (ends : Int → Point) (c : Point) (r angle extent : Int) : List Point :=
  (pointsFrom ends c r angle extent).map Point.wrap

/-- The pixels of the arc of the circle around `c` from `angle` over the signed extent. -/
def points (c : Point) (r angle extent : Int) : List Point :=
  reported (pointAt r) c r angle extent

end Rasterizer.CircleArc
