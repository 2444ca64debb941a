import Rasterizer.Point

/-! Circles and ellipses with their axes along rows and columns. A curve is a list of
runs between two pixels of one row that lie opposite each other: the outline is their
ends, the filled shape their union. A row may come more than once. -/

namespace Rasterizer

/-- The runs of half width `a` on the rows `b` below and above the centre. -/
def mirroredRuns (c : Point) (a b : Int) : List Run :=
  if b = 0 then [⟨c.x - a, c.x + a, c.y⟩]
  else [⟨c.x - a, c.x + a, c.y + b⟩, ⟨c.x - a, c.x + a, c.y - b⟩]

namespace Circle

/-- A place on the lower octant of a circle and the decision values that go with it. -/
structure Octant where
  x : Int
  y : Int
  /-- Negative when the next midpoint lies inside the circle. -/
  decision : Int
  /-- What a step to the side adds to the decision. -/
  side : Int
  /-- What a diagonal step adds to the decision. -/
  diagonal : Int
deriving Repr, DecidableEq

def Octant.start (r : Int) : Octant := ⟨0, r, 1 - r, 3, -2 * r + 5⟩

/-- The next place: to the side while the midpoint lies inside, else diagonally. -/
def Octant.next (o : Octant) : Octant :=
  if o.decision < 0 then
    ⟨o.x + 1, o.y, o.decision + o.side, o.side + 2, o.diagonal + 2⟩
  else
    ⟨o.x + 1, o.y - 1, o.decision + o.diagonal, o.side + 2, o.diagonal + 4⟩

/-- The runs through the places that mirror one place of the octant. -/
def Octant.runs (c : Point) (o : Octant) : List Run :=
  mirroredRuns c o.x o.y ++ if o.x = o.y then [] else mirroredRuns c o.y o.x

def octantRuns (c : Point) : Nat → Octant → List Run
  | 0, _ => []
  | n + 1, o => if o.x ≤ o.y then o.runs c ++ octantRuns c n o.next else []

/-- The runs of the circle of radius `r`; a radius below one leaves the centre. -/
def runs (c : Point) (r : Int) : List Run :=
  if r < 1 then [⟨c.x, c.x, c.y⟩] else octantRuns c (r.toNat + 1) (.start r)

end Circle

namespace Ellipse

/-- A place on the walk along an ellipse: the offsets along the longer axis from near and
far of it, and both of them scaled to the shorter axis. -/
structure Place where
  near : Int
  far : Int
  nearScaled : Int
  farScaled : Int
deriving Repr, DecidableEq

/-- One place with what has changed since the place before. -/
structure Mark where
  place : Place
  /-- The place at `near` has not been reported yet. -/
  newNear : Bool
  /-- The place at `far` has not been reported yet. -/
  newFar : Bool
deriving Repr, DecidableEq

/-- The nearest integer to 64ths. -/
def round64 (v : Int) : Int := (v + 32) / 64

/-- The place at the position `(u, v)`, in 64ths along the longer axis. -/
def placeAt (long short u v : Int) : Place :=
  let near := round64 u
  let far := round64 v
  ⟨near, far, (near * short).tdiv long, (far * short).tdiv long⟩

/-- What is new at a place after the given one. -/
def markAfter (old : Option Place) (p : Place) : Mark :=
  match old with
  | none => ⟨p, true, p.near < p.far⟩
  | some o =>
    ⟨p, (p.near ≠ o.near || p.farScaled ≠ o.farScaled) && p.near < o.far,
      (p.far ≠ o.far || p.nearScaled ≠ o.nearScaled) && p.near < p.far⟩

/-- The marks of the walk from the position `(u, v)` until near and far meet. -/
def marks (long short : Int) : Nat → Int → Int → Option Place → List Mark
  | 0, _, _, _ => []
  | n + 1, u, v, old =>
    let p := placeAt long short u v
    let u' := u + v.tdiv long
    let v' := v - u'.tdiv long
    markAfter old p :: if p.far ≤ p.near then [] else marks long short n u' v' (some p)

def markBound (long : Int) : Nat := 64 * long.toNat + 64

/-- The runs of one mark when the longer axis is the horizontal one. -/
def Mark.wideRuns (c : Point) (m : Mark) : List Run :=
  (if m.newNear then mirroredRuns c m.place.near m.place.farScaled else []) ++
    if m.newFar then mirroredRuns c m.place.far m.place.nearScaled else []

/-- The runs of one mark when the longer axis is the vertical one. -/
def Mark.tallRuns (c : Point) (m : Mark) : List Run :=
  (if m.newFar then mirroredRuns c m.place.nearScaled m.place.far else []) ++
    if m.newNear then mirroredRuns c m.place.farScaled m.place.near else []

/-- The runs of the ellipse of radii `rx` and `ry`; a radius below one leaves the centre. -/
def runs (c : Point) (rx ry : Int) : List Run :=
  if rx < 1 ∨ ry < 1 then [⟨c.x, c.x, c.y⟩]
  else if ry < rx then
    (marks rx ry (markBound rx) 0 (rx * 64) none).flatMap (Mark.wideRuns c)
  else
    (marks ry rx (markBound ry) 0 (ry * 64) none).flatMap (Mark.tallRuns c)

/-- The columns reached on each row from `c.y - ry` to `c.y + ry`. -/
def rowExtents (c : Point) (rx ry : Int) : Array (Option (Int × Int)) :=
  let reach := max ry 0
  (runs c rx ry).foldl
    (fun rows r =>
      let i := r.y - c.y + reach
      if i < 0 then rows
      else rows.modify i.toNat fun
        | none => some (r.x1, r.x2)
        | some (a, b) => some (min a r.x1, max b r.x2))
    (Array.replicate (2 * reach + 1).toNat none)

end Ellipse

end Rasterizer
