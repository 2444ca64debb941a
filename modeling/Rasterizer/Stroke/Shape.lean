import Rasterizer.RowSpans
import Rasterizer.Scalar
import Rasterizer.Stroke.Pen

/-! The pieces of a wide stroke: a quadrilateral for each segment, a cap at each open
end and a join at each corner, sampled at pixel centres. -/

namespace Rasterizer.Stroke

structure Vec where
  x : Float
  y : Float
deriving Repr

def Vec.ofPoint (p : Point) : Vec := ⟨.ofInt p.x, .ofInt p.y⟩

def Vec.same (a b : Vec) : Bool := a.x == b.x && a.y == b.y

/-- The point `a` moved by `t` times `d`. -/
def Vec.along (a d : Vec) (t : Float) : Vec := ⟨a.x + d.x * t, a.y + d.y * t⟩

/-- The numbers greater than all others and less than all others. -/
def infinity : Float := 1.0 / 0.0

def lesser (a b : Float) : Float := if b < a then b else a

def greater (a b : Float) : Float := if a < b then b else a

def ceilInt (v : Float) : Int := truncate v.ceil

def floorInt (v : Float) : Int := truncate v.floor

/-- The least and greatest column at which an edge meets a row, added to those met before. -/
def widen (row : Float) (edge : Vec × Vec) (ext : Float × Float) : Float × Float :=
  let (a, b) := edge
  let (lo, hi) := if a.y ≤ b.y then (a, b) else (b, a)
  if row < lo.y || hi.y < row then ext
  else if lo.y == hi.y then
    (lesser ext.1 (lesser lo.x hi.x), greater ext.2 (greater lo.x hi.x))
  else
    let x := lo.x + (row - lo.y) * (hi.x - lo.x) / (hi.y - lo.y)
    (lesser ext.1 x, greater ext.2 x)

def sides (poly : List Vec) : List (Vec × Vec) := poly.zip (poly.rotateLeft 1)

/-- The pixels whose centres lie in a convex polygon, its left and top edges included. -/
def convexRuns (poly : List Vec) : List Run :=
  if poly.length < 3 then []
  else
    let top := (poly.map Vec.y).foldl lesser infinity
    let bottom := (poly.map Vec.y).foldl greater (-infinity)
    (irange (ceilInt top) (ceilInt bottom - 1)).filterMap fun y =>
      let (l, r) := (sides poly).foldl (fun ext e => widen (.ofInt y) e ext) (infinity, -infinity)
      if l < r then some ⟨ceilInt l, ceilInt r - 1, y⟩ else none

/-- The pixels whose centres lie in a disc. -/
def discRuns (c : Vec) (radius : Float) : List Run :=
  let r2 := radius * radius
  (irange (ceilInt (c.y - radius)) (floorInt (c.y + radius))).filterMap fun y =>
    let dy := Float.ofInt y - c.y
    let rest := r2 - dy * dy
    if rest < 0.0 then none
    else
      let half := rest.sqrt
      some ⟨ceilInt (c.x - half), floorInt (c.x + half), y⟩

/-- The direction of unit length from `a` to `b` and their distance, unless that is zero. -/
def direction? (a b : Vec) : Option (Vec × Float) :=
  let dx := b.x - a.x
  let dy := b.y - a.y
  let length := (dx * dx + dy * dy).sqrt
  if length == 0.0 then none else some (⟨dx / length, dy / length⟩, length)

/-- What a stroke looks like apart from its path. -/
structure Nib where
  halfWidth : Float
  cap : LineCap
  join : LineJoin

def Nib.ofPen (p : Pen) : Nib := ⟨.ofNat p.strokeWidth / 2.0, p.cap, p.join⟩

/-- The corner of a mitre may lie at most this many half widths away. -/
def miterLimit : Float := 10.0

/-- The stroke of a path that does not leave one point. -/
def Nib.dot (nib : Nib) (p : Vec) : List Run :=
  let h := nib.halfWidth
  match nib.cap with
  | .butt => []
  | .round => discRuns p h
  | .projecting =>
    convexRuns [⟨p.x - h, p.y - h⟩, ⟨p.x + h, p.y - h⟩, ⟨p.x + h, p.y + h⟩, ⟨p.x - h, p.y + h⟩]

/-- The stroke of one segment; it is longer where it ends the path and the cap projects. -/
def Nib.segment (nib : Nib) (a b : Vec) (isFirst isLast : Bool) : List Run :=
  match direction? a b with
  | none => []
  | some (d, _) =>
    let h := nib.halfWidth
    let before := if isFirst && nib.cap == .projecting then h else 0.0
    let beyond := if isLast && nib.cap == .projecting then h else 0.0
    let a : Vec := ⟨a.x - d.x * before, a.y - d.y * before⟩
    let b : Vec := ⟨b.x + d.x * beyond, b.y + d.y * beyond⟩
    let nx := -d.y * h
    let ny := d.x * h
    convexRuns [⟨a.x + nx, a.y + ny⟩, ⟨b.x + nx, b.y + ny⟩, ⟨b.x - nx, b.y - ny⟩,
      ⟨a.x - nx, a.y - ny⟩]

/-- The join at the corner `v` between the segments from `p` and to `q`. -/
def Nib.corner (nib : Nib) (p v q : Vec) : List Run :=
  match direction? p v, direction? v q with
  | some (d, _), some (e, _) =>
    let cross := d.x * e.y - d.y * e.x
    if cross == 0.0 && d.x * e.x + d.y * e.y > 0.0 then []
    else if nib.join == .round then discRuns v nib.halfWidth
    else
      let s := if cross > 0.0 then -nib.halfWidth else nib.halfWidth
      let a : Vec := ⟨v.x - d.y * s, v.y + d.x * s⟩
      let b : Vec := ⟨v.x - e.y * s, v.y + e.x * s⟩
      let bevel := convexRuns [v, a, b]
      if nib.join == .miter && cross != 0.0 then
        let t := ((b.x - a.x) * e.y - (b.y - a.y) * e.x) / cross
        let m : Vec := ⟨a.x + d.x * t, a.y + d.y * t⟩
        let reach := ((m.x - v.x) * (m.x - v.x) + (m.y - v.y) * (m.y - v.y)).sqrt
        if reach ≤ nib.halfWidth * miterLimit then convexRuns [v, a, m, b] else bevel
      else bevel
  | _, _ => []

/-- The path without points that repeat the one before. -/
def distinctPath : List Vec → List Vec
  | [] => []
  | [p] => [p]
  | p :: q :: rest =>
    if p.same q then distinctPath (p :: rest) else p :: distinctPath (q :: rest)

def Nib.segments (nib : Nib) (isFirst : Bool) : List Vec → List Run
  | a :: b :: rest => nib.segment a b isFirst rest.isEmpty ++ nib.segments false (b :: rest)
  | _ => []

def Nib.corners (nib : Nib) : List Vec → List Run
  | p :: v :: q :: rest => nib.corner p v q ++ nib.corners (v :: q :: rest)
  | _ => []

def Nib.stroke (nib : Nib) (path : List Vec) : List Run :=
  match distinctPath path with
  | [] => []
  | [p] => nib.dot p
  | p :: q :: rest =>
    let path := p :: q :: rest
    nib.segments true path ++ nib.corners path ++
      if nib.cap == .round then
        discRuns p nib.halfWidth ++ discRuns (path.getLastD p) nib.halfWidth
      else []

end Rasterizer.Stroke
