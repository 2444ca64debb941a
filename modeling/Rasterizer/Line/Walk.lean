import Rasterizer.Point

/-! The walk from one pixel to another. Each move goes one pixel along the longer axis
and, when the accumulated error calls for it, one along the shorter axis too. The
walk can be entered at any move with the error it would have there. -/

namespace Rasterizer

/-- A walk along a line of pixels. -/
structure LineWalk where
  start : Point
  moves : Nat
  /-- The longer distance. -/
  major : Int
  /-- The shorter distance. -/
  minor : Int
  /-- The longer axis is the horizontal one. -/
  alongX : Bool
  signX : Int
  signY : Int
  /-- The error carried into the first move. -/
  error : Int
deriving Repr, DecidableEq

namespace LineWalk

/-- The walk from `p` to `q`. -/
def between (p q : Point) : LineWalk :=
  let dx : Int := (q.x - p.x).natAbs
  let dy : Int := (q.y - p.y).natAbs
  let major := max dx dy
  { start := p
    moves := major.toNat
    major := major
    minor := min dx dy
    alongX := dy ≤ dx
    signX := if p.x < q.x then 1 else -1
    signY := if p.y < q.y then 1 else -1
    error := major / 2 }

/-- The place reached from `p` by one move, with or without a step along the shorter axis. -/
def step (w : LineWalk) (p : Point) (both : Bool) : Point :=
  if both then ⟨p.x + w.signX, p.y + w.signY⟩
  else if w.alongX then ⟨p.x + w.signX, p.y⟩
  else ⟨p.x, p.y + w.signY⟩

/-- The places met by `n` moves from `p`, with the error carried into the first. -/
def trail (w : LineWalk) : Nat → Point → Int → List Point
  | 0, p, _ => [p]
  | n + 1, p, error =>
    let e := error + w.minor
    if w.major ≤ e then p :: trail w n (w.step p true) (e - w.major)
    else p :: trail w n (w.step p false) e

/-- All places of the walk, both ends included. -/
def points (w : LineWalk) : List Point := w.trail w.moves w.start w.error

/-- The first place as no move, and then each move. -/
def displacements (w : LineWalk) : List Point :=
  ⟨0, 0⟩ :: List.zipWith (fun p q => ⟨q.x - p.x, q.y - p.y⟩) w.points w.points.tail

/-- The part of the walk from the place after `first` moves to the one after `last`. -/
def window (w : LineWalk) (first last : Int) : LineWalk :=
  if w.major = 0 then w
  else
    let total := w.error + first * w.minor
    let aside := total.tdiv w.major
    { w with
      start :=
        if w.alongX then ⟨w.start.x + w.signX * first, w.start.y + w.signY * aside⟩
        else ⟨w.start.x + w.signX * aside, w.start.y + w.signY * first⟩
      moves := (last - first).toNat
      error := total.tmod w.major }

theorem length_trail (w : LineWalk) (n : Nat) (p : Point) (e : Int) :
    (w.trail n p e).length = n + 1 := by
  induction n generalizing p e with
  | zero => rfl
  | succ n ih => simp only [trail]; split <;> simp [ih]

theorem length_points (w : LineWalk) : w.points.length = w.moves + 1 := w.length_trail _ _ _

end LineWalk

end Rasterizer
