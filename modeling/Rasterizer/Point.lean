import Rasterizer.Scalar

/-! Points of the plane. Rows grow downwards. -/

namespace Rasterizer

/-- A point, or the pixel whose upper left corner it is. -/
structure Point where
  x : Int
  y : Int
deriving Repr, DecidableEq, Inhabited

/-- The two closed ends of a horizontal stretch of pixels on row `y`. -/
structure Run where
  x1 : Int
  x2 : Int
  y : Int
deriving Repr, DecidableEq, Inhabited

/-- A stretch of `width` pixels that starts at `(x, y)`. -/
structure Span where
  x : Int
  y : Int
  width : Int
deriving Repr, DecidableEq, Inhabited

/-- The pixels of a run, left to right. -/
def Run.Covers (r : Run) (p : Point) : Prop := p.y = r.y ∧ r.x1 ≤ p.x ∧ p.x ≤ r.x2

instance (r : Run) (p : Point) : Decidable (r.Covers p) := by
  unfold Run.Covers; infer_instance

/-- The shift that carries the origin to `d`. -/
def Point.shift (p d : Point) : Point := ⟨p.x + d.x, p.y + d.y⟩

/-- The point with the same low 32 bits in both coordinates. -/
def Point.wrap (p : Point) : Point := ⟨wrap32 p.x, wrap32 p.y⟩

def Point.Fits (p : Point) : Prop := Fits32 p.x ∧ Fits32 p.y

instance (p : Point) : Decidable p.Fits := inferInstanceAs (Decidable (_ ∧ _))

theorem Point.Fits.wrap {p : Point} (h : p.Fits) : p.wrap = p := by
  rw [Point.wrap, h.1.wrap, h.2.wrap]

end Rasterizer
