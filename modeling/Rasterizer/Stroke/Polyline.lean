import Rasterizer.Stroke.Dash

/-! The pixels of a polyline drawn with a pen. -/

namespace Rasterizer.Stroke

/-- The pixels of the dashes and, for a pen that draws them, of the gaps. -/
structure Coverage where
  on : RowSpans
  off : RowSpans
deriving Repr, DecidableEq

/-- The runs of the dashes that are on, or of those that are off. -/
def pieceRuns (nib : Nib) (isOn : Bool) (pieces : List Piece) : List Run :=
  (pieces.filter fun piece => piece.isOn == isOn).flatMap fun piece => nib.stroke piece.path

/-- No point differs from the one before. -/
def staysPut (path : List Vec) : Bool := (List.zipWith Vec.same path path.tail).all id

/-- The raw runs of a polyline, of its dashes and of its gaps; they may overlap. -/
def rawRuns (pts : List Point) (pen : Pen) : List Run × List Run :=
  let path := pts.map Vec.ofPoint
  let nib := Nib.ofPen pen
  match path with
  | [] => ([], [])
  | p :: _ =>
    let pieces := dashPieces pen.pattern pen.dashOffset path
    let start := if staysPut path then nib.dot p else []
    match pen.style with
    | .solid => (nib.stroke path, [])
    | .onOff => (start ++ pieceRuns nib true pieces, [])
    | .double => (start ++ pieceRuns nib true pieces, pieceRuns nib false pieces)

/-- The pixels of a polyline: those of the dashes, and those of the gaps outside the dashes. -/
def polyline (pts : List Point) (pen : Pen) : Coverage :=
  let (on, off) := rawRuns pts pen
  let on := (RowSpans.ofRuns on).normalize
  ⟨on, (RowSpans.ofRuns off).normalize.subtract on⟩

end Rasterizer.Stroke
