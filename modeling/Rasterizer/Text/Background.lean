import Rasterizer.Painter
import Rasterizer.Polygon.Monotone
import Rasterizer.Text.Layout

/-! The area behind a stretch of text: an upright box, one that leans with slanted
glyphs, or one turned with the baseline. -/

namespace Rasterizer

/-- The area behind a stretch of text. -/
inductive BackArea where
  | upright (rc : Rect)
  /-- A box whose rows are moved sideways; the lower rows further when reversed. -/
  | leaning (rc : Rect) (reversed : Bool)
  | turned (a b c d : Point)
deriving Repr, DecidableEq

namespace BackArea

/-- The area behind the baseline from `p` to `q`, one pixel larger all around for a halo. -/
def behind (f : LogicalFont) (p q : Point) (halo : Bool) : BackArea :=
  if f.rotation ≠ 0 then
    let up := rotateVector f.ascent (Angle.ofTenths (f.rotation + 900))
    let down := rotateVector f.descent (Angle.ofTenths (f.rotation + 2700))
    let raise (p v : Point) : Point := ⟨p.x + v.x, p.y - v.y⟩
    .turned (raise p up) (raise q up) (raise q down) (raise p down)
  else
    let rc := Rect.ofSize p.x (p.y - f.ascent) (q.x - p.x) f.size
    let rc := if halo then rc.inflate 1 1 else rc
    if f.slants then .leaning rc f.style.flipsOnce else .upright rc

def bound : BackArea → Rect
  | .upright rc => rc
  | .leaning rc _ => { rc with right := rc.right + rc.height / 2 }
  | .turned a b c d =>
    ⟨min (min a.x b.x) (min c.x d.x), min (min a.y b.y) (min c.y d.y),
      max (max a.x b.x) (max c.x d.x), max (max a.y b.y) (max c.y d.y)⟩

/-- The runs of an area that is not upright. -/
def runs : BackArea → List Run
  | .upright _ => []
  | .leaning rc reversed =>
    (irange 0 (rc.height - 1)).map fun i =>
      let shift := if reversed then i / 2 else (rc.height - i) / 2
      ⟨rc.left + shift, rc.left + shift + rc.width - 1, rc.top + i⟩
  | .turned a b c d => Polygon.monotoneRuns [a, b, c, d]

def fill (area : BackArea) (p : Painter) : Painter :=
  match area with
  | .upright rc => p.box rc
  | area => area.runs.foldl (fun p r => p.row r.x1 r.x2 r.y) p

end BackArea

namespace TextStyle

/-- The length of a text's advances and the size of the box around it. -/
def extent (st : TextStyle) (glyphs : List Glyph) : Int × Int × Int :=
  let placed := (glyphs.filter (· ≠ Glyph.invalid)).map fun g => st.place g 0 0
  let stop := placed.foldl (fun (q : Point) pl => q.shift pl.move) ⟨0, 0⟩
  let rc := (BackArea.behind st.font ⟨0, 0⟩ stop false).bound.normalized
  (placed.foldr (fun pl len => pl.length + len) 0, rc.width, rc.height)

end TextStyle

end Rasterizer
