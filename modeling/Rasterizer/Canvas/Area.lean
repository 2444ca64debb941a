import Rasterizer.Arc.Circle
import Rasterizer.Arc.Ellipse
import Rasterizer.Canvas.Line
import Rasterizer.Flood
import Rasterizer.Polygon.EvenOdd

/-! Areas and curved outlines on a canvas. A shape is first collected as a set of
pixels and then painted, so that each pixel is touched once. -/

namespace Rasterizer

def Run.ordered (r : Run) : Run := ⟨min r.x1 r.x2, max r.x1 r.x2, r.y⟩

def RowSpans.covering (rs : List Run) : RowSpans := (ofRuns (rs.map Run.ordered)).normalize

def RowSpans.ofPoints (ps : List Point) : RowSpans := covering (ps.map fun p => ⟨p.x, p.x, p.y⟩)

def RowSpans.ofEnds (rs : List Run) : RowSpans :=
  covering (rs.flatMap fun r => [⟨r.x1, r.x1, r.y⟩, ⟨r.x2, r.x2, r.y⟩])

/-- Fills a box with a brush. -/
def Painter.brushBox (p : Painter) (rc : Rect) (brush : Brush) (background : Pixel) : Painter :=
  if brush.kind = .solid then (p.withInk brush.color).box rc
  else
    (irange (max rc.top p.window.top) (min (rc.bottom - 1) (p.window.bottom - 1))).foldl
      (fun p y => p.brushRow rc.left (rc.right - 1) y brush background) p

namespace Canvas

/-- Fills a box of logical points with the brush; one without an extent is left out. -/
def fillBox (c : Canvas) (x y w h : Int) : Canvas :=
  if w ≤ 0 ∨ h ≤ 0 then c
  else
    let a := c.toScreen x y
    let b := c.toScreen (x + w) (y + h)
    let rc := (⟨a.x, a.y, b.x, b.y⟩ : Rect).normalized
    c.paint rc c.rop fun p => p.brushBox rc c.screenBrush c.text.background

/-- The pixels of a polygon of screen points. One that is a single row or column is drawn with
its ends; `monotone` promises that each row meets it once. -/
def polygonSpans (pts : List Point) (monotone : Bool) : RowSpans :=
  let rc := Rect.ofPoints pts
  if rc.width = 1 ∨ rc.height = 1 then
    RowSpans.covering (⟨rc.left, rc.right - 1, rc.top⟩ ::
      (irange (rc.top + 1) (rc.bottom - 1)).map fun y => ⟨rc.left, rc.left, y⟩)
  else if monotone then RowSpans.covering (Polygon.monotoneRuns pts)
  else RowSpans.covering (Polygon.evenOddRuns pts (some (rc.top, rc.bottom - 1)))

def fillPolygon (c : Canvas) (pts : List Point) : Canvas :=
  if pts.length < 3 then c
  else
    c.brushSpans (polygonSpans (pts.map fun p => c.toScreen p.x p.y) (Polygon.isMonotone pts))

/-- The pixels of one value, to be filled with a brush. -/
def floodTarget (old : Pixel) (brush : Brush) (background : Pixel) : FloodTarget Painter where
  isCandidate p x y := p.surface.get? x y == some old
  fill p r := p.brushRow r.x1 r.x2 r.y brush background

/-- Fills the pixels around a logical point that have its value, unless that is the value of the
brush. -/
def floodFill (c : Canvas) (x y : Int) : Canvas :=
  let o := c.toScreen x y
  match visibleRect? c.surface c.space, c.surface.get? o.x o.y with
  | some dst, some old =>
    if dst.contains o.x o.y = false ∨ old = c.brush.color then c
    else
      c.paint dst c.rop fun p =>
        Flood.fill (floodTarget old c.screenBrush c.text.background) p dst o.x o.y
  | _, _ => c

def circleRuns (c : Canvas) (x y r : Int) : List Run :=
  Circle.runs (c.toScreen x y) (c.space.widthToScreen r)

def ellipseRuns (c : Canvas) (x y rx ry : Int) : List Run :=
  Ellipse.runs (c.toScreen x y) (c.space.widthToScreen rx) (c.space.heightToScreen ry)

def circle (c : Canvas) (x y r : Int) : Canvas :=
  c.paintSpans (.ofEnds (c.circleRuns x y r)) c.penColor

def fillCircle (c : Canvas) (x y r : Int) : Canvas :=
  c.brushSpans (.covering (c.circleRuns x y r))

def ellipse (c : Canvas) (x y rx ry : Int) : Canvas :=
  c.paintSpans (.ofEnds (c.ellipseRuns x y rx ry)) c.penColor

def fillEllipse (c : Canvas) (x y rx ry : Int) : Canvas :=
  c.brushSpans (.covering (c.ellipseRuns x y rx ry))

/-- Draws an arc of a circle; a radius below one on the screen leaves the centre. -/
def circleArc (c : Canvas) (x y r angle extent : Int) : Canvas :=
  let o := c.toScreen x y
  let r := c.space.widthToScreen r
  let pts := if r < 1 then [o] else CircleArc.points o r angle extent
  c.paintSpans (.ofPoints pts) c.penColor

/-- The arc with its box on the screen. -/
def screenArc (c : Canvas) (a : EllipseArc) : EllipseArc :=
  let p := c.toScreen a.x a.y
  { a with
    x := p.x
    y := p.y
    width := c.space.widthToScreen a.width
    height := c.space.heightToScreen a.height }

/-- Draws arcs with the pen; where they meet, pixels are drawn once. -/
def arcs (c : Canvas) (as : List EllipseArc) : Canvas :=
  let width := c.screenPen.width
  let runs := as.flatMap fun a =>
    let a := c.screenArc a
    if width = 0 then (a.outline c.clip.bound).map fun p => (⟨p.x, p.x, p.y⟩ : Run)
    else a.ring width c.clip.bound
  c.paintSpans (.covering runs) c.penColor

/-- Fills pie slices with the brush; where they meet, pixels are painted once. -/
def fillArcs (c : Canvas) (as : List EllipseArc) : Canvas :=
  c.brushSpans (.covering (as.flatMap fun a => (c.screenArc a).pie c.clip.bound))

def quarter : Int := 90 * Angle.unitsPerDegree

/-- The corner arcs of a rounded rectangle whose corners have the given extents. -/
def cornerArcs (x0 y0 x1 y1 w h : Int) : List EllipseArc :=
  [⟨x0, y0, w, h, quarter, quarter⟩, ⟨x1 - w, y0, w, h, 0, quarter⟩,
    ⟨x1 - w, y1 - h, w, h, -quarter, quarter⟩, ⟨x0, y1 - h, w, h, -quarter, -quarter⟩]

/-- Fills a rectangle with rounded corners and draws its outline. The answer says whether the
corners fit into it; if not, nothing is drawn. -/
def roundRect (c : Canvas) (x0 y0 x1 y1 rw rh : Int) : Canvas × Bool :=
  let w := rw * 2
  let h := rh * 2
  if x1 ≤ x0 ∨ y1 ≤ y0 ∨ x1 - x0 < w ∨ y1 - y0 < h ∨ w < 0 ∨ h < 0 then (c, false)
  else if rw = 0 ∨ rh = 0 then
    ((c.fillBox x0 y0 (x1 - x0) (y1 - y0)).stroke
      [⟨x0, y0⟩, ⟨x1, y0⟩, ⟨x1, y1⟩, ⟨x0, y1⟩, ⟨x0, y0⟩], true)
  else
    let corners := cornerArcs x0 y0 x1 y1 w h
    let c := c.fillArcs corners
    let c := c.fillBox (x0 + rw) y0 (x1 - x0 - w) rh
    let c := c.fillBox x0 (y0 + rh) (x1 - x0) (y1 - y0 - h)
    let c := c.fillBox (x0 + rw) (y1 - rh) (x1 - x0 - w) rh
    let c := c.arcs corners
    let c := c.strokeLine (x0 + rw) y0 (x1 - rw) y0
    let c := c.strokeLine (x0 + rw) y1 (x1 - rw) y1
    let c := c.strokeLine x0 (y0 + rh) x0 (y1 - rh)
    (c.strokeLine x1 (y0 + rh) x1 (y1 - rh), true)

end Canvas

end Rasterizer
