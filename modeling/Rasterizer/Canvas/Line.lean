import Rasterizer.Canvas.Basic
import Rasterizer.Spline
import Rasterizer.Stroke.Polyline

/-! Pixels and lines on a canvas: lines one pixel wide, the outlines of rectangles,
dotted lines, wide and dashed polylines and curves. -/

namespace Rasterizer

/-- Draws the visible part of a line with the ink, by a walk of 32-bit numbers. -/
def Painter.line32 (p : Painter) (a b : Point) : Painter :=
  match LineWalk.clipped32? a b p.window with
  | none => p
  | some walk => walk.points32.foldl (fun p q => p.pixel q.x q.y) p

/-- Draws the pixels from one point to another with the ink. -/
def Painter.segment (p : Painter) (a b : Point) : Painter :=
  if a = b then p.pixel a.x a.y
  else if a.y = b.y then p.row a.x b.x a.y
  else if a.x = b.x then p.column a.y b.y a.x
  else p.line32 a b

/-- Draws the edges of a rectangle with the ink, the right and the lower ones included. The corners
belong to the upper and lower edges. -/
def Painter.edges (p : Painter) (rc : Rect) : Painter :=
  if rc.left = rc.right ∧ rc.top = rc.bottom then p.pixel rc.left rc.top
  else
    let p := p.row rc.left rc.right rc.top
    let p := if rc.top = rc.bottom then p else p.row rc.left rc.right rc.bottom
    if rc.bottom - rc.top ≤ 1 then p
    else
      let p := p.column (rc.top + 1) (rc.bottom - 1) rc.left
      if rc.left = rc.right then p else p.column (rc.top + 1) (rc.bottom - 1) rc.right

namespace Canvas

def setPixel (c : Canvas) (x y : Int) (color : Pixel) : Canvas :=
  let p := c.toScreen x y
  c.paint (.ofSize p.x p.y 1 1) c.rop fun q => q.pixelOf p.x p.y color

/-- The pixel of a logical point of the device rectangle. -/
def getPixel? (c : Canvas) (x y : Int) : Option Pixel :=
  let p := c.toScreen x y
  if c.space.device.contains p.x p.y then c.surface.get? p.x p.y else none

def moveTo (c : Canvas) (x y : Int) : Canvas := { c with penPos := ⟨x, y⟩ }

/-- By column, then by row. -/
def pointBefore (a b : Point) : Bool := a.x < b.x || (a.x = b.x && a.y ≤ b.y)

/-- Draws the pixels of a line between screen points. A line and its reverse are drawn from
the same end and so have the same pixels. -/
def thinLine (c : Canvas) (a b : Point) : Canvas :=
  let (a, b) := if pointBefore a b then (a, b) else (b, a)
  let rc := ((⟨a.x, a.y, b.x, b.y⟩ : Rect).normalized.inflate 1 1).wrap
  c.paint rc c.rop fun p => (p.withInk c.penColor).segment a b

/-- Draws a line from the pen's position and moves the pen to its end. -/
def lineTo (c : Canvas) (x y : Int) : Canvas :=
  let start := c.toScreen c.penPos.x c.penPos.y
  (c.moveTo x y).thinLine start (c.toScreen x y)

def line (c : Canvas) (x1 y1 x2 y2 : Int) : Canvas := (c.moveTo x1 y1).lineTo x2 y2

def polyline (c : Canvas) : List Point → Canvas
  | [] => c
  | p :: rest => rest.foldl (fun c q => c.lineTo q.x q.y) (c.moveTo p.x p.y)

/-- The box on the screen of two logical points. -/
def screenBox (c : Canvas) (a b : Point) : Rect :=
  let p := c.toScreen a.x a.y
  let q := c.toScreen b.x b.y
  (⟨p.x, p.y, q.x, q.y⟩ : Rect).normalized

/-- Draws the outline of a rectangle, each `step`th pixel of every edge. -/
def outline (c : Canvas) (a b : Point) (step : Int) (rop : RasterOp) : Canvas :=
  let rc := c.screenBox a b
  c.paint { rc with right := wrap32 (rc.right + 1), bottom := wrap32 (rc.bottom + 1) } rop fun p =>
    ((p.withInk c.penColor).withStep step).edges rc

def rectangle (c : Canvas) (x0 y0 x1 y1 : Int) : Canvas := c.outline ⟨x0, y0⟩ ⟨x1, y1⟩ 1 c.rop

/-- Draws a dotted outline that drawing again takes away. -/
def focusRect (c : Canvas) (x0 y0 x1 y1 : Int) : Canvas := c.outline ⟨x0, y0⟩ ⟨x1, y1⟩ 2 .xor

/-- Draws every other pixel of a row or a column of screen pixels. -/
def dottedLine (c : Canvas) (x y length : Int) (horizontal : Bool) : Canvas :=
  if length < 1 then c
  else
    let o := c.toScreen x y
    let rc := if horizontal then Rect.ofSize o.x o.y length 1 else Rect.ofSize o.x o.y 1 length
    c.paint rc c.rop fun p =>
      let p := (p.withInk c.penColor).withStep 2
      if horizontal then p.row o.x (o.x + length - 1) o.y else p.column o.y (o.y + length - 1) o.x

/-- Draws lines from point to point with the pen, the gaps of a double dash in the background
colour. Only a thin pen moves its position. -/
def stroke (c : Canvas) (pts : List Point) : Canvas :=
  if pts.length < 2 then c
  else if c.pen.isThin then c.polyline pts
  else
    let spans := Stroke.polyline (pts.map fun p => c.toScreen p.x p.y) c.screenPen
    (c.paintSpans spans.off c.text.background).paintSpans spans.on c.penColor

def strokeLine (c : Canvas) (x1 y1 x2 y2 : Int) : Canvas := c.stroke [⟨x1, y1⟩, ⟨x2, y2⟩]

/-- Draws a curve with the pen and moves the pen's position to its end. -/
def splineTo (c : Canvas) (s : Spline) : Canvas :=
  let pts := s.points
  let c := c.stroke pts
  match pts.getLast? with
  | some p => c.moveTo p.x p.y
  | none => c

end Canvas

end Rasterizer
