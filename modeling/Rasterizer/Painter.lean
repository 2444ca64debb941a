import Rasterizer.Brush
import Rasterizer.Region.BandIndex
import Rasterizer.Scalar
import Rasterizer.Surface

/-! Painters: the only writers of surface pixels. A painter is opened for one drawing
call with a window that bounds everything the call may touch. Each of its operations
lists the pixels of its shape that lie in the window and in the clip region, and plots
each of them once. When one clip rectangle covers the window, the region is not asked;
otherwise the band of a row is looked for from the band that was found last. -/

namespace Rasterizer

/-- A pixel to be combined with the surface. -/
structure Plot where
  x : Int
  y : Int
  value : Pixel
deriving Repr, DecidableEq

/-- The pixel with a colour laid over it; it keeps its own alpha. -/
def PixelFormat.overlaid (f : PixelFormat) (c : Color) (v : Pixel) : Pixel :=
  let dst := f.getRgba v
  f.mapRgba ((if c.a = 255 then c else c.blendOver dst).withAlpha dst.a)

/-- A surface opened for drawing. -/
structure Painter where
  surface : Surface
  clip : Region
  /-- Nothing outside is touched. -/
  window : Rect
  ink : Pixel
  rop : RasterOp
  /-- Straight lines along an axis draw each `step`th pixel. -/
  step : Nat
  step_pos : 0 < step
  /-- One clip rectangle covers the window. -/
  unclipped : Bool
  /-- Where the band begins that was found last. -/
  lastBand : Option Nat

namespace Painter

/-- Opens a surface for drawing in a window; nothing to be drawn on gives no painter. -/
def open? (surface : Surface) (clip : Region) (window : Rect) : Option Painter := do
  let w ← window.normalized.intersect? surface.rect
  let w ← w.intersect? clip.bound
  return ⟨surface, clip, w, 0, .set, 1, by decide, clip.rects.any fun rc => rc.covers w, none⟩

def withInk (p : Painter) (ink : Pixel) : Painter := { p with ink := ink }

def withRop (p : Painter) (rop : RasterOp) : Painter := { p with rop := rop }

/-- The painter with that step, one at least. -/
def withStep (p : Painter) (step : Int) : Painter :=
  { p with step := max step.toNat 1, step_pos := by omega }

def plot (p : Painter) (d : Plot) : Painter :=
  { p with
    surface := p.surface.put d.x d.y (p.rop.apply ((p.surface.get? d.x d.y).getD 0) d.value) }

def plotAll (p : Painter) (ds : List Plot) : Painter := ds.foldl plot p

/-! ## What may be touched -/

/-- The clip rectangles over the row `y`, with the painter that remembers their band. -/
def findBand (p : Painter) (y : Int) : Painter × List Rect :=
  match p.clip.bandOf? y p.lastBand with
  | some start => ({ p with lastBand := some start }, p.clip.bandAt start)
  | none => (p, [])

/-- Whether the pixel may be touched, with the painter after looking it up. -/
def look (p : Painter) (x y : Int) : Painter × Bool :=
  if p.window.contains x y = false then (p, false)
  else if p.unclipped then (p, true)
  else
    let (p, band) := p.findBand y
    (p, band.any fun rc => rc.contains x y)

/-- The part of the columns `x1` to `x2` that lies in a rectangle. -/
def runIn? (x1 x2 : Int) (rc : Rect) : Option (Int × Int) :=
  if max x1 rc.left ≤ min x2 (rc.right - 1) then
    some (max x1 rc.left, min x2 (rc.right - 1))
  else none

/-- The parts of the row `y` between two columns that may be touched, left to right, with the
painter after looking them up. -/
def visibleRuns (p : Painter) (x1 x2 y : Int) : Painter × List (Int × Int) :=
  let lo := min x1 x2
  let hi := max x1 x2
  if y < p.window.top ∨ p.window.bottom ≤ y then (p, [])
  else if p.unclipped then (p, (runIn? lo hi p.window).toList)
  else
    let (p, band) := p.findBand y
    (p, (band.filterMap fun rc => rc.intersect? p.window).filterMap (runIn? lo hi))

/-- Those of the rectangles that meet the column `x` between two rows. The search ends at the
first that begins below. -/
def columnRects (lo hi x : Int) : List Rect → List Rect
  | [] => []
  | rc :: rest =>
    if rc.bottom ≤ lo then columnRects lo hi x rest
    else if hi < rc.top then []
    else if x < rc.left ∨ rc.right ≤ x then columnRects lo hi x rest
    else rc :: columnRects lo hi x rest

/-- The parts of the column `x` between two rows that may be touched, downwards. -/
def visibleRowRuns (p : Painter) (y1 y2 x : Int) : List (Int × Int) :=
  let lo := max (min y1 y2) p.window.top
  let hi := min (max y1 y2) (p.window.bottom - 1)
  if x < p.window.left ∨ p.window.right ≤ x ∨ hi < lo then []
  else if p.unclipped then [(lo, hi)]
  else (columnRects lo hi x p.clip.rects).map fun rc => (max lo rc.top, min hi (rc.bottom - 1))

/-- The first place from `a` on that lies a whole number of steps from the origin. -/
def firstDot (step : Nat) (origin a : Int) : Int :=
  a + ((step : Int) - (a - origin) % step) % step

/-- The places from `a` to `b` that lie a whole number of steps from the origin. -/
def dots (step : Nat) (origin a b : Int) : List Int :=
  let first := firstDot step origin a
  (irange 0 ((b - first) / step)).map fun k => first + k * step

/-! ## Drawing -/

/-- Draws one pixel of the given value. -/
def pixelOf (p : Painter) (x y : Int) (value : Pixel) : Painter :=
  let (q, seen) := p.look x y
  if seen then q.plot ⟨x, y, value⟩ else q

def pixel (p : Painter) (x y : Int) : Painter := p.pixelOf x y p.ink

/-- Draws the two ends of a run with the ink, one pixel if they are the same. -/
def runEnds (p : Painter) (r : Run) : Painter :=
  let q := p.pixel r.x1 r.y
  if r.x1 = r.x2 then q else q.pixel r.x2 r.y

/-- Draws a line along a row with the ink, a dot whatever the step if it has one pixel. -/
def row (p : Painter) (x1 x2 y : Int) : Painter :=
  if x1 = x2 then p.pixel x1 y
  else
    let (q, runs) := p.visibleRuns x1 x2 y
    q.plotAll (runs.flatMap fun r =>
      (dots p.step (min x1 x2) r.1 r.2).map fun x => ⟨x, y, p.ink⟩)

/-- Draws a line along a column with the ink, a dot whatever the step if it has one pixel. -/
def column (p : Painter) (y1 y2 x : Int) : Painter :=
  if y1 = y2 then p.pixel x y1
  else
    p.plotAll ((p.visibleRowRuns y1 y2 x).flatMap fun r =>
      (dots p.step (min y1 y2) r.1 r.2).map fun y => ⟨x, y, p.ink⟩)

/-- Draws a run of pixels of the given value, its ends in any order. -/
def spanOf (p : Painter) (x1 x2 y : Int) (value : Pixel) : Painter :=
  let (q, runs) := p.visibleRuns x1 x2 y
  q.plotAll (runs.flatMap fun r => (irange r.1 r.2).map fun x => ⟨x, y, value⟩)

def box (p : Painter) (rc : Rect) : Painter :=
  match rc.normalized.intersect? p.window with
  | none => p
  | some rc =>
    (irange rc.top (rc.bottom - 1)).foldl (fun p y => p.spanOf rc.left (rc.right - 1) y p.ink) p

/-- Lays a colour over one pixel, unless it has no alpha at all. -/
def blend (p : Painter) (x y : Int) (c : Color) : Painter :=
  if c.a = 0 then p
  else
    let (q, seen) := p.look x y
    if seen then q.plot ⟨x, y, p.surface.format.overlaid c ((p.surface.get? x y).getD 0)⟩ else q

/-- The value at a place of a source, unless that is the transparent one. -/
def sourceAt? (src : Array Pixel) (transparent : Option Pixel) (i : Nat) : Option Pixel :=
  src[i]?.filter fun v => transparent ≠ some v

/-- Draws pixels side by side from `(x, y)` on, all but those of the transparent value. -/
def source (p : Painter) (x y : Int) (src : Array Pixel) (transparent : Option Pixel) : Painter :=
  if src.isEmpty then p
  else
    let (q, runs) := p.visibleRuns x (x + src.size - 1) y
    q.plotAll (runs.flatMap fun r => (irange r.1 r.2).filterMap fun cx =>
      (sourceAt? src transparent (cx - x).toNat).map fun v => ⟨cx, y, v⟩)

/-- Paints a run with a brush, its ends in any order. -/
def brushRow (p : Painter) (x1 x2 y : Int) (brush : Brush) (background : Pixel) : Painter :=
  let (q, runs) := p.visibleRuns x1 x2 y
  q.plotAll (runs.flatMap fun r =>
    (brush.spanPixels background y r.1 (r.2 - r.1 + 1).toNat).map fun d => ⟨d.1, y, d.2⟩)

/-- The last column of a span. -/
def lastOf (s : Span) : Int := wrap32 (s.x + s.width - 1)

/-- Paints spans with a brush, one after another; those without pixels are left out. -/
def brushSpans (p : Painter) (spans : List Span) (brush : Brush) (background : Pixel) : Painter :=
  spans.foldl (fun p s => if 0 < s.width then p.brushRow s.x (lastOf s) s.y brush background else p) p

end Painter

end Rasterizer
