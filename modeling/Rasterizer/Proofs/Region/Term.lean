import Rasterizer.Region.Basic
import Mathlib.Data.Set.Basic

/-! # Region terms

A term is a way to make a region. `Term.run` makes it with the operations of the library, which
keep 32 bits of each edge that they move, and `Term.eval` with moves over any distance;
`Term.pixels` performs the same steps on plain sets of pixels. A rectangle that is an
operand may have its edges in the wrong order and stands for the pixels between them. -/

namespace Rasterizer

/-- The pixels inside. -/
def Rect.pixels (rc : Rect) : Set Point := {p | rc.contains p.x p.y = true}

namespace Region

inductive Term where
  | empty
  | rect (rc : Rect)
  | rects (rcs : List Rect)
  | unionRect (e : Term) (rc : Rect)
  | intersectRect (e : Term) (rc : Rect)
  | subtractRect (e : Term) (rc : Rect)
  | union (e f : Term)
  | intersect (e f : Term)
  | offset (e : Term) (dx dy : Int)

namespace Term

def eval : Term → Region
  | empty => Region.empty
  | rect rc => ofRect rc
  | rects rcs => ofRects rcs
  | unionRect e rc => e.eval.unionRect rc
  | intersectRect e rc => e.eval.intersectRect rc
  | subtractRect e rc => e.eval.subtractRect rc
  | union e f => e.eval.union f.eval
  | intersect e f => e.eval.intersect f.eval
  | offset e dx dy => e.eval.shift dx dy

def run : Term → Region
  | empty => Region.empty
  | rect rc => ofRect rc
  | rects rcs => ofRects rcs
  | unionRect e rc => e.run.unionRect rc
  | intersectRect e rc => e.run.intersectRect rc
  | subtractRect e rc => e.run.subtractRect rc
  | union e f => e.run.union f.run
  | intersect e f => e.run.intersect f.run
  | offset e dx dy => e.run.offset dx dy

/-- No move takes an edge of a rectangle out of 32 bits. -/
def Fits : Term → Prop
  | empty | rect _ | rects _ => True
  | unionRect e _ | intersectRect e _ | subtractRect e _ => e.Fits
  | union e f | intersect e f => e.Fits ∧ f.Fits
  | offset e dx dy => e.Fits ∧ ∀ rc ∈ (e.eval.shift dx dy).rects, rc.Fits

def pixels : Term → Set Point
  | empty => ∅
  | rect rc => rc.normalized.pixels
  | rects rcs => {p | ∃ rc ∈ rcs, p ∈ rc.normalized.pixels}
  | unionRect e rc => e.pixels ∪ rc.normalized.pixels
  | intersectRect e rc => e.pixels ∩ rc.normalized.pixels
  | subtractRect e rc => e.pixels \ rc.normalized.pixels
  | union e f => e.pixels ∪ f.pixels
  | intersect e f => e.pixels ∩ f.pixels
  | offset e dx dy => (fun p => p.shift ⟨dx, dy⟩) '' e.pixels

end Term

end Region

end Rasterizer
