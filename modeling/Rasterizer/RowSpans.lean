import Rasterizer.Rect
import Rasterizer.Scalar

/-! Sets of pixels as runs on rows. Runs are collected in any order; `normalize` sorts
them and joins those that overlap or touch, so that each pixel lies in one run. -/

namespace Rasterizer

structure RowSpans where
  /-- The runs in order of arrival, none without pixels. -/
  runs : List Run
deriving Repr, DecidableEq

namespace RowSpans

def empty : RowSpans := ⟨[]⟩

/-- The collection with one more run; one without pixels changes nothing. -/
def add (s : RowSpans) (r : Run) : RowSpans := if r.x2 < r.x1 then s else ⟨s.runs ++ [r]⟩

/-- The collection of the given runs, those without pixels left out. -/
def ofRuns (rs : List Run) : RowSpans := ⟨rs.filter fun r => r.x1 ≤ r.x2⟩

/-- The runs from the top row down, those of one row in order of arrival. -/
def toList (s : RowSpans) : List Run := s.runs.mergeSort fun a b => a.y ≤ b.y

def isEmpty (s : RowSpans) : Bool := s.runs.isEmpty

/-- Some run covers the pixel. -/
def Covers (s : RowSpans) (p : Point) : Prop := ∃ r ∈ s.runs, r.Covers p

/-- Row by row, by the left end and then by the right end. -/
def runLe (a b : Run) : Bool :=
  a.y < b.y || (a.y = b.y && (a.x1 < b.x1 || (a.x1 = b.x1 && a.x2 ≤ b.x2)))

/-- Joins each run of a sorted list to the one before it when they overlap or touch. -/
def joinRuns (cur : Run) : List Run → List Run
  | [] => [cur]
  | r :: rest =>
    if r.y = cur.y ∧ r.x1 ≤ cur.x2 + 1 then joinRuns { cur with x2 := max cur.x2 r.x2 } rest
    else cur :: joinRuns r rest

/-- The same pixels in sorted runs with gaps between them. -/
def normalize (s : RowSpans) : RowSpans :=
  match s.runs.mergeSort runLe with
  | [] => empty
  | r :: rest => ⟨joinRuns r rest⟩

/-- The parts of the columns from `start` to `stop` that the given runs leave. -/
def cutRun (y start stop : Int) : List Run → List Run
  | [] => if start ≤ stop then [⟨start, stop, y⟩] else []
  | c :: cs =>
    if c.x2 < start ∨ stop < c.x1 then cutRun y start stop cs
    else
      let after := max start (c.x2 + 1)
      (if start < c.x1 then [⟨start, c.x1 - 1, y⟩] else []) ++
        if stop < after then [] else cutRun y after stop cs

/-- The pixels of `s` that a sorted collection does not cover. -/
def subtract (s other : RowSpans) : RowSpans :=
  ⟨s.runs.flatMap fun r => cutRun r.y r.x1 r.x2 (other.runs.filter fun c => c.y = r.y)⟩

/-- The number of pixels. The length of a run is taken in 32 bits, the sum in 64. -/
def pixelCount (s : RowSpans) : Nat :=
  (s.runs.foldl (fun n r => n + wrap32 (r.x2 - r.x1 + 1)) 0 % 18446744073709551616).toNat

/-- The rectangle made as large as it takes to hold a run. -/
def extend (rc : Rect) (r : Run) : Rect :=
  ⟨min rc.left r.x1, min rc.top r.y, max rc.right (r.x2 + 1), max rc.bottom (r.y + 1)⟩

/-- The smallest rectangle around all runs, if there are any. -/
def bound? (s : RowSpans) : Option Rect :=
  match s.runs with
  | [] => none
  | r :: rest => some (rest.foldl extend ⟨r.x1, r.y, r.x2 + 1, r.y + 1⟩)

end RowSpans

end Rasterizer
