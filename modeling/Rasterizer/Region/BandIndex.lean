import Rasterizer.Region.Basic

/-! Finding the band of a row by its place in the list of rectangles. A search may
start at a remembered place; the answer does not depend on it. Whether a pixel belongs
to the region is looked up in the band of its row. -/

namespace Rasterizer.Region

/-- The place of the first rectangle of the band that holds the rectangle at `i`. -/
def bandStart (rects : List Rect) (top : Int) : Nat → Nat
  | 0 => 0
  | i + 1 =>
    match rects[i]? with
    | some rc => if rc.top = top then bandStart rects top i else i + 1
    | none => i + 1

/-- The rectangles of the band that begins at `start`. -/
def bandAt (a : Region) (start : Nat) : List Rect :=
  match a.rects[start]? with
  | none => []
  | some rc => (a.rects.drop start).takeWhile fun r => r.top = rc.top

/-- The last place at or before `i` whose rectangle does not begin below the row `y`. -/
def seekUp (rects : List Rect) (y : Int) : Nat → Nat
  | 0 => 0
  | i + 1 =>
    match rects[i + 1]? with
    | some rc => if y < rc.top then seekUp rects y i else i + 1
    | none => i + 1

/-- The first place from `i` on whose rectangle does not end above the row `y`. -/
def seekDown (rects : List Rect) (y : Int) (i : Nat) : Option Nat :=
  ((rects.drop i).findIdx? fun rc => y < rc.bottom).map (· + i)

/-- The place where the walk towards the row `y` stops that starts at `near`. -/
def seek (rects : List Rect) (y : Int) (near : Nat) : Option Nat := do
  let start ← rects[near]?
  if y < start.top then some (seekUp rects y near) else seekDown rects y near

/-- The place where the band of the row `y` begins. The search starts at the hint when
that is a place of the list. -/
def bandOf? (a : Region) (y : Int) (hint : Option Nat) : Option Nat := do
  let first ← a.rects.head?
  let last ← a.rects.getLast?
  if y < first.top ∨ last.bottom ≤ y then none
  else
    let i ← seek a.rects y ((hint.filter fun i => i < a.rects.length).getD 0)
    let rc ← a.rects[i]?
    if y < rc.top ∨ rc.bottom ≤ y then none else some (bandStart a.rects rc.top i)

/-- The pixel `(x, y)` belongs to the region: a rectangle of the band of its row holds it. -/
def contains (a : Region) (x y : Int) : Bool :=
  match a.bandOf? y none with
  | some start => (a.bandAt start).any fun rc => rc.contains x y
  | none => false

end Rasterizer.Region
