import Rasterizer.Surface

/-! What has changed between two states of a surface, and a number by which states are
told apart. -/

namespace Rasterizer

/-- A stretch of neighbouring pixels that have changed to one value. -/
structure Change where
  run : Run
  value : Pixel
deriving Repr, DecidableEq

namespace Surface

/-- The value of the pixel `(x, y)` of `new` if `old` has another there. -/
def changedTo? (old new : Surface) (x y : Int) : Option Pixel :=
  match new.get? x y with
  | some v => if old.get? x y = some v then none else some v
  | none => none

/-- The changes among `n` pixels of the row `y` from `x` on, the first of which goes on from the
given one. -/
def rowChanges (old new : Surface) (y : Int) : Nat → Int → Option Change → List Change
  | 0, _, last => last.toList
  | n + 1, x, last =>
    match changedTo? old new x y, last with
    | none, last => last.toList ++ rowChanges old new y n (x + 1) none
    | some v, none => rowChanges old new y n (x + 1) (some ⟨⟨x, x, y⟩, v⟩)
    | some v, some c =>
      if c.value = v then rowChanges old new y n (x + 1) (some ⟨{ c.run with x2 := x }, v⟩)
      else c :: rowChanges old new y n (x + 1) (some ⟨⟨x, x, y⟩, v⟩)

/-- The changes from one state of a surface to another, row by row, left to right. -/
def changes (old new : Surface) : List Change :=
  (List.range new.height).flatMap fun y : Nat => rowChanges old new y new.width 0 none

def checksum (s : Surface) : UInt32 :=
  s.data.foldl (fun h b => (h * 16777619) ^^^ b.toUInt32) 0

def putRect (s : Surface) (rc : Rect) (p : Pixel) : Surface :=
  ((List.range s.height).filter fun y : Nat => rc.top ≤ y && (y : Int) < rc.bottom).foldl
    (fun s (y : Nat) =>
      ((List.range s.width).filter fun x : Nat => rc.left ≤ x && (x : Int) < rc.right).foldl
        (fun s (x : Nat) => s.put x y p) s)
    s

end Surface

end Rasterizer
