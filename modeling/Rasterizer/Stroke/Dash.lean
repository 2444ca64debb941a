import Rasterizer.Stroke.Shape

/-! Cutting a path into dashes. The dash lengths repeat along the whole path, and a
dash may bend around corners. -/

namespace Rasterizer.Stroke

/-- A piece of a path: a dash, or a gap. -/
structure Piece where
  isOn : Bool
  path : List Vec

/-- Where a path stands among the dashes. -/
structure DashPlace where
  /-- The number of the current dash, counted on as the lengths repeat. -/
  index : Nat
  /-- What is left of it. -/
  rest : Float

/-- The length of the dash of that number. -/
def dashLength (pattern : List Nat) (index : Nat) : Float :=
  .ofNat (pattern.getD (index % pattern.length) 0)

/-- The place that lies `skip` into the lengths, the first of which has the number `index`. -/
def skipInto (index skip : Nat) : List Nat → DashPlace
  | [] => ⟨index, 0.0⟩
  | d :: ds => if d ≤ skip then skipInto (index + 1) (skip - d) ds else ⟨index, .ofNat (d - skip)⟩

/-- The place where a path begins that far into the repeated lengths. -/
def DashPlace.start (pattern : List Nat) (offset : Nat) : DashPlace :=
  skipInto 0 (offset % pattern.foldl (· + ·) 0) pattern

/-- A path cut so far. -/
structure Cutting where
  place : DashPlace
  /-- The points of the current piece, the last one first. -/
  current : List Vec
  /-- The pieces already cut off, the last one first. -/
  done : List Piece

def Cutting.piece (c : Cutting) : Piece := ⟨c.place.index % 2 = 0, c.current.reverse⟩

/-- Cuts off all dashes that end before `length` more along the direction `d` from `a`, and goes
on to the end `b`. -/
def Cutting.advance (pattern : List Nat) (d b : Vec) : Nat → Vec → Float → Cutting → Cutting
  | 0, _, _, c => c
  | n + 1, a, length, c =>
    if length > c.place.rest then
      let cut := a.along d c.place.rest
      let c : Cutting := { c with current := cut :: c.current }
      advance pattern d b n cut (length - c.place.rest)
        { place := ⟨c.place.index + 1, dashLength pattern (c.place.index + 1)⟩
          current := [cut]
          done := c.piece :: c.done }
    else
      { c with
        place := { c.place with rest := c.place.rest - length }
        current := b :: c.current }

/-- A bound on the number of dashes along a length; every dash but the first is at least 1 long. -/
def dashBound (length : Float) : Nat := 2 * length.toUInt64.toNat + 4

/-- The cutting after each further point of a path. -/
def Cutting.follow (pattern : List Nat) : Vec → List Vec → Cutting → Cutting
  | _, [], c => c
  | a, b :: rest, c =>
    let c := match direction? a b with
      | none => c
      | some (d, length) => c.advance pattern d b (dashBound length) a length
    follow pattern b rest c

/-- The dashes and gaps of a path. -/
def dashPieces (pattern : List Nat) (offset : Nat) : List Vec → List Piece
  | [] => []
  | p :: rest =>
    let c := Cutting.follow pattern p rest ⟨.start pattern offset, [p], []⟩
    (if c.current.length > 1 then c.piece :: c.done else c.done).reverse

end Rasterizer.Stroke
