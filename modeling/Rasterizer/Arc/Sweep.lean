import Rasterizer.Angle

/-! Sweeps of angles. Angles run counter-clockwise from three o'clock while rows grow
downwards; a negative sweep runs clockwise. -/

namespace Rasterizer

/-- The directions from `start` counter-clockwise over `extent` angle units. -/
structure Sweep where
  start : Int
  extent : Int
deriving Repr, DecidableEq

namespace Sweep

/-- The sweep from `angle` over the signed extent, its start brought into one turn. -/
def ofSigned (angle extent : Int) : Sweep :=
  if extent < 0 then ⟨(angle + extent) % Angle.fullTurn, -extent⟩
  else ⟨angle % Angle.fullTurn, extent⟩

def isFull (s : Sweep) : Bool := Angle.fullTurn ≤ s.extent

def contains (s : Sweep) (theta : Int) : Bool :=
  s.isFull || (theta - s.start) % Angle.fullTurn ≤ s.extent

end Sweep

end Rasterizer
