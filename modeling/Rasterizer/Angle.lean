import Rasterizer.Scalar

/-! Angles are integers counted in 64ths of a degree. -/

namespace Rasterizer.Angle

/-- Angle units in one degree. -/
def unitsPerDegree : Int := 64

def fullTurn : Int := 360 * unitsPerDegree

/-- Tenths of a degree to angle units, cut toward zero. -/
def ofTenths (tenths : Int) : Int := wrap32 ((tenths * 32).tdiv 5)

/-- The same direction counted from 0 up to one full turn. -/
def normalize (angle : Int) : Int := angle % fullTurn

theorem normalize_nonneg (angle : Int) : 0 ≤ normalize angle :=
  Int.emod_nonneg _ (by decide)

theorem normalize_lt (angle : Int) : normalize angle < fullTurn :=
  Int.emod_lt_of_pos _ (by decide)

def radiansOfDegrees (degrees : Float) : Float := degrees * (3.141592653589793 / 180.0)

def degreesOfRadians (radians : Float) : Float := radians * 57.29577951308232

def toRadians (angle : Int) : Float := radiansOfDegrees (Float.ofInt angle / 64.0)

end Rasterizer.Angle
