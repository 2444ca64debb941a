import Rasterizer.Fault

/-! Colours of eight bits a channel, their mixtures, and the raster operations that
combine a new pixel with the one it lands on. -/

namespace Rasterizer

/-- A packed pixel; its surface's format says what the bits mean. -/
abbrev Pixel := UInt32

structure Color where
  r : UInt8
  g : UInt8
  b : UInt8
  a : UInt8
deriving Repr, DecidableEq, Inhabited

namespace Color

def opaqueRgb (r g b : UInt8) : Color := ⟨r, g, b, 255⟩

def withAlpha (c : Color) (a : UInt8) : Color := { c with a := a }

/-- One channel moved from `dst` towards `src` by `a` of 256 parts, rounded down. -/
def blendChannel (src dst a : UInt8) : UInt8 :=
  UInt8.ofNat ((((src.toNat : Int) - dst.toNat) * a.toNat).fdiv 256 + dst.toNat).toNat

/-- The colour `src` laid over `dst` by its own alpha. -/
def blendOver (src dst : Color) : Color :=
  opaqueRgb (blendChannel src.r dst.r src.a) (blendChannel src.g dst.g src.a)
    (blendChannel src.b dst.b src.a)

/-- One channel as the weighted mean of `bg` and `fg`, rounded down. -/
def mixChannel (bg fg : UInt8) (weight total : Nat) : UInt8 :=
  UInt8.ofNat ((bg.toNat * (total - weight) + fg.toNat * weight) / total)

/-- The mean of `bg` and `fg` in which `fg` weighs `weight` of `total`. -/
def mix (bg fg : Color) (weight total : Nat) : Color :=
  opaqueRgb (mixChannel bg.r fg.r weight total) (mixChannel bg.g fg.g weight total)
    (mixChannel bg.b fg.b weight total)

/-- The weighted mean, with a zero total refused. -/
def mix? (bg fg : Color) (weight total : Nat) : Except Fault Color :=
  if total = 0 then throw .zeroDivisor else pure (mix bg fg weight total)

end Color

/-- How a new pixel combines with the one it lands on. -/
inductive RasterOp where
  | set | and | or | xor
deriving Repr, DecidableEq, Inhabited

/-- The pixel left when `src` is drawn on `dst`. -/
def RasterOp.apply : RasterOp → Pixel → Pixel → Pixel
  | .set, _, src => src
  | .and, dst, src => dst &&& src
  | .or, dst, src => dst ||| src
  | .xor, dst, src => dst ^^^ src

/-- Drawing the same pixel twice with `xor` leaves the old one. -/
theorem RasterOp.xor_xor (dst src : Pixel) :
    RasterOp.xor.apply (RasterOp.xor.apply dst src) src = dst := by
  simp only [RasterOp.apply, UInt32.xor_assoc, UInt32.xor_self, UInt32.xor_zero]

end Rasterizer
