import Rasterizer.PixelFormat

/-! Colour ramps: the colours of text from no coverage to full coverage, worked out
once for a pair of text and background colours. -/

namespace Rasterizer

/-- The steps of a ramp, no coverage first. -/
def rampSize : Nat := 17

/-- A ramp of pixels to be drawn, or of colours to be laid over what is there. -/
inductive GreyRamp where
  | opaquePixels (ramp : Array Pixel)
  | blended (ramp : Array Color)
deriving Repr, DecidableEq

/-- The ramps that belong to a pair of colours. -/
structure Ramps where
  grey : GreyRamp
  /-- For the book weight, in formats that blending has a companion for. -/
  book : Option (Array Color)
  /-- A pixel unlike text and background, the background, and the text. -/
  light : Pixel × Pixel × Pixel
deriving Repr, DecidableEq

namespace Ramps

def alphaAt (i : Nat) : UInt8 := if i = 16 then 255 else UInt8.ofNat (i * 16)

/-- The text colour at each alpha, as a blending format stores it. -/
def alphaRamp (companion : PixelFormat) (text : Color) : Array Color :=
  Array.ofFn fun i : Fin rampSize => companion.getRgba (companion.mapRgba (text.withAlpha (alphaAt i)))

/-- One channel after `i` equal steps from the background towards the text. -/
def channelAt (bk text : UInt8) (i : Nat) : UInt8 :=
  UInt8.ofNat (bk.toNat + ((text.toNat : Int) - bk.toNat).tdiv 16 * i).toNat

/-- The pixels from background to text; without steps between them all but the last are background. -/
def pixelRamp (format : PixelFormat) (text bk : Pixel) (steps : Bool) : Array Pixel :=
  let t := format.getRgb text
  let b := format.getRgb bk
  Array.ofFn fun i : Fin rampSize =>
    if i.val = 16 then text
    else if i.val = 0 ∨ steps = false then bk
    else format.mapRgb (channelAt b.r t.r i) (channelAt b.g t.g i) (channelAt b.b t.b i)

/-- A pixel that is neither the background nor the text. -/
def otherPixel (text bk : Pixel) : Pixel := if bk ^^^ 1 = text then bk ^^^ 3 else bk ^^^ 1

/-- The ramps of a format for text on a background that is drawn or left alone. -/
def compute (format : PixelFormat) (text bk : Pixel) (transparent : Bool) : Ramps :=
  let companion := PixelFormat.alphaCompanion? format.bytesPerPixel
  let t := format.getRgb text
  { grey :=
      match companion, transparent with
      | some c, true => .blended (alphaRamp c t)
      | _, _ => .opaquePixels (pixelRamp format text bk (8 < format.bitsPerPixel))
    book := companion.map fun c => alphaRamp c t
    light := (otherPixel text bk, bk, text) }

end Ramps

end Rasterizer
