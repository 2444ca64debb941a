import Rasterizer.Color

/-! Pixel formats. A format packs a colour into 1 to 4 bytes by one bit mask a
channel; a channel takes as many of the high bits of its colour as its mask has,
eight at most. -/

namespace Rasterizer

def bitCount (mask : UInt32) : Nat := (List.range 32).countP mask.toNat.testBit

/-- The place of the lowest set bit of a mask, 0 for the empty one. -/
def lowestBit (mask : UInt32) : Nat := ((List.range 32).find? mask.toNat.testBit).getD 0

/-- One colour channel of a packed pixel. -/
structure Channel where
  mask : UInt32
  /-- The place of the mask's lowest bit. -/
  shift : Nat
  /-- How many bits of the channel are stored. -/
  bits : Nat
  shift_eq : shift = lowestBit mask
  bits_eq : bits = min (bitCount mask) 8

namespace Channel

def ofMask (mask : UInt32) : Channel :=
  ⟨mask, lowestBit mask, min (bitCount mask) 8, rfl, rfl⟩

theorem ext_mask {c d : Channel} (h : c.mask = d.mask) : c = d := by
  cases c; cases d; simp_all

instance : DecidableEq Channel := fun c d =>
  if h : c.mask = d.mask then .isTrue (ext_mask h)
  else .isFalse fun e => h (e ▸ rfl)

/-- The channel's bits of a pixel of intensity `v`. -/
def pack (c : Channel) (v : UInt8) : Pixel :=
  if c.mask = 0 then 0
  else ((v.toUInt32 >>> UInt32.ofNat (8 - c.bits)) <<< UInt32.ofNat c.shift) &&& c.mask

/-- The intensity stored in a pixel, spread over 0 to 255 and rounded to nearest. -/
def unpack (c : Channel) (p : Pixel) : UInt8 :=
  if c.mask = 0 then 0
  else
    let v := ((p &&& c.mask) >>> UInt32.ofNat c.shift).toNat
    let top := (1 <<< c.bits) - 1
    UInt8.ofNat ((v * 255 + top / 2) / top)

end Channel

/-- How colours are packed into pixels of 1 to 4 bytes. -/
structure PixelFormat where
  bytesPerPixel : Nat
  red : Channel
  green : Channel
  blue : Channel
  alpha : Channel
  one_le_bytesPerPixel : 1 ≤ bytesPerPixel
  bytesPerPixel_le_four : bytesPerPixel ≤ 4
deriving DecidableEq

namespace PixelFormat

/-- The format of the given masks; a pixel has 1 to 4 bytes. -/
def ofMasks? (bytesPerPixel : Nat) (r g b a : UInt32) : Except RasterError PixelFormat :=
  if h : 1 ≤ bytesPerPixel ∧ bytesPerPixel ≤ 4 then
    pure ⟨bytesPerPixel, .ofMask r, .ofMask g, .ofMask b, .ofMask a, h.1, h.2⟩
  else throw (.unsupportedPixelFormat bytesPerPixel)

/-- One byte: three bits of red, three of green, two of blue. -/
def indexed8 : PixelFormat :=
  ⟨1, .ofMask 0xE0, .ofMask 0x1C, .ofMask 0x03, .ofMask 0, by decide, by decide⟩

/-- Two bytes: five bits of red, six of green, five of blue. -/
def rgb565 : PixelFormat :=
  ⟨2, .ofMask 0xF800, .ofMask 0x07E0, .ofMask 0x001F, .ofMask 0, by decide, by decide⟩

/-- Three bytes, one a channel. -/
def rgb888 : PixelFormat :=
  ⟨3, .ofMask 0xFF0000, .ofMask 0xFF00, .ofMask 0xFF, .ofMask 0, by decide, by decide⟩

/-- Four bytes, one a channel, alpha highest. -/
def argb8888 : PixelFormat :=
  ⟨4, .ofMask 0xFF0000, .ofMask 0xFF00, .ofMask 0xFF, .ofMask 0xFF000000, by decide, by decide⟩

/-- The format with an alpha channel used for blending into pixels of that many bytes. -/
def alphaCompanion? : Nat → Option PixelFormat
  | 2 => some ⟨2, .ofMask 0xF000, .ofMask 0x0F00, .ofMask 0x00F0, .ofMask 0x000F,
      by decide, by decide⟩
  | 3 => some ⟨3, .ofMask 0xFC0000, .ofMask 0x03F000, .ofMask 0x0FC0, .ofMask 0x3F,
      by decide, by decide⟩
  | 4 => some ⟨4, .ofMask 0xFF000000, .ofMask 0xFF0000, .ofMask 0xFF00, .ofMask 0xFF,
      by decide, by decide⟩
  | _ => none

def bitsPerPixel (f : PixelFormat) : Nat := f.bytesPerPixel * 8

def hasAlpha (f : PixelFormat) : Bool := f.alpha.mask != 0

/-- The pixel of an opaque colour. -/
def mapRgb (f : PixelFormat) (r g b : UInt8) : Pixel :=
  f.red.pack r ||| f.green.pack g ||| f.blue.pack b ||| f.alpha.mask

/-- The opaque pixel of a colour's three channels. -/
def mapOpaque (f : PixelFormat) (c : Color) : Pixel := f.mapRgb c.r c.g c.b

/-- The pixel of a colour with its alpha. -/
def mapRgba (f : PixelFormat) (c : Color) : Pixel :=
  f.red.pack c.r ||| f.green.pack c.g ||| f.blue.pack c.b ||| f.alpha.pack c.a

/-- The colour of a pixel, taken as opaque. -/
def getRgb (f : PixelFormat) (p : Pixel) : Color :=
  .opaqueRgb (f.red.unpack p) (f.green.unpack p) (f.blue.unpack p)

/-- The colour of a pixel; without an alpha channel it is opaque. -/
def getRgba (f : PixelFormat) (p : Pixel) : Color :=
  ⟨f.red.unpack p, f.green.unpack p, f.blue.unpack p,
    if f.hasAlpha then f.alpha.unpack p else 255⟩

end PixelFormat

end Rasterizer
