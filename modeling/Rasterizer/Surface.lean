import Rasterizer.PixelFormat
import Rasterizer.Rect
import Rasterizer.Scalar

/-! Surfaces: the bytes of a picture, rows from the top, each pixel in little-endian
order. Reading outside gives nothing and writing outside changes nothing. -/

namespace Rasterizer

/-- Byte `i` of a pixel, the lowest first. -/
def pixelByte (p : Pixel) (i : Nat) : UInt8 := UInt8.ofNat (p.toNat >>> (8 * i))

/-- The number made of the `n` bytes from `off` on, the lowest first. -/
def readBytes (data : Array UInt8) (off : Nat) : Nat → Nat
  | 0 => 0
  | n + 1 => (data.getD off 0).toNat + 256 * readBytes data (off + 1) n

/-- The buffer with the `n` low bytes of `v` written from `off` on, the lowest first. -/
def writeBytes (data : Array UInt8) (off : Nat) (v : Nat) : Nat → Array UInt8
  | 0 => data
  | n + 1 => writeBytes (data.setIfInBounds off (UInt8.ofNat v)) (off + 1) (v / 256) n

theorem size_writeBytes (data : Array UInt8) (off v n : Nat) :
    (writeBytes data off v n).size = data.size := by
  induction n generalizing data off v with
  | zero => rfl
  | succ n ih => simp [writeBytes, ih]

structure Surface where
  width : Nat
  height : Nat
  format : PixelFormat
  data : Array UInt8
  size_data : data.size = width * height * format.bytesPerPixel

namespace Surface

/-- The largest extent of a surface. -/
def maxExtent : Nat := 2147483647

/-- The largest buffer that an address space of 47 bits has room for. -/
def maxBytes : Nat := 140737488355328

def create (width height : Nat) (format : PixelFormat) : Except RasterError Surface :=
  if width = 0 ∨ height = 0 ∨ maxExtent < width ∨ maxExtent < height then
    throw (.invalidSurface width height format.bytesPerPixel)
  else if maxBytes < width * height * format.bytesPerPixel then
    throw (.resourceExhausted "surface pixels")
  else
    pure ⟨width, height, format, Array.replicate (width * height * format.bytesPerPixel) 0,
      by simp⟩

def bytesPerPixel (s : Surface) : Nat := s.format.bytesPerPixel

def pitch (s : Surface) : Nat := s.width * s.bytesPerPixel

def rect (s : Surface) : Rect := ⟨0, 0, s.width, s.height⟩

def inside (s : Surface) (x y : Int) : Bool :=
  0 ≤ x && x < (s.width : Int) && 0 ≤ y && y < (s.height : Int)

/-- Where the bytes of the pixel `(x, y)` begin. -/
def byteOffset (s : Surface) (x y : Int) : Nat :=
  (y.toNat * s.width + x.toNat) * s.bytesPerPixel

def get? (s : Surface) (x y : Int) : Option Pixel :=
  if s.inside x y then
    some (UInt32.ofNat (readBytes s.data (s.byteOffset x y) s.bytesPerPixel))
  else none

/-- The surface with the low bytes of `p` stored at `(x, y)`. -/
def put (s : Surface) (x y : Int) (p : Pixel) : Surface :=
  if s.inside x y then
    { s with
      data := writeBytes s.data (s.byteOffset x y) p.toNat s.bytesPerPixel
      size_data := by rw [size_writeBytes]; exact s.size_data }
  else s

/-- The surface with the low bytes of `p` stored everywhere. -/
def fill (s : Surface) (p : Pixel) : Surface :=
  { s with
    data := Array.ofFn fun i : Fin (s.width * s.height * s.format.bytesPerPixel) =>
      pixelByte p (i.val % s.bytesPerPixel)
    size_data := by simp }

def count (s : Surface) (p : Pixel) : Nat :=
  (List.range s.height).foldl (fun n (y : Nat) =>
    n + (List.range s.width).countP fun x : Nat => s.get? x y == some p) 0

def hasRow (s : Surface) (y : Int) : Bool := 0 ≤ y && y < (s.height : Int)

def row? (s : Surface) (y : Int) : Option (Array UInt8) :=
  if s.hasRow y then some (s.data.extract (y.toNat * s.pitch) (y.toNat * s.pitch + s.pitch))
  else none

def setByte (s : Surface) (i : Nat) (v : UInt8) : Except Fault Surface :=
  if i < s.data.size then
    pure { s with
      data := s.data.setIfInBounds i v
      size_data := by rw [Array.size_setIfInBounds]; exact s.size_data }
  else throw .outOfRange

def setRowByte (s : Surface) (y : Int) (i : Nat) (v : UInt8) : Except Fault Surface :=
  if s.hasRow y then
    if i < s.pitch then s.setByte (y.toNat * s.pitch + i) v else throw .outOfRange
  else pure s

end Surface

end Rasterizer
