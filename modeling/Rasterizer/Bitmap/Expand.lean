import Rasterizer.Bitmap.BitRow
import Rasterizer.Bitmap.Buffer
import Rasterizer.Scalar

/-! Bolder and larger pictures of packed bits. A bold picture is one column wider, and
each set bit also sets its right neighbour; a magnified one has a square of bits for
each bit. The unused bits at the end of a row are clear. Either is made in a buffer that is kept for
reuse. -/

namespace Rasterizer

/-- A packed picture with the bytes of one row and its width in bits. -/
structure PackedRows where
  width : Int
  pitch : Nat
  data : Array UInt8

/-- The bit at `(x, y)` or, in a bold picture, its left neighbour is set. -/
def boldBit (bold : Bool) (row : BitRow) (x : Int) : Bool := row.get x || (bold && row.get (x - 1))

/-- The buffer with the bits of a picture set, besides those that are set in it already. -/
def setBits (buffer : Array UInt8) (pitch : Nat) (bit : Nat → Nat → Bool) : Array UInt8 :=
  buffer.mapIdx fun i v => v ||| packByte fun k => bit (i % pitch * 8 + k) (i / pitch)

/-- The picture in bold, made in the buffer. A width that leaves no column at all is refused. -/
def expandBoldIn (buffer data : Array UInt8) (pitch : Nat) (width height : Int) :
    Except Fault PackedRows :=
  let pitch' := bitPitch (width + 1)
  if pitch' = 0 then throw .emptyRows
  else
    pure ⟨width + 1, pitch', setBits (Buffer.reset buffer (pitch' * height.toNat)) pitch' fun x y =>
      boldBit true (.ofPicture data pitch y width) x⟩

def expandScaleIn (buffer data : Array UInt8) (pitch : Nat) (width height scale : Int) (bold : Bool) :
    PackedRows :=
  let scale := max scale 1
  let width' := (width + if bold then 1 else 0) * scale
  let pitch' := bitPitch width'
  ⟨width', pitch', setBits (Buffer.reset buffer (pitch' * (max height 0 * scale).toNat)) pitch' fun x y =>
    boldBit bold (.ofPicture data pitch (y / scale.toNat) width) ((x : Int) / scale)⟩

/-- The picture in bold. Its width is a signed 32-bit number, so behind the largest one it is negative and
leaves no column either. -/
def expandBold (data : Array UInt8) (pitch : Nat) (width height : Int) : Except Fault PackedRows :=
  if Fits32 (width + 1) then expandBoldIn #[] data pitch width height else throw .emptyRows

def expandScale (data : Array UInt8) (pitch : Nat) (width height scale : Int) (bold : Bool) :
    PackedRows :=
  expandScaleIn #[] data pitch width height scale bold

end Rasterizer
