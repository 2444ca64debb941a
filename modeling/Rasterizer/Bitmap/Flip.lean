import Rasterizer.Bitmap.BitRow
import Rasterizer.Fault

/-! Mirrored pictures. Only the rows and columns of the picture move; padding and
anything behind the picture stays. -/

namespace Rasterizer

/-- The number of whole rows at hand, `h` at most. -/
def wholeRows (size pitch : Nat) (h : Int) : Nat := min (size / pitch) h.toNat

/-- Packed rows mirrored left to right. The bits of a row must fit into it. -/
def flipBits (data : Array UInt8) (w h : Int) (pitch : Nat) : Except Fault (Array UInt8) :=
  let rows := wholeRows data.size pitch h
  let w := w.toNat
  if pitch = 0 then throw .emptyRows
  else if 0 < rows ∧ 2 ≤ w ∧ pitch ≤ (w - 1) / 8 then throw .outOfRange
  else
    pure (data.mapIdx fun i v =>
      if i / pitch < rows then
        packByte fun k =>
          let x := i % pitch * 8 + k
          packedBit data (i / pitch * pitch) (if x < w then w - 1 - x else x)
      else v)

/-- Rows of pixels of `bpp` bytes mirrored left to right. The pixels of a row must fit into it. -/
def flipPixels (data : Array UInt8) (w h : Int) (pitch bpp : Nat) : Except Fault (Array UInt8) :=
  let rows := wholeRows data.size pitch h
  let w := w.toNat
  if pitch = 0 then throw .emptyRows
  else if 0 < rows ∧ pitch < w * bpp then throw .outOfRange
  else
    pure (data.mapIdx fun i v =>
      let c := i % pitch
      if i / pitch < rows ∧ c < w * bpp then
        data.getD (i / pitch * pitch + (w - 1 - c / bpp) * bpp + c % bpp) v
      else v)

/-- Rows of `pitch` elements mirrored top to bottom. All rows must be there. -/
def flipRows {α : Type} (data : Array α) (h : Int) (pitch : Nat) : Except Fault (Array α) :=
  let h := h.toNat
  if 2 ≤ h ∧ data.size < h * pitch then throw .outOfRange
  else
    pure (data.mapIdx fun i v =>
      if i / pitch < h then data.getD ((h - 1 - i / pitch) * pitch + i % pitch) v else v)

end Rasterizer
