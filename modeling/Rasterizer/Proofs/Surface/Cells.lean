import Rasterizer.Surface
import Mathlib.Algebra.Group.Nat.Defs

/-! # Pixels are cells of their own

A pixel takes the bytes from its offset on, and no other pixel takes any of them. So writing a
pixel shows at that pixel only (`Surface.get?_put`), and where two surfaces of one shape have
equal pixels they have equal bytes (`Surface.getElem?_data_eq`). -/

namespace Rasterizer

/-! ## Numbers in bytes -/

theorem getElem?_writeBytes (data : Array UInt8) (off v n i : Nat) :
    (writeBytes data off v n)[i]? =
      if off ≤ i ∧ i < off + n then data[i]?.map fun _ => UInt8.ofNat (v / 256 ^ (i - off))
      else data[i]? := by
  induction n generalizing data off v with
  | zero => rw [if_neg (by omega), writeBytes]
  | succ n ih =>
    rw [writeBytes, ih, Array.getElem?_setIfInBounds]
    by_cases hfirst : off = i
    · subst hfirst
      rw [if_neg (show ¬(off + 1 ≤ off ∧ off < off + 1 + n) by omega), if_pos rfl,
        if_pos (show off ≤ off ∧ off < off + (n + 1) by omega), Nat.sub_self, Nat.pow_zero, Nat.div_one]
      by_cases hlt : off < data.size <;> simp [hlt]
    · rw [if_neg hfirst]
      by_cases hin : off + 1 ≤ i ∧ i < off + 1 + n
      · rw [if_pos hin, if_pos (by omega), Nat.div_div_eq_div_mul, ← Nat.pow_succ',
          show (i - (off + 1)).succ = i - off by omega]
      · rw [if_neg hin, if_neg (by omega)]

theorem readBytes_congr {a b : Array UInt8} {off n : Nat}
    (h : ∀ i, off ≤ i → i < off + n → a[i]? = b[i]?) : readBytes a off n = readBytes b off n := by
  induction n generalizing off with
  | zero => rfl
  | succ n ih =>
    have hfirst := h off (Nat.le_refl _) (by omega)
    rw [readBytes, readBytes, ih fun i hi hin => h i (by omega) (by omega), Array.getD_eq_getD_getElem?,
      Array.getD_eq_getD_getElem?, hfirst]

theorem readBytes_lt (data : Array UInt8) (off n : Nat) : readBytes data off n < 256 ^ n := by
  induction n generalizing off with
  | zero => simp [readBytes]
  | succ n ih =>
    have := ih (off + 1)
    have := (data.getD off 0).toNat_lt
    rw [readBytes, Nat.pow_succ]
    omega

theorem readBytes_writeBytes {data : Array UInt8} {off n : Nat} (h : off + n ≤ data.size) (v : Nat) :
    readBytes (writeBytes data off v n) off n = v % 256 ^ n := by
  induction n generalizing data off v with
  | zero => simp [readBytes, Nat.mod_one]
  | succ n ih =>
    have hfirst : (writeBytes data off v (n + 1)).getD off 0 = UInt8.ofNat v := by
      rw [Array.getD_eq_getD_getElem?, getElem?_writeBytes, if_pos (by omega)]
      simp [show off < data.size by omega]
    rw [readBytes, hfirst, writeBytes, ih (by rw [Array.size_setIfInBounds]; omega), Nat.pow_succ',
      Nat.mod_mul]
    simp

/-- Equal numbers have equal bytes. -/
theorem getElem?_of_readBytes_eq {a b : Array UInt8} {off n : Nat} (ha : off + n ≤ a.size)
    (hb : off + n ≤ b.size) (h : readBytes a off n = readBytes b off n) {i : Nat} (hi : off ≤ i)
    (hin : i < off + n) : a[i]? = b[i]? := by
  induction n generalizing off with
  | zero => omega
  | succ n ih =>
    have hla := (a.getD off 0).toNat_lt
    have hlb := (b.getD off 0).toNat_lt
    rw [readBytes, readBytes] at h
    rcases Nat.eq_or_lt_of_le hi with rfl | hlt
    · have hbyte : a.getD off 0 = b.getD off 0 := UInt8.toNat_inj.mp (by omega)
      rw [Array.getD_eq_getD_getElem?, Array.getD_eq_getD_getElem?] at hbyte
      rw [Array.getElem?_eq_getElem (by omega), Array.getElem?_eq_getElem (by omega)] at hbyte ⊢
      simpa using hbyte
    · have hrest : readBytes a (off + 1) n = readBytes b (off + 1) n := by omega
      exact ih (by omega) (by omega) hrest hlt (by omega)

/-! ## Places of pixels -/

namespace PixelFormat

/-- The part of a pixel that is stored. -/
def kept (f : PixelFormat) (p : Pixel) : Pixel := UInt32.ofNat (p.toNat % 256 ^ f.bytesPerPixel)

theorem pow_bytesPerPixel_le (f : PixelFormat) : 256 ^ f.bytesPerPixel ≤ 2 ^ 32 := by
  calc 256 ^ f.bytesPerPixel ≤ 256 ^ 4 := Nat.pow_le_pow_right (by decide) f.bytesPerPixel_le_four
    _ = 2 ^ 32 := by decide

@[simp] theorem toNat_kept (f : PixelFormat) (p : Pixel) :
    (f.kept p).toNat = p.toNat % 256 ^ f.bytesPerPixel := by
  have hlt := Nat.mod_lt p.toNat (Nat.pow_pos (n := f.bytesPerPixel) (show 0 < 256 by decide))
  rw [kept, UInt32.toNat_ofNat', Nat.mod_eq_of_lt (Nat.lt_of_lt_of_le hlt f.pow_bytesPerPixel_le)]

theorem kept_of_lt {f : PixelFormat} {p : Pixel} (h : p.toNat < 256 ^ f.bytesPerPixel) : f.kept p = p := by
  rw [← UInt32.toNat_inj, toNat_kept, Nat.mod_eq_of_lt h]

@[simp] theorem kept_kept (f : PixelFormat) (p : Pixel) : f.kept (f.kept p) = f.kept p := by
  rw [← UInt32.toNat_inj, toNat_kept, toNat_kept, Nat.mod_mod]

theorem kept_xor (f : PixelFormat) (v p : Pixel) :
    f.kept (RasterOp.xor.apply v p) = RasterOp.xor.apply (f.kept v) (f.kept p) := by
  have hpow : 256 ^ f.bytesPerPixel = 2 ^ (8 * f.bytesPerPixel) := by rw [Nat.pow_mul]
  rw [← UInt32.toNat_inj]
  simp only [RasterOp.apply, toNat_kept, UInt32.toNat_xor, hpow, Nat.xor_mod_two_pow]

/-- What is stored comes back when the same value is combined with it twice. -/
theorem kept_xor_xor {f : PixelFormat} {v : Pixel} (hv : f.kept v = v) (p : Pixel) :
    f.kept (RasterOp.xor.apply (f.kept (RasterOp.xor.apply v p)) p) = v := by
  rw [kept_xor, kept_kept, kept_xor, RasterOp.xor_xor, hv]

end PixelFormat

namespace Surface

variable {s t : Surface} {x y x' y' : Int}

theorem inside_iff : s.inside x y = true ↔ 0 ≤ x ∧ x < s.width ∧ 0 ≤ y ∧ y < s.height := by
  simp [inside, and_assoc]

theorem rect_contains (s : Surface) (x y : Int) : s.rect.contains x y = s.inside x y := by
  rw [Bool.eq_iff_iff, Rect.contains_iff, inside_iff]
  exact Iff.rfl

/-- The number of a pixel, counted row by row from the top. -/
def cell (s : Surface) (x y : Int) : Nat := y.toNat * s.width + x.toNat

theorem cell_lt (h : s.inside x y = true) : s.cell x y < s.width * s.height := by
  rw [inside_iff] at h
  have hrow : (y.toNat + 1) * s.width ≤ s.height * s.width :=
    Nat.mul_le_mul_right _ (by omega)
  rw [Nat.add_mul] at hrow
  rw [cell, Nat.mul_comm s.width]
  omega

theorem cell_inj (h : s.inside x y = true) (h' : s.inside x' y' = true)
    (hcell : s.cell x y = s.cell x' y') : x = x' ∧ y = y' := by
  rw [inside_iff] at h h'
  have hcolumn : x.toNat = x'.toNat := by
    have := congrArg (· % s.width) hcell
    simp only [cell, Nat.mul_add_mod_self_right] at this
    rwa [Nat.mod_eq_of_lt (by omega), Nat.mod_eq_of_lt (by omega)] at this
  have hrow : y.toNat = y'.toNat := by
    have : y.toNat * s.width = y'.toNat * s.width := by
      simp only [cell] at hcell
      omega
    exact Nat.eq_of_mul_eq_mul_right (by omega) this
  omega

theorem byteOffset_eq (s : Surface) (x y : Int) :
    s.byteOffset x y = s.cell x y * s.format.bytesPerPixel := rfl

theorem byteOffset_le (h : s.inside x y = true) :
    s.byteOffset x y + s.format.bytesPerPixel ≤ s.data.size := by
  rw [s.size_data, byteOffset_eq, ← Nat.succ_mul]
  exact Nat.mul_le_mul_right _ (cell_lt h)

theorem get?_eq_some (h : s.inside x y = true) :
    s.get? x y = some (UInt32.ofNat (readBytes s.data (s.byteOffset x y) s.format.bytesPerPixel)) :=
  if_pos h

theorem get?_eq_none_iff : s.get? x y = none ↔ s.inside x y = false := by
  rw [get?]
  split <;> simp_all

theorem inside_of_get? {v : Pixel} (h : s.get? x y = some v) : s.inside x y = true := by
  cases hin : s.inside x y with
  | true => rfl
  | false =>
    rw [get?_eq_none_iff.mpr hin] at h
    cases h

/-- A pixel that is read has the bytes of its format only. -/
theorem kept_of_get? {v : Pixel} (h : s.get? x y = some v) : s.format.kept v = v := by
  rw [get?] at h
  split at h
  case isFalse => cases h
  case isTrue =>
    have hlt := readBytes_lt s.data (s.byteOffset x y) s.bytesPerPixel
    have hpow := s.format.pow_bytesPerPixel_le
    rw [← Option.some.inj h]
    refine PixelFormat.kept_of_lt ?_
    rw [UInt32.toNat_ofNat', Nat.mod_eq_of_lt (Nat.lt_of_lt_of_le hlt hpow)]
    exact hlt

/-- The shape of a surface: its extents and its format. -/
structure SameShape (s t : Surface) : Prop where
  width : t.width = s.width
  height : t.height = s.height
  format : t.format = s.format

theorem SameShape.refl (s : Surface) : SameShape s s := ⟨rfl, rfl, rfl⟩

theorem SameShape.symm (h : SameShape s t) : SameShape t s :=
  ⟨h.width.symm, h.height.symm, h.format.symm⟩

theorem SameShape.trans {u : Surface} (h : SameShape s t) (h' : SameShape t u) : SameShape s u :=
  ⟨h'.width.trans h.width, h'.height.trans h.height, h'.format.trans h.format⟩

theorem SameShape.inside (h : SameShape s t) (x y : Int) : t.inside x y = s.inside x y := by
  rw [Surface.inside, Surface.inside, h.width, h.height]

theorem SameShape.rect (h : SameShape s t) : t.rect = s.rect := by
  rw [Surface.rect, Surface.rect, h.width, h.height]

theorem SameShape.byteOffset (h : SameShape s t) (x y : Int) : t.byteOffset x y = s.byteOffset x y := by
  rw [byteOffset_eq, byteOffset_eq, cell, cell, h.width, h.format]

theorem sameShape_put (s : Surface) (x y : Int) (p : Pixel) : SameShape s (s.put x y p) := by
  rw [put]
  split
  · exact ⟨rfl, rfl, rfl⟩
  · exact .refl s

/-! ## Writing one pixel -/

/-- Other pixels stay, and a written pixel reads back what is stored of it. -/
theorem get?_put (s : Surface) (x y x' y' : Int) (p : Pixel) :
    (s.put x y p).get? x' y' =
      if x' = x ∧ y' = y then (s.get? x y).map fun _ => s.format.kept p else s.get? x' y' := by
  by_cases hin : s.inside x y = true
  case neg =>
    have hnone : s.get? x y = none := by rw [get?_eq_none_iff]; simpa using hin
    rw [put, if_neg hin]
    split
    next h => rw [h.1, h.2, hnone]; rfl
    next => rfl
  have hshape := sameShape_put s x y p
  have hdata : (s.put x y p).data =
      writeBytes s.data (s.byteOffset x y) p.toNat s.format.bytesPerPixel := by
    rw [put, if_pos hin]
    rfl
  by_cases hin' : s.inside x' y' = true
  case neg =>
    have hnone : s.get? x' y' = none := by rw [get?_eq_none_iff]; simpa using hin'
    rw [get?_eq_none_iff.mpr (by rw [hshape.inside]; simpa using hin'), hnone]
    split
    next h => exact absurd (h.1 ▸ h.2 ▸ hin) hin'
    next => rfl
  rw [get?_eq_some (by rw [hshape.inside]; exact hin'), get?_eq_some hin', hshape.format,
    hshape.byteOffset, hdata]
  split
  next h =>
    rw [h.1, h.2, get?_eq_some hin, readBytes_writeBytes (byteOffset_le hin)]
    rfl
  next hne =>
    rw [readBytes_congr fun i hi hlt => ?_]
    have hcells : s.cell x' y' ≠ s.cell x y := fun h => hne (cell_inj hin' hin h)
    rw [byteOffset_eq] at hi hlt
    rw [getElem?_writeBytes, if_neg]
    -- the bytes of two cells do not meet
    intro hboth
    rw [byteOffset_eq] at hboth
    rcases Nat.lt_or_gt_of_ne hcells with hlt' | hgt
    · have := Nat.mul_le_mul_right s.format.bytesPerPixel hlt'
      rw [Nat.succ_mul] at this
      omega
    · have := Nat.mul_le_mul_right s.format.bytesPerPixel hgt
      rw [Nat.succ_mul] at this
      omega

/-! ## Bytes of equal pixels -/

/-- The pixel that the byte at `i` belongs to. -/
def pixelOfByte (s : Surface) (i : Nat) : Point :=
  ⟨(i / s.format.bytesPerPixel % s.width : Nat), (i / s.format.bytesPerPixel / s.width : Nat)⟩

theorem cell_pixelOfByte (s : Surface) (i : Nat) :
    s.cell (s.pixelOfByte i).x (s.pixelOfByte i).y = i / s.format.bytesPerPixel := by
  simp only [cell, pixelOfByte, Int.toNat_natCast]
  rw [Nat.mul_comm]
  exact Nat.div_add_mod ..

theorem inside_pixelOfByte {i : Nat} (h : i < s.data.size) :
    s.inside (s.pixelOfByte i).x (s.pixelOfByte i).y = true := by
  have hcell : i / s.format.bytesPerPixel < s.height * s.width := by
    rw [Nat.div_lt_iff_lt_mul s.format.one_le_bytesPerPixel, Nat.mul_comm s.height]
    exact s.size_data ▸ h
  have hwidth : 0 < s.width := Nat.pos_of_mul_pos_left (Nat.zero_lt_of_lt hcell)
  have hcolumn := Nat.mod_lt (i / s.format.bytesPerPixel) hwidth
  have hrow := (Nat.div_lt_iff_lt_mul hwidth).mpr hcell
  rw [inside_iff]
  exact ⟨Int.natCast_nonneg _, Int.ofNat_lt.mpr hcolumn, Int.natCast_nonneg _, Int.ofNat_lt.mpr hrow⟩

theorem getElem?_data_eq (h : SameShape s t) {i : Nat}
    (hpixel : t.get? (s.pixelOfByte i).x (s.pixelOfByte i).y =
      s.get? (s.pixelOfByte i).x (s.pixelOfByte i).y) : t.data[i]? = s.data[i]? := by
  by_cases hi : i < s.data.size
  case neg =>
    have hsize : t.data.size = s.data.size := by
      rw [t.size_data, s.size_data, h.width, h.height, h.format]
    rw [Array.getElem?_eq_none (by omega), Array.getElem?_eq_none (by omega)]
  have hin := inside_pixelOfByte hi
  have hin' : t.inside (s.pixelOfByte i).x (s.pixelOfByte i).y = true := by rwa [h.inside]
  have hpos : 0 < s.format.bytesPerPixel := s.format.one_le_bytesPerPixel
  have hcell := s.cell_pixelOfByte i
  have hle := byteOffset_le hin
  have hle' := byteOffset_le hin'
  rw [get?_eq_some hin, get?_eq_some hin', h.format, h.byteOffset, Option.some.injEq] at hpixel
  rw [h.format, h.byteOffset] at hle'
  have hread := congrArg UInt32.toNat hpixel
  have hpow := s.format.pow_bytesPerPixel_le
  rw [UInt32.toNat_ofNat', UInt32.toNat_ofNat', Nat.mod_eq_of_lt (Nat.lt_of_lt_of_le (readBytes_lt ..) hpow),
    Nat.mod_eq_of_lt (Nat.lt_of_lt_of_le (readBytes_lt ..) hpow)] at hread
  have hdiv := Nat.div_add_mod i s.format.bytesPerPixel
  have hmod := Nat.mod_lt i hpos
  refine getElem?_of_readBytes_eq hle' hle hread ?_ ?_ <;>
    rw [byteOffset_eq, hcell, Nat.mul_comm] <;> omega

theorem eq_of_data (h : SameShape s t) (hdata : t.data = s.data) : t = s := by
  obtain ⟨hwidth, hheight, hformat⟩ := h
  cases s
  cases t
  simp_all

/-- A surface with the pixels of another of its shape is that surface. -/
theorem eq_of_get? (h : SameShape s t) (hget : ∀ x y, t.get? x y = s.get? x y) : t = s :=
  eq_of_data h (Array.ext_getElem? fun _ => getElem?_data_eq h (hget _ _))

end Surface

end Rasterizer
