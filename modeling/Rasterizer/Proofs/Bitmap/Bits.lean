import Rasterizer.Bitmap.Expand
import Rasterizer.Bitmap.Flip
import Rasterizer.Text.Mark
import Mathlib.Algebra.Group.Nat.Defs
import Mathlib.Tactic.ByContra

/-! # Bits of pictures

A picture of packed bits is known by the bits at its places (`BitPicture.bit`), all of them clear outside
of it. What widens a picture and what mirrors it moves these bits, as long as its rows are all there
(`bit_expandBoldIn`, `bit_flipBits`, `bit_flipRows`). A picture that is made in a buffer has nothing of what
the buffer held (`expandBoldIn_eq`, `expandScaleIn_eq`). -/

namespace Rasterizer

/-! ## Bytes -/

/-- Bits written one behind the other are read back. -/
theorem testBit_foldl (f : Nat → Bool) {n k : Nat} (hk : k < n) :
    ((List.range n).foldl (fun v i => 2 * v + (f i).toNat) 0).testBit (n - 1 - k) = f k := by
  induction n with
  | zero => omega
  | succ n ih =>
    rw [List.range_succ, List.foldl_append, List.foldl_cons, List.foldl_nil]
    generalize (List.range n).foldl (fun v i => 2 * v + (f i).toNat) 0 = v at ih ⊢
    by_cases hlast : k = n
    · subst hlast
      rw [show k + 1 - 1 - k = 0 by omega, Nat.testBit_zero]
      cases f k <;> simp
    · rw [show n + 1 - 1 - k = n - 1 - k + 1 by omega, Nat.testBit_succ, ← ih (by omega)]
      congr 1
      cases f n <;> simp; omega

theorem foldl_bits_lt (f : Nat → Bool) (n : Nat) :
    (List.range n).foldl (fun v i => 2 * v + (f i).toNat) 0 < 2 ^ n := by
  induction n with
  | zero => exact Nat.one_pos
  | succ n ih =>
    rw [List.range_succ, List.foldl_append, List.foldl_cons, List.foldl_nil, Nat.pow_succ]
    cases f n <;> simp <;> omega

theorem testBit_packByte (f : Nat → Bool) {k : Nat} (hk : k < 8) :
    (packByte f).toNat.testBit (7 - k) = f k := by
  rw [packByte, UInt8.toNat_ofNat_of_lt' (foldl_bits_lt f 8)]
  exact testBit_foldl f hk

/-! ## Buffers -/

namespace Buffer

theorem load_eq {α : Type} (buffer source : Array α) : load buffer source = source := by simp [load]

theorem reset_eq (buffer : Array UInt8) (n : Nat) : reset buffer n = Array.replicate n 0 := by
  simp [reset, resize]

end Buffer

/-- In clear bytes the bits that are set make up the picture. -/
theorem setBits_reset (buffer : Array UInt8) (pitch rows : Nat) (bit : Nat → Nat → Bool) :
    setBits (Buffer.reset buffer (pitch * rows)) pitch bit = packBits pitch rows bit := by
  refine Array.ext (by simp [setBits, packBits, Buffer.reset_eq]) fun i _ _ => ?_
  simp [setBits, packBits, Buffer.reset_eq]

theorem expandBoldIn_eq (buffer data : Array UInt8) (pitch : Nat) (width height : Int) :
    expandBoldIn buffer data pitch width height =
      if bitPitch (width + 1) = 0 then throw .emptyRows
      else pure ⟨width + 1, bitPitch (width + 1), packBits (bitPitch (width + 1)) height.toNat fun x y =>
        boldBit true (.ofPicture data pitch y width) x⟩ := by
  simp only [expandBoldIn, setBits_reset]

theorem expandScaleIn_eq (buffer data : Array UInt8) (pitch : Nat) (width height scale : Int) (bold : Bool) :
    expandScaleIn buffer data pitch width height scale bold =
      let width' := (width + if bold then 1 else 0) * max scale 1
      ⟨width', bitPitch width', packBits (bitPitch width') (max height 0 * max scale 1).toNat fun x y =>
        boldBit bold (.ofPicture data pitch (y / (max scale 1).toNat) width) ((x : Int) / max scale 1)⟩ := by
  simp only [expandScaleIn, setBits_reset]

/-! ## Rows -/

section Rows

variable {data data' : Array UInt8} {pitch rows x y : Nat}

theorem div_lt_pitch {w : Int} (h : (x : Int) < w) : x / 8 < bitPitch w := by
  rw [bitPitch]
  omega

theorem row_add_lt (hx : x / 8 < pitch) (hy : y < rows) : y * pitch + x / 8 < rows * pitch := by
  have := Nat.mul_le_mul_right pitch (Nat.succ_le_of_lt hy)
  rw [Nat.succ_mul] at this
  omega

theorem row_add_div (hx : x / 8 < pitch) : (y * pitch + x / 8) / pitch = y := by
  rw [Nat.mul_comm, Nat.mul_add_div (by omega), Nat.div_eq_of_lt hx, Nat.add_zero]

theorem row_add_mod (hx : x / 8 < pitch) : (y * pitch + x / 8) % pitch = x / 8 := by
  rw [Nat.mul_comm, Nat.mul_add_mod, Nat.mod_eq_of_lt hx]

/-- A bit that is packed into its byte. -/
theorem packedBit_of_getD {f : Nat → Bool} (h : data.getD (y * pitch + x / 8) 0 = packByte f) :
    packedBit data (y * pitch) x = f (x % 8) := by
  rw [packedBit, h, testBit_packByte f (Nat.mod_lt x (by decide))]

theorem packedBit_packBits (bit : Nat → Nat → Bool) (hx : x / 8 < pitch) (hy : y < rows) :
    packedBit (packBits pitch rows bit) (y * pitch) x = bit x y := by
  have hin : y * pitch + x / 8 < pitch * rows := Nat.mul_comm rows pitch ▸ row_add_lt hx hy
  rw [packedBit_of_getD (f := fun k => bit (x / 8 * 8 + k) y), Nat.div_add_mod']
  simp only [packBits, Array.getD, Array.size_ofFn, hin, dite_true, Array.getInternal_eq_getElem,
    Array.getElem_ofFn, row_add_div hx, row_add_mod hx]

theorem getD_mapIdx {α : Type} {as : Array α} {f : Nat → α → α} {i : Nat} (hi : i < as.size) (d : α) :
    (as.mapIdx f).getD i d = f i (as.getD i d) := by
  simp [Array.getD, hi]

end Rows

/-! ## Mirroring -/

section Flips

variable {data data' : Array UInt8} {w h : Int} {pitch bpp : Nat}

theorem size_flipBits (hflip : flipBits data w h pitch = .ok data') : data'.size = data.size := by
  simp only [flipBits] at hflip
  split at hflip
  · cases hflip
  · split at hflip
    · cases hflip
    · cases hflip
      rw [Array.size_mapIdx]

theorem size_flipPixels (hflip : flipPixels data w h pitch bpp = .ok data') : data'.size = data.size := by
  simp only [flipPixels] at hflip
  split at hflip
  · cases hflip
  · split at hflip
    · cases hflip
    · cases hflip
      rw [Array.size_mapIdx]

/-- Rows that are all there can be mirrored top to bottom. -/
theorem exists_flipRows {α : Type} {data : Array α} {h : Int} {pitch : Nat}
    (hsize : h.toNat * pitch ≤ data.size) : ∃ data', flipRows data h pitch = .ok data' := by
  rw [flipRows, if_neg (by omega)]
  exact ⟨_, rfl⟩

end Flips

/-! ## Pictures -/

theorem BitRow.get_iff {r : BitRow} {x : Int} :
    r.get x = true ↔ 0 ≤ x ∧ x < (r.width : Int) ∧ packedBit r.data r.start x.toNat = true := by
  simp only [BitRow.get, Bool.and_eq_true, decide_eq_true_eq, and_assoc]

/-- The packed rows as a picture of that height. -/
def PackedRows.picture (rows : PackedRows) (height : Int) : BitPicture :=
  ⟨rows.data, rows.pitch, rows.width, height⟩

namespace BitPicture

/-- The bit at `(x, y)` of a picture, clear outside of it. -/
def bit (b : BitPicture) (x y : Int) : Bool := (b.row y).get x

/-- The rows of a picture hold its bits, and all of them are there. -/
structure Whole (b : BitPicture) : Prop where
  pitch : b.pitch = bitPitch b.w
  size : b.h.toNat * b.pitch ≤ b.data.size

variable {b b' : BitPicture} {x y : Int}

theorem bit_of_inside (hx : 0 ≤ x) (hx' : x < b.w) (hy : 0 ≤ y) (hy' : y < b.h) :
    b.bit x y = packedBit b.data (y.toNat * b.pitch) x.toNat := by
  have hrow : b.row y = .ofPicture b.data b.pitch y.toNat b.w := if_neg (by omega)
  have hwidth : x < (b.w.toNat : Int) := by omega
  rw [bit, hrow, BitRow.get, decide_eq_true hx, BitRow.ofPicture, decide_eq_true hwidth]
  rfl

theorem inside_of_bit (h : b.bit x y = true) : 0 ≤ x ∧ x < b.w ∧ 0 ≤ y ∧ y < b.h := by
  rw [bit, row] at h
  split at h
  · obtain ⟨hx, hwidth, -⟩ := BitRow.get_iff.mp h
    simp only [BitRow.empty] at hwidth
    omega
  · obtain ⟨hx, hwidth, -⟩ := BitRow.get_iff.mp h
    simp only [BitRow.ofPicture] at hwidth
    omega

theorem bit_of_outside (h : ¬(0 ≤ x ∧ x < b.w ∧ 0 ≤ y ∧ y < b.h)) : b.bit x y = false :=
  Bool.eq_false_iff.mpr fun hbit => h (inside_of_bit hbit)

/-- A picture is known by its packed bits, given in natural numbers. -/
theorem bit_eq {f : Int → Int → Bool}
    (hin : ∀ x y : Nat, (x : Int) < b.w → (y : Int) < b.h → packedBit b.data (y * b.pitch) x = f x y)
    (hout : ∀ x y : Int, f x y = true → 0 ≤ x ∧ x < b.w ∧ 0 ≤ y ∧ y < b.h) (x y : Int) :
    b.bit x y = f x y := by
  by_cases h : 0 ≤ x ∧ x < b.w ∧ 0 ≤ y ∧ y < b.h
  · obtain ⟨hx, hx', hy, hy'⟩ := h
    rw [bit_of_inside hx hx' hy hy', hin _ _ (by omega) (by omega), Int.toNat_of_nonneg hx,
      Int.toNat_of_nonneg hy]
  · rw [bit_of_outside h, eq_comm, Bool.eq_false_iff]
    exact fun hbit => h (hout x y hbit)

/-- The picture with other data. -/
def withData (b : BitPicture) (data : Array UInt8) : BitPicture := { b with data := data }

variable {data : Array UInt8}

@[simp] theorem withData_w : (b.withData data).w = b.w := rfl

@[simp] theorem withData_h : (b.withData data).h = b.h := rfl

@[simp] theorem withData_pitch : (b.withData data).pitch = b.pitch := rfl

@[simp] theorem withData_data : (b.withData data).data = data := rfl

theorem Whole.withData (hb : b.Whole) (hsize : b.h.toNat * b.pitch ≤ data.size) :
    (b.withData data).Whole := ⟨hb.pitch, hsize⟩

/-- The byte of a bit of a whole picture is there. -/
theorem Whole.byte_lt (hb : b.Whole) {x y : Nat} (hx : (x : Int) < b.w) (hy : (y : Int) < b.h) :
    x / 8 < b.pitch ∧ y * b.pitch + x / 8 < b.data.size := by
  have hbyte : x / 8 < b.pitch := hb.pitch ▸ div_lt_pitch hx
  exact ⟨hbyte, Nat.lt_of_lt_of_le (row_add_lt hbyte (by omega)) hb.size⟩

theorem bit_flipBits (hb : b.Whole) (hflip : flipBits b.data b.w b.h b.pitch = .ok data) (x y : Int) :
    (b.withData data).bit x y = b.bit (b.w - 1 - x) y := by
  refine bit_eq (f := fun x y => b.bit (b.w - 1 - x) y) (fun x y hx hy => ?_) (fun x y hbit => ?_) x y
  · rw [withData_w] at hx
    rw [withData_h] at hy
    obtain ⟨hbyte, hin⟩ := hb.byte_lt hx hy
    have hrow : y < wholeRows b.data.size b.pitch b.h := by
      refine Nat.lt_min.mpr ⟨Nat.lt_of_lt_of_le ?_ (Nat.div_le_div_right hb.size), by omega⟩
      rw [Nat.mul_div_cancel _ (by omega)]
      omega
    simp only [flipBits] at hflip
    split at hflip
    · cases hflip
    split at hflip
    · cases hflip
    cases hflip
    rw [withData_data, withData_pitch, packedBit_of_getD (getD_mapIdx hin 0 |>.trans
      (by rw [row_add_div hbyte, if_pos hrow]))]
    rw [row_add_mod hbyte, Nat.div_add_mod', if_pos (by omega),
      bit_of_inside (by omega) (by omega) (by omega) hy]
    congr 1
    omega
  · have := inside_of_bit hbit
    simp only [withData_w, withData_h]
    omega

theorem bit_flipRows (hb : b.Whole) (hflip : flipRows b.data b.h b.pitch = .ok data) (x y : Int) :
    (b.withData data).bit x y = b.bit x (b.h - 1 - y) := by
  refine bit_eq (f := fun x y => b.bit x (b.h - 1 - y)) (fun x y hx hy => ?_) (fun x y hbit => ?_) x y
  · rw [withData_w] at hx
    rw [withData_h] at hy
    obtain ⟨hbyte, hin⟩ := hb.byte_lt hx hy
    have hmirrored := (hb.byte_lt (y := b.h.toNat - 1 - y) hx (by omega)).2
    rw [flipRows] at hflip
    split at hflip
    · cases hflip
    cases hflip
    rw [bit_of_inside (by omega) hx (by omega) (by omega), packedBit, packedBit, withData_data,
      withData_pitch, getD_mapIdx hin, row_add_div hbyte, row_add_mod hbyte, if_pos (by omega),
      show (b.h - 1 - (y : Int)).toNat = b.h.toNat - 1 - y by omega, Int.toNat_natCast]
    simp [Array.getD, hmirrored]
  · have := inside_of_bit hbit
    simp only [withData_w, withData_h]
    omega

/-- A widened picture has the bits of the picture and those of their right neighbours. -/
theorem bit_expandBoldIn {rows : PackedRows} (hbold : expandBoldIn #[] b.data b.pitch b.w b.h = .ok rows)
    (x y : Int) : (rows.picture b.h).bit x y = (b.bit x y || b.bit (x - 1) y) := by
  rw [expandBoldIn_eq] at hbold
  split at hbold
  · cases hbold
  cases hbold
  refine bit_eq (f := fun x y => b.bit x y || b.bit (x - 1) y) (fun x y hx hy => ?_) (fun x y hbit => ?_) x y
  · dsimp only [PackedRows.picture] at hx hy ⊢
    have hrow : b.row y = .ofPicture b.data b.pitch y b.w := if_neg (by omega)
    rw [packedBit_packBits _ (div_lt_pitch hx) (by omega), boldBit, bit, bit, hrow, Bool.true_and]
  · rcases Bool.or_eq_true_iff.mp hbit with h | h
    · have := inside_of_bit h
      dsimp only [PackedRows.picture]
      omega
    · have := inside_of_bit h
      dsimp only [PackedRows.picture]
      omega

end BitPicture

end Rasterizer
