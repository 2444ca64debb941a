import Rasterizer.Proofs.Surface.Cells

/-! # Writes

Filling a surface writes each of its pixels (`Surface.get?_fill`). So after any calls that write, a pixel
holds what the last of them for it has stored, and what it held at first when there was none
(`Surface.performAll_cells`). -/

namespace Rasterizer

/-- A call that writes to a surface. -/
inductive SurfaceWrite where
  | put (x y : Int) (p : Pixel)
  | fill (p : Pixel)
deriving Repr, DecidableEq

/-- The value that the call has for the pixel at `(x, y)`, if it is about that pixel. -/
def SurfaceWrite.valueAt? (x y : Int) : SurfaceWrite → Option Pixel
  | put x' y' p => if x' = x ∧ y' = y then some p else none
  | fill p => some p

/-- The value of the last of the calls that is about the pixel at `(x, y)`. -/
def lastWritten? (x y : Int) (writes : List SurfaceWrite) : Option Pixel :=
  writes.reverse.findSome? (·.valueAt? x y)

namespace Surface

/-- Where the bytes of the pixel at `(x, y)` begin, if the surface has it. -/
def offset? (s : Surface) (x y : Int) : Option Nat :=
  if x < 0 ∨ y < 0 ∨ s.width ≤ x ∨ s.height ≤ y then none
  else some (y.toNat * s.pitch + x.toNat * s.bytesPerPixel)

/-- The surface after a call, and whether the call has found a pixel to write. -/
def perform (s : Surface) : SurfaceWrite → Surface × Bool
  | .put x y p =>
    match s.offset? x y with
    | none => (s, false)
    | some off =>
      ({ s with
          data := writeBytes s.data off p.toNat s.bytesPerPixel
          size_data := by rw [size_writeBytes]; exact s.size_data }, true)
  | .fill p => (s.fill p, true)

def performAll (s : Surface) (writes : List SurfaceWrite) : Surface :=
  writes.foldl (fun s write => (s.perform write).1) s

variable {s : Surface} {x y : Int}

theorem SameShape.size {t : Surface} (h : SameShape s t) : t.data.size = s.data.size := by
  rw [t.size_data, s.size_data, h.width, h.height, h.format]

theorem sameShape_fill (s : Surface) (p : Pixel) : SameShape s (s.fill p) := ⟨rfl, rfl, rfl⟩

theorem getElem?_fill (s : Surface) (p : Pixel) (i : Nat) :
    (s.fill p).data[i]? = s.data[i]?.map fun _ => pixelByte p (i % s.format.bytesPerPixel) := by
  by_cases hi : i < s.data.size
  · have hi' : i < s.width * s.height * s.format.bytesPerPixel := s.size_data ▸ hi
    simp [fill, bytesPerPixel, hi, hi']
  · have hi' : ¬i < s.width * s.height * s.format.bytesPerPixel := s.size_data ▸ hi
    simp [fill, hi, hi']

/-- The bytes of a filled pixel are those that writing it alone would leave. -/
theorem getElem?_fill_pixel (s : Surface) (p : Pixel) (x y : Int) {i : Nat} (hi : s.byteOffset x y ≤ i)
    (hlt : i < s.byteOffset x y + s.format.bytesPerPixel) :
    (s.fill p).data[i]? = (writeBytes s.data (s.byteOffset x y) p.toNat s.format.bytesPerPixel)[i]? := by
  have hmod : i % s.format.bytesPerPixel = i - s.byteOffset x y := by
    rw [byteOffset_eq] at hi hlt ⊢
    rw [← Nat.sub_mul_mod (by rwa [Nat.mul_comm]), Nat.mul_comm, Nat.mod_eq_of_lt (by omega)]
  rw [getElem?_fill, getElem?_writeBytes, if_pos ⟨hi, hlt⟩, hmod]
  simp only [pixelByte, Nat.shiftRight_eq_div_pow, Nat.pow_mul]

theorem get?_fill (s : Surface) (p : Pixel) (x y : Int) :
    (s.fill p).get? x y = (s.get? x y).map fun _ => s.format.kept p := by
  have hshape := sameShape_fill s p
  by_cases hin : s.inside x y = true
  case neg =>
    have hout : s.inside x y = false := by simpa using hin
    rw [get?_eq_none_iff.mpr hout, get?_eq_none_iff.mpr (hshape.inside x y ▸ hout)]
    rfl
  rw [get?_eq_some hin, get?_eq_some (hshape.inside x y ▸ hin), hshape.format, hshape.byteOffset,
    readBytes_congr fun i hi hlt => getElem?_fill_pixel s p x y hi hlt, readBytes_writeBytes (byteOffset_le hin)]
  rfl

theorem readBytes_of_zero {data : Array UInt8} (h : ∀ i, data.getD i 0 = 0) (off n : Nat) :
    readBytes data off n = 0 := by
  induction n generalizing off with
  | zero => rfl
  | succ n ih =>
    rw [readBytes, h, ih]
    rfl

/-- A new surface is zero everywhere. -/
theorem created {width height : Nat} {format : PixelFormat} (h : create width height format = .ok s) :
    s.width = width ∧ s.height = height ∧ s.format = format ∧
      ∀ x y, s.inside x y = true → s.get? x y = some 0 := by
  unfold create at h
  split at h
  · cases h
  split at h
  · cases h
  cases h
  refine ⟨rfl, rfl, rfl, fun x y hin => ?_⟩
  rw [get?_eq_some hin, readBytes_of_zero fun i => ?_]
  · rfl
  · rw [Array.getD_eq_getD_getElem?, Array.getElem?_replicate]
    split <;> rfl

/-! ## One call -/

theorem offset?_eq (s : Surface) (x y : Int) :
    s.offset? x y = if s.inside x y then some (s.byteOffset x y) else none := by
  have hoff : y.toNat * s.pitch + x.toNat * s.bytesPerPixel = s.byteOffset x y := by
    rw [byteOffset, Nat.add_mul, pitch, Nat.mul_assoc]
  rw [offset?, hoff]
  cases hin : s.inside x y with
  | true =>
    rw [inside_iff] at hin
    rw [if_neg (by omega)]
    rfl
  | false =>
    rw [← Bool.not_eq_true, inside_iff] at hin
    rw [if_pos (by omega)]
    rfl

theorem perform_put (s : Surface) (x y : Int) (p : Pixel) :
    s.perform (.put x y p) = (s.put x y p, s.inside x y) := by
  simp only [perform, offset?_eq, put]
  cases s.inside x y <;> rfl

theorem sameShape_perform (s : Surface) (write : SurfaceWrite) : SameShape s (s.perform write).1 := by
  cases write with
  | put x y p => exact perform_put s x y p ▸ sameShape_put s x y p
  | fill p => exact sameShape_fill s p

/-- A pixel holds what the call has stored, if the call was about the pixel. -/
theorem get?_perform (s : Surface) (write : SurfaceWrite) (x y : Int) :
    (s.perform write).1.get? x y = (s.get? x y).map fun v => (write.valueAt? x y).elim v s.format.kept := by
  cases write with
  | put x' y' p =>
    by_cases hxy : x' = x ∧ y' = y
    · obtain ⟨rfl, rfl⟩ := hxy
      simp [perform_put, get?_put, SurfaceWrite.valueAt?]
    · have hxy' : ¬(x = x' ∧ y = y') := fun h => hxy ⟨h.1.symm, h.2.symm⟩
      simp [perform_put, get?_put, SurfaceWrite.valueAt?, hxy, hxy']
  | fill p => exact get?_fill s p x y

/-- A call that finds no pixel changes no byte. -/
theorem perform_of_not_found {write : SurfaceWrite} (h : (s.perform write).2 = false) : (s.perform write).1 = s := by
  cases write with
  | put x y p =>
    rw [perform_put] at h ⊢
    dsimp only at h ⊢
    rw [put, h, if_neg Bool.false_ne_true]
  | fill p => cases h

/-! ## Many calls -/

theorem sameShape_performAll (s : Surface) (writes : List SurfaceWrite) : SameShape s (s.performAll writes) := by
  induction writes generalizing s with
  | nil => exact .refl s
  | cons write writes ih => exact (sameShape_perform s write).trans (ih _)

theorem lastWritten?_cons (x y : Int) (write : SurfaceWrite) (writes : List SurfaceWrite) :
    lastWritten? x y (write :: writes) = (lastWritten? x y writes).or (write.valueAt? x y) := by
  simp [lastWritten?, List.findSome?_append]

/-- The last call that was about a pixel decides what it holds. -/
theorem get?_performAll (s : Surface) (writes : List SurfaceWrite) (x y : Int) :
    (s.performAll writes).get? x y =
      (s.get? x y).map fun v => (lastWritten? x y writes).elim v s.format.kept := by
  induction writes generalizing s with
  | nil => simp [performAll, lastWritten?]
  | cons write writes ih =>
    have hrest := ih (s.perform write).1
    rw [get?_perform, (sameShape_perform s write).format, Option.map_map] at hrest
    rw [lastWritten?_cons]
    refine hrest.trans (congrArg (Option.map · (s.get? x y)) (funext fun v => ?_))
    cases lastWritten? x y writes <;> rfl

/-- Pixels are cells of their own. After any calls that write, a pixel of the surface holds the low bytes of
the last value written to it, and what it held before when there was none, which is zero on a new surface. A
put outside says so and changes no byte, and no put changes another pixel or the size of the buffer. -/
theorem performAll_cells :
    (∀ (width height : Nat) (format : PixelFormat) (s : Surface), create width height format = .ok s →
      s.width = width ∧ s.height = height ∧ s.format = format ∧
        ∀ x y, s.inside x y = true → s.get? x y = some 0) ∧
    ∀ (s : Surface) (writes : List SurfaceWrite),
      let t := s.performAll writes
      (∀ x y, (s.get? x y).isSome = s.inside x y ∧
        t.get? x y = (s.get? x y).map fun old => (lastWritten? x y writes).elim old s.format.kept) ∧
      (∀ p, (s.format.kept p).toNat = p.toNat % 2 ^ (8 * s.bytesPerPixel)) ∧
      t.data.size = s.data.size ∧
      ∀ x y p,
        let r := t.perform (.put x y p)
        r = (t.put x y p, s.inside x y) ∧ (r.2 = false → r.1.data = t.data) ∧
          r.1.data.size = t.data.size ∧
          ∀ x' y', ¬(x' = x ∧ y' = y) → r.1.get? x' y' = t.get? x' y' := by
  refine ⟨fun _ _ _ _ => created, fun s writes => ?_⟩
  intro t
  have hshape : SameShape s t := sameShape_performAll s writes
  refine ⟨fun x y => ⟨?_, get?_performAll s writes x y⟩, fun p => ?_, hshape.size, fun x y p => ?_⟩
  · cases hin : s.inside x y with
    | true => rw [get?_eq_some hin, Option.isSome_some]
    | false => rw [get?_eq_none_iff.mpr hin, Option.isSome_none]
  · rw [PixelFormat.toNat_kept, Nat.pow_mul]
    rfl
  · intro r
    have hr : r = (t.put x y p, s.inside x y) := hshape.inside x y ▸ perform_put t x y p
    refine ⟨hr, fun h => congrArg data (perform_of_not_found h), (sameShape_perform t _).size, fun x' y' h => ?_⟩
    rw [hr, get?_put, if_neg h]

/-- Of calls that hit and miss each other on a new surface of three bytes a pixel, the last ones show. -/
theorem performAll_cells_new :
    ∃ s, create 3 2 .rgb888 = .ok s ∧
      let t := s.performAll [.put 1 0 5, .fill 0x01020304, .put 2 1 0xDEADBEEF, .put (-1) 0 6, .put 0 0 7]
      t.get? 2 1 = some 0xADBEEF ∧ t.get? 0 0 = some 7 ∧ t.get? 1 0 = some 0x020304 ∧ t.get? 3 0 = none ∧
        t.data.size = 18 ∧ (t.perform (.put 3 0 8)).2 = false ∧ (t.perform (.put 3 0 8)).1.data = t.data := by
  refine ⟨_, rfl, ?_⟩
  intro t
  obtain ⟨-, -, -, hnew⟩ := performAll_cells.1 3 2 .rgb888 _ rfl
  obtain ⟨hcells, -, hsize, hput⟩ := performAll_cells.2 _
    [.put 1 0 5, .fill 0x01020304, .put 2 1 0xDEADBEEF, .put (-1) 0 6, .put 0 0 7]
  refine ⟨?_, ?_, ?_, ?_, hsize, ?_, ?_⟩
  · rw [(hcells 2 1).2, hnew 2 1 rfl]
    decide
  · rw [(hcells 0 0).2, hnew 0 0 rfl]
    decide
  · rw [(hcells 1 0).2, hnew 1 0 rfl]
    decide
  · rw [(hcells 3 0).2]
    decide
  · rw [(hput 3 0 8).1]
    rfl
  · exact (hput 3 0 8).2.1 (by rw [(hput 3 0 8).1]; rfl)

end Surface

end Rasterizer
