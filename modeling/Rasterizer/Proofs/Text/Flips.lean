import Rasterizer.Proofs.Bitmap.Mirrors
import Rasterizer.Proofs.Text.Dots
import Rasterizer.Proofs.Text.Faults

/-! # Mirrored coverage and colours

What mirrors a picture of one element a pixel moves its elements (`getD_flipPixels`, `getD_flipRows`), so
the picture made ready has the dots of the one that the source handed out at the mirrored places
(`CoveragePicture.byte_mirrored`, `GlyphPixels.dot_flipped`). -/

namespace Rasterizer

/-! ## Elements -/

section Elements

variable {α : Type} {n rows x y : Nat}

theorem getD_flipRows {data data' : Array α} (hsize : rows * n ≤ data.size)
    (hflip : flipRows data rows n = .ok data') (hx : x < n) (hy : y < rows) (d : α) :
    data'.getD (y * n + x) d = data.getD ((rows - 1 - y) * n + x) d := by
  obtain ⟨out, hout, hmirrored, -⟩ := mirrors_flipRows hsize
  cases hflip.symm.trans hout
  rw [Array.getD_eq_getD_getElem?, Array.getD_eq_getD_getElem?, hmirrored.rows y hy x hx]

theorem getD_flipPixels {data data' : Array UInt8} (hsize : rows * n ≤ data.size)
    (hflip : flipPixels data n rows n 1 = .ok data') (hx : x < n) (hy : y < rows) :
    data'.getD (y * n + x) 0 = data.getD (y * n + (n - 1 - x)) 0 := by
  have hn : 0 < n := by omega
  obtain ⟨out, hout, hmirrored, -⟩ := mirrors_flipPixels hn (Nat.mul_one n).le rows data
  cases hflip.symm.trans hout
  rw [wholeRows_eq hn hsize] at hmirrored
  have hpixel := hmirrored.pixels y hy x hx 0 (by decide)
  rw [Nat.mul_one, Nat.mul_one, Nat.add_zero, Nat.add_zero] at hpixel
  rw [Array.getD_eq_getD_getElem?, Array.getD_eq_getD_getElem?, hpixel]

theorem getD_flipColumns {px : GlyphPixels} (hsize : px.rows * px.columns ≤ px.pixels.size)
    (hx : x < px.columns) (hy : y < px.rows) (d : Color) :
    px.flipColumns.pixels.getD (y * px.columns + x) d =
      px.pixels.getD (y * px.columns + (px.columns - 1 - x)) d := by
  rw [GlyphPixels.flipColumns]
  generalize px.columns = n at *
  generalize px.rows = rows at *
  have hplace := place_lt hx hy
  have hmirrored := place_lt (show n - 1 - x < n by omega) hy
  have hrow : y < px.pixels.size / n := by
    refine Nat.lt_of_lt_of_le ?_ (Nat.div_le_div_right hsize)
    rwa [Nat.mul_div_cancel _ (by omega)]
  rw [if_neg (by omega)]
  dsimp only
  rw [getD_mapIdx (by omega), (row_div_mod hx).1, (row_div_mod hx).2, if_pos hrow]
  simp only [Array.getD, dif_pos (show y * n + (n - 1 - x) < px.pixels.size by omega)]

/-- The element at a place of rows of `n` elements, if it lies inside. -/
def elementAt? (data : Array α) (n rows : Nat) (d : α) (x y : Int) : Option α :=
  if 0 ≤ x ∧ x < n ∧ 0 ≤ y ∧ y < rows then some (data.getD (y.toNat * n + x.toNat) d) else none

variable {data data' : Array α} {d : α}

/-- Rows whose elements are those of others at places that lie inside together. -/
theorem elementAt?_eq (fx fy : Int → Int) (hx : ∀ x, (0 ≤ fx x ∧ fx x < n) ↔ (0 ≤ x ∧ x < n))
    (hy : ∀ y, (0 ≤ fy y ∧ fy y < rows) ↔ (0 ≤ y ∧ y < rows))
    (h : ∀ x y : Nat, x < n → y < rows →
      data'.getD (y * n + x) d = data.getD ((fy y).toNat * n + (fx x).toNat) d) (x y : Int) :
    elementAt? data' n rows d x y = elementAt? data n rows d (fx x) (fy y) := by
  have hx := hx x
  have hy := hy y
  by_cases hin : 0 ≤ x ∧ x < n ∧ 0 ≤ y ∧ y < rows
  · have := h x.toNat y.toNat (by omega) (by omega)
    rw [Int.toNat_of_nonneg hin.1, Int.toNat_of_nonneg hin.2.2.1] at this
    rw [elementAt?, elementAt?, if_pos hin, if_pos (by omega), this]
  · rw [elementAt?, elementAt?, if_neg hin, if_neg (by omega)]

theorem elementAt?_flipRows (hsize : rows * n ≤ data.size) (hflip : flipRows data rows n = .ok data')
    (x y : Int) : elementAt? data' n rows d x y = elementAt? data n rows d x (rows - 1 - y) := by
  refine elementAt?_eq (fun x => x) (fun y => rows - 1 - y) (fun x => Iff.rfl) (fun y => by omega)
    (fun x y hx hy => ?_) x y
  have hrow : ((rows : Int) - 1 - y).toNat = rows - 1 - y := by omega
  rw [getD_flipRows hsize hflip hx hy, Int.toNat_natCast, hrow]

theorem elementAt?_columns (h : ∀ x y : Nat, x < n → y < rows →
      data'.getD (y * n + x) d = data.getD (y * n + (n - 1 - x)) d) (x y : Int) :
    elementAt? data' n rows d x y = elementAt? data n rows d (n - 1 - x) y := by
  refine elementAt?_eq (fun x => n - 1 - x) (fun y => y) (fun x => by omega) (fun y => Iff.rfl)
    (fun x y hx hy => ?_) x y
  rw [h x y hx hy, Int.toNat_natCast, show ((n : Int) - 1 - x).toNat = n - 1 - x by omega]

end Elements

namespace FontStyle

/-- A column of a picture of `w` columns, mirrored as the style asks. -/
def mirrorX (s : FontStyle) (w x : Int) : Int := if s.contains .flipHorz then w - 1 - x else x

/-- A row of a picture of `h` rows, mirrored as the style asks. -/
def mirrorY (s : FontStyle) (h y : Int) : Int := if s.contains .flipVert then h - 1 - y else y

end FontStyle

/-! ## Pictures -/

namespace CoveragePicture

/-- The picture of `n` columns and `rows` rows with one byte for each of its places. -/
def ofRows (data : Array UInt8) (n rows : Nat) : CoveragePicture := ⟨data, n, n, rows⟩

variable {data data' : Array UInt8} {n rows : Nat} {st : TextStyle}

theorem byte_ofRows (x y : Int) : (ofRows data n rows).byte x y = (elementAt? data n rows 0 x y).getD 0 := by
  rw [elementAt?, byte, ofRows]
  split <;> rfl

theorem byte_mirrored (hsize : rows * n ≤ data.size)
    (hmirrored : st.mirrored (flipPixels · n rows n 1) (flipRows · rows n) data = .ok data') (x y : Int) :
    (ofRows data' n rows).byte x y =
      (ofRows data n rows).byte (st.font.style.mirrorX n x) (st.font.style.mirrorY rows y) := by
  rw [TextStyle.mirrored_eq] at hmirrored
  obtain ⟨columns, hcolumns, hrows⟩ := Fault.bind_eq_ok.mp hmirrored
  have hcolumns' : rows * n ≤ columns.size ∧ ∀ x y, elementAt? columns n rows 0 x y =
      elementAt? data n rows 0 (st.font.style.mirrorX n x) y := by
    simp only [FontStyle.mirrorX]
    split at hcolumns
    next hflip =>
      refine ⟨size_flipPixels hcolumns ▸ hsize, fun x y => ?_⟩
      rw [if_pos hflip, elementAt?_columns fun x y => getD_flipPixels hsize hcolumns]
    next hflip =>
      cases hcolumns
      exact ⟨hsize, fun x y => by rw [if_neg hflip]⟩
  rw [byte_ofRows, byte_ofRows, ← hcolumns'.2, FontStyle.mirrorY]
  split at hrows
  next hflip => rw [if_pos hflip, elementAt?_flipRows hcolumns'.1 hrows]
  next hflip => cases hrows; rw [if_neg hflip]

end CoveragePicture

namespace GlyphPixels

variable {px px' : GlyphPixels} {style : FontStyle}

theorem dot_eq (px : GlyphPixels) (x y : Int) :
    px.dot x y = (elementAt? px.pixels px.columns px.rows default x y).elim .blank .color := by
  rw [elementAt?, dot]
  split <;> rfl

theorem dot_flipped (hsize : px.rows * px.columns ≤ px.pixels.size) (hflip : px.flipped style = .ok px')
    (x y : Int) : px'.dot x y = px.dot (style.mirrorX px.columns x) (style.mirrorY px.rows y) := by
  have hcolumns : ∀ x y, elementAt? (if style.contains .flipHorz then px.flipColumns else px).pixels
      px.columns px.rows default x y = elementAt? px.pixels px.columns px.rows default
        (style.mirrorX px.columns x) y := by
    intro x y
    rw [FontStyle.mirrorX]
    split
    next => exact elementAt?_columns (fun x y hx hy => getD_flipColumns hsize hx hy default) x y
    next => rfl
  have hmid : ∃ mid : GlyphPixels, (if style.contains .flipHorz then px.flipColumns else px) = mid ∧
      mid.rows = px.rows ∧ mid.columns = px.columns ∧ mid.pixels.size = px.pixels.size := by
    refine ⟨_, rfl, ?_⟩
    split
    · exact ⟨(sides_flipColumns px).1, (sides_flipColumns px).2, size_flipColumns px⟩
    · exact ⟨rfl, rfl, rfl⟩
  obtain ⟨mid, hmid, hrows, hcols, hpixels⟩ := hmid
  simp only [flipped, hmid] at hflip
  rw [hmid] at hcolumns
  rw [dot_eq, dot_eq px, ← hcolumns, FontStyle.mirrorY]
  split at hflip
  next hvert =>
    obtain ⟨pixels, hpixels', hflip⟩ := Fault.bind_eq_ok.mp hflip
    cases hflip
    have hsides : (⟨mid.width, mid.height, pixels⟩ : GlyphPixels).columns = px.columns ∧
        (⟨mid.width, mid.height, pixels⟩ : GlyphPixels).rows = px.rows := ⟨hcols, hrows⟩
    rw [hcols, hrows] at hpixels'
    rw [if_pos hvert, hsides.1, hsides.2, elementAt?_flipRows (hpixels ▸ hsize) hpixels']
  next hvert =>
    cases hflip
    rw [if_neg hvert, hcols, hrows]

end GlyphPixels

end Rasterizer
