import Rasterizer.Proofs.Font.BuiltIn
import Rasterizer.Proofs.Text.Loaded
import Mathlib.Algebra.Order.Ring.Int

/-! # Pictures made ready

The bitmap of a glyph fills the box that its ink is given (`GlyphBitmap.Fills`). So its packed rows, as
they are widened or magnified, are all there (`exists_packedRows`), and without magnification their bits
are those of the bitmap, each also setting its right neighbour in bold (`exists_packedRows_unscaled`). -/

namespace Rasterizer

/-- The bitmap of `n` columns and `rows` rows fills the box of the ink, magnified and widened. -/
structure GlyphBitmap.Fills (bmp : GlyphBitmap) (n rows : Nat) (ink : InkBox) (scale : Int) : Prop where
  pitch : bmp.pitch = GlyphTable.bitRowSize n
  size : bmp.data.size = bmp.pitch * rows
  width : ink.w = (n + if ink.bold then 1 else 0) * scale
  height : ink.h = rows * scale

def GlyphBitmap.picture (bmp : GlyphBitmap) (n rows : Nat) : BitPicture := ⟨bmp.data, bmp.pitch, n, rows⟩

section Fills

variable {bmp : GlyphBitmap} {n rows : Nat} {ink : InkBox} {scale : Int}

theorem GlyphBitmap.Fills.whole (h : bmp.Fills n rows ink scale) : (bmp.picture n rows).Whole where
  pitch := by
    dsimp only [GlyphBitmap.picture]
    rw [h.pitch, bitPitch, GlyphTable.bitRowSize, Int.toNat_natCast]
  size := by
    dsimp only [GlyphBitmap.picture]
    rw [h.size, Int.toNat_natCast, Nat.mul_comm]

theorem GlyphBitmap.Fills.tdiv_width (h : bmp.Fills n rows ink scale) (hscale : 1 ≤ scale) :
    ink.w.tdiv scale = n + if ink.bold then 1 else 0 := by
  rw [h.width, Int.mul_tdiv_cancel _ (by omega)]

theorem GlyphBitmap.Fills.tdiv_height (h : bmp.Fills n rows ink scale) (hscale : 1 ≤ scale) :
    ink.h.tdiv scale = rows := by
  rw [h.height, Int.mul_tdiv_cancel _ (by omega)]

end Fills

namespace TextStyle

variable {st : TextStyle} {ink : InkBox} {bmp : GlyphBitmap} {scale : Int} {n rows : Nat}

/-- Packed rows that are left for the renderer to magnify. -/
theorem exists_packedRows_unscaled (hscale : 1 ≤ scale) (hfills : bmp.Fills n rows ink scale)
    (hunscaled : ¬(1 < scale ∧ st.inkWeight ≠ .regular)) :
    ∃ packed : PackedRows, st.packedRows bmp scale ink = .ok (packed, rows, scale) ∧
      packed.width = n + (if ink.bold then 1 else 0) ∧ (packed.picture rows).Whole ∧
      ∀ x y, (packed.picture rows).bit x y =
        ((bmp.picture n rows).bit x y || (ink.bold && (bmp.picture n rows).bit (x - 1) y)) := by
  simp only [packedRows, hfills.tdiv_width hscale, hfills.tdiv_height hscale, if_neg hunscaled]
  cases hbold : ink.bold with
  | true =>
    have hpitch : bitPitch ((n : Int) + 1) ≠ 0 := by
      rw [bitPitch]
      omega
    obtain ⟨packed, hpacked⟩ : ∃ packed, expandBoldIn #[] bmp.data bmp.pitch n rows = .ok packed := by
      rw [expandBoldIn_eq, if_neg hpitch]
      exact ⟨_, rfl⟩
    have hbits := BitPicture.bit_expandBoldIn (b := bmp.picture n rows) hpacked
    simp only [if_true, Int.add_sub_cancel, hpacked, Bool.true_and]
    refine ⟨packed, rfl, ?_, ?_, hbits⟩
    all_goals
      simp only [expandBoldIn_eq, if_neg hpitch] at hpacked
      cases hpacked
    · rfl
    · refine ⟨rfl, ?_⟩
      dsimp only [PackedRows.picture]
      rw [size_packBits, Nat.mul_comm]
  | false =>
    have hwhole := hfills.whole
    simp only [Bool.false_eq_true, if_false, Int.add_zero, Bool.false_and, Bool.or_false]
    rw [Int.toNat_natCast, ← hfills.size, Array.extract_size, ite_self]
    exact ⟨_, rfl, rfl, hwhole, fun _ _ => rfl⟩

variable (st) in
/-- The packed rows of a glyph are all there, and have columns if the glyph has. -/
theorem exists_packedRows (hscale : 1 ≤ scale) (hfills : bmp.Fills n rows ink scale) :
    ∃ packed height left, st.packedRows bmp scale ink = .ok (packed, height, left) ∧
      (packed.picture height).Whole ∧ (packed.width ≤ 0 → n = 0 ∧ ink.bold = false) := by
  have hcolumns : (n : Int) + (if ink.bold then 1 else 0) ≤ 0 → n = 0 ∧ ink.bold = false := by
    cases ink.bold with
    | false => simp
    | true =>
      rw [if_pos rfl]
      omega
  by_cases hunscaled : 1 < scale ∧ st.inkWeight ≠ .regular
  · simp only [packedRows, hfills.tdiv_width hscale, hfills.tdiv_height hscale, if_pos hunscaled]
    refine ⟨_, _, _, rfl, ⟨rfl, ?_⟩, fun hnone => hcolumns ?_⟩
    · simp only [PackedRows.picture, expandScale, expandScaleIn_eq, size_packBits, max_eq_left hscale,
        max_eq_left (Int.natCast_nonneg rows)]
      rw [Nat.mul_comm]
    · simp only [expandScale, expandScaleIn_eq, Int.sub_add_cancel, max_eq_left hscale] at hnone
      by_contra hpos
      have := Int.mul_pos (show 0 < (n : Int) + (if ink.bold then 1 else 0) by omega)
        (show 0 < scale by omega)
      omega
  · obtain ⟨packed, hpacked, hwidth, hwhole, -⟩ := exists_packedRows_unscaled hscale hfills hunscaled
    exact ⟨packed, _, _, hpacked, hwhole, fun hnone => hcolumns (hwidth ▸ hnone)⟩

/-! ## Mirrored bits -/

end TextStyle

/-- The bit at `(x, y)` of a picture that is widened for bold. -/
def BitPicture.widenedBit (b : BitPicture) (bold : Bool) (x y : Int) : Bool :=
  b.bit x y || (bold && b.bit (x - 1) y)

theorem BitPicture.inside_of_widenedBit {b : BitPicture} {bold : Bool} {x y : Int}
    (h : b.widenedBit bold x y = true) :
    0 ≤ x ∧ x < b.w + (if bold then 1 else 0) ∧ 0 ≤ y ∧ y < b.h := by
  rcases Bool.or_eq_true_iff.mp h with hbit | hbit
  · have := inside_of_bit hbit
    split <;> omega
  · obtain ⟨rfl, hbit⟩ := Bool.and_eq_true_iff.mp hbit
    have := inside_of_bit hbit
    rw [if_pos rfl]
    omega

/-- The bit at `(x, y)` of a picture after it has been widened for bold and mirrored as the style asks. -/
def BitPicture.styledBit (b : BitPicture) (style : FontStyle) (bold : Bool) (x y : Int) : Bool :=
  let x := if style.contains .flipHorz then b.w + (if bold then 1 else 0) - 1 - x else x
  let y := if style.contains .flipVert then b.h - 1 - y else y
  b.bit x y || (bold && b.bit (x - 1) y)

namespace TextStyle

variable {st : TextStyle} {ink : InkBox} {bmp : GlyphBitmap} {scale : Int} {n rows : Nat}

theorem mirrored_eq (columns rows : Array UInt8 → Except Fault (Array UInt8)) (data : Array UInt8) :
    st.mirrored columns rows data =
      (if st.font.style.contains .flipHorz then columns data else pure data) >>= fun data =>
        if st.font.style.contains .flipVert then rows data else pure data := by
  rw [mirrored]
  split <;> rfl

theorem bit_mirrored {b : BitPicture} (hb : b.Whole) {data : Array UInt8}
    (hmirrored : st.mirrored (flipBits · b.w b.h b.pitch) (flipRows · b.h b.pitch) b.data = .ok data)
    (x y : Int) :
    (b.withData data).bit x y = b.bit (if st.font.style.contains .flipHorz then b.w - 1 - x else x)
      (if st.font.style.contains .flipVert then b.h - 1 - y else y) := by
  rw [mirrored_eq] at hmirrored
  obtain ⟨columns, hcolumns, hrows⟩ := Fault.bind_eq_ok.mp hmirrored
  have hcolumns' : (b.withData columns).Whole ∧ ∀ x y, (b.withData columns).bit x y =
      b.bit (if st.font.style.contains .flipHorz then b.w - 1 - x else x) y := by
    split at hcolumns
    next hflip =>
      exact ⟨hb.withData (size_flipBits hcolumns ▸ hb.size), fun x y => by
        rw [if_pos hflip]; exact BitPicture.bit_flipBits hb hcolumns x y⟩
    next hflip =>
      cases hcolumns
      exact ⟨hb, fun x y => by rw [if_neg hflip]; rfl⟩
  split at hrows
  next hflip =>
    rw [if_pos hflip, ← hcolumns'.2]
    exact BitPicture.bit_flipRows hcolumns'.1 hrows x y
  next hflip =>
    cases hrows
    rw [if_neg hflip, ← hcolumns'.2]

/-- The bits that the regular weight draws. -/
theorem bit_bitsImage (hweight : st.inkWeight = .regular) (hscale : 1 ≤ scale)
    (hfills : bmp.Fills n rows ink scale) {image : GlyphImage}
    (himage : st.bitsImage bmp scale ink = .ok image) :
    ∃ b, image = .bits b .regular scale ∧
      ∀ x y, b.bit x y = (bmp.picture n rows).styledBit st.font.style ink.bold x y := by
  have hunscaled : ¬(1 < scale ∧ st.inkWeight ≠ .regular) := by simp [hweight]
  obtain ⟨packed, hpacked, hwidth, hwhole, hbits⟩ := exists_packedRows_unscaled hscale hfills hunscaled
  rw [bitsImage] at himage
  obtain ⟨_, hpacked', himage⟩ := Fault.bind_eq_ok.mp himage
  rw [hpacked] at hpacked'
  cases hpacked'
  obtain ⟨data, hdata, himage⟩ := Fault.bind_eq_ok.mp himage
  cases himage
  refine ⟨(packed.picture rows).withData data, by rw [hweight]; rfl, fun x y => ?_⟩
  rw [bit_mirrored hwhole hdata, hbits]
  simp only [PackedRows.picture, hwidth]
  rfl

end TextStyle

/-- The picture of a glyph of a table of bits, if the table has the glyph. -/
theorem TextStyle.image?_monoSource {st : TextStyle} {g : Glyph} {t : GlyphTable UInt8} (h : t.BitTable)
    (hs : st.font.sourceOf g = t.monoSource) (ink : InkBox) :
    st.image? g ink = match t.glyph? (Glyph.index g) with
      | none => .ok none
      | some e => st.bitsImage ⟨e.data, t.rowSize e.width, t.scale⟩ t.scale ink >>= fun image =>
        .ok (some image) := by
  have hmax : max (t.scale : Int) 1 = t.scale := by
    have := h.rowSize_eq.2
    omega
  simp only [image?, hs, GlyphTable.monoSource, GlyphTable.metricsSource, GlyphTable.bitmap?, hmax]
  cases t.glyph? (Glyph.index g) <;> rfl

/-- The picture of a glyph of packed bits fills the box that its ink is given. -/
theorem TextPage.fills_plan {st : TextStyle} {g : Glyph} {t : GlyphTable UInt8} (h : t.BitTable)
    (hs : st.font.sourceOf g = t.monoSource) {e : TableGlyph UInt8}
    (hglyph : t.glyph? (Glyph.index g) = some e) (x y : Int) :
    GlyphBitmap.Fills ⟨e.data, t.rowSize e.width, t.scale⟩ e.width t.height (TextPage.plan st g x y).ink
      t.scale where
  pitch := by rw [h.rowSize_eq.1]
  size := GlyphTable.size_of_glyph? hglyph
  width := by
    have := h.rowSize_eq.2
    simp only [TextPage.plan, TextStyle.place, LogicalFont.boldWidth, hs, GlyphTable.monoSource,
      GlyphTable.metricsSource, GlyphTable.widthOf, hglyph]
    split
    · rw [decide_eq_true (by omega), if_pos rfl, Int.add_mul, Int.one_mul]
    · simp
  height := by simp [TextPage.plan, TextStyle.place, hs, GlyphTable.monoSource, GlyphTable.metricsSource]

end Rasterizer
