import Rasterizer.Proofs.Text.Flips
import Rasterizer.Proofs.Text.InkOnly

/-! # The dots of the built-in fonts

The picture of a glyph, made ready for its place, has the dots of its table, found by dividing by the scale
and mirrored as the style asks (`dotOf_mono`, `dotOf_grey`). The table's coverage by channel is neither
divided nor mirrored (`dotOf_subpixel`), and its colours are not divided (`dotOf_colors`). -/

namespace Rasterizer.TextPage

variable {st : TextStyle} {g : Glyph} {x y X Y : Int}

theorem dotOf_mono {t : GlyphTable UInt8} (ht : t.BitTable) (hs : st.font.sourceOf g = t.monoSource)
    (hplain : st.font.style.Plain) :
    st.dotOf g (plan st g x y).ink X Y = .ofBit (st.font.bitAt t (Glyph.index g) X Y) := by
  rw [TextStyle.dotOf]
  rcases image?_bits ht hs hplain x y with ⟨hclear, hnone⟩ | ⟨b, himage, hbits⟩
  · rw [hclear]
    split
    next image himage => exact absurd himage (hnone image)
    next => rfl
  · rw [himage, ← hbits]
    rfl

/-- The box of a glyph that is not widened, at the scale of its table. -/
theorem size_plan {α : Type} {t : GlyphTable α} {kind : GlyphKind} {e : TableGlyph α}
    (hbox : (st.font.sourceOf g).box = (t.metricsSource kind).box)
    (hglyph : t.glyph? (Glyph.index g) = some e) (hthin : st.font.boldWidth (st.font.sourceOf g) = 0) :
    (plan st g x y).ink.w = e.width * t.scale ∧ (plan st g x y).ink.h = t.height * t.scale := by
  simp [plan, TextStyle.place, hthin, hbox, GlyphTable.metricsSource, GlyphTable.widthOf, hglyph]

theorem dotOf_grey {t : GlyphTable UInt8} (ht : t.GreyTable) (hs : st.font.sourceOf g = t.greySource)
    {e : TableGlyph UInt8} (hglyph : t.glyph? (Glyph.index g) = some e) (hwide : 0 < e.width) :
    st.dotOf g (plan st g x y).ink X Y = .grey ((CoveragePicture.ofRows e.data e.width t.height).byte
      (st.font.style.mirrorX e.width (X / t.scale)) (st.font.style.mirrorY t.height (Y / t.scale))) := by
  have hscale := ht.rowSize_eq.2
  have hmax : max (t.scale : Int) 1 = t.scale := by omega
  have hthin : st.font.boldWidth (st.font.sourceOf g) = 0 := by
    rw [hs]
    exact boldWidth_of_ne_mono nofun
  have hbox : (st.font.sourceOf g).box = (t.metricsSource .grey).box := by rw [hs]; rfl
  obtain ⟨hwidth, hheight⟩ := size_plan (x := x) (y := y) hbox hglyph hthin
  have hsize : e.data.size = e.width * t.height := by
    rw [GlyphTable.size_of_glyph? hglyph, ht.rowSize_eq.1]
    rfl
  have hrows : t.height * e.width ≤ e.data.size := by rw [hsize, Nat.mul_comm]
  generalize hink : (plan st g x y).ink = ink at *
  have hends : FailsOnlyIf (st.font.style.contains .flipHorz = true ∧ e.width = 0)
      (st.greyImage ⟨e.data, e.width, t.scale⟩ t.scale ink) :=
    TextStyle.failsOnlyIf_greyImage (by omega) rfl hsize hwidth hheight
  have himage : st.image? g ink = st.greyImage ⟨e.data, e.width, t.scale⟩ t.scale ink >>= fun image =>
      .ok (some image) := by
    simp only [TextStyle.image?, hs, GlyphTable.greySource, GlyphTable.metricsSource, GlyphTable.bitmap?, hmax,
      hglyph, Option.map_some, ht.rowSize_eq.1]
    rfl
  cases hgrey : st.greyImage ⟨e.data, e.width, t.scale⟩ t.scale ink with
  | error fault => exact absurd (hends fault hgrey).2.2 (Nat.ne_of_gt hwide)
  | ok image =>
    rw [TextStyle.dotOf, himage, hgrey]
    simp only [TextStyle.greyImage, hwidth, hheight, Int.mul_tdiv_cancel _ (show (t.scale : Int) ≠ 0 by omega)]
      at hgrey
    obtain ⟨data, hdata, hgrey⟩ := Fault.bind_eq_ok.mp hgrey
    cases hgrey
    exact congrArg GlyphDot.grey (CoveragePicture.byte_mirrored hrows hdata _ _)

theorem dotOf_subpixel {t : GlyphTable UInt8} (hs : st.font.sourceOf g = t.subpixelSource)
    {e : TableGlyph UInt8} (hglyph : t.glyph? (Glyph.index g) = some e)
    (hX : 0 ≤ X ∧ X < (plan st g x y).ink.w) (hY : 0 ≤ Y ∧ Y < (plan st g x y).ink.h) :
    st.dotOf g (plan st g x y).ink X Y =
      CoveragePicture.triple e.data (t.rowSize e.width) X.toNat Y.toNat := by
  have himage : st.image? g (plan st g x y).ink = .ok (some (.channels ⟨e.data, t.rowSize e.width,
      (plan st g x y).ink.w, (plan st g x y).ink.h⟩)) := by
    simp only [TextStyle.image?, hs, GlyphTable.subpixelSource, GlyphTable.metricsSource, GlyphTable.bitmap?,
      hglyph, Option.map_some]
    rfl
  rw [TextStyle.dotOf, himage]
  exact if_pos ⟨hX.1, hX.2, hY⟩

theorem dotOf_colors {t : GlyphTable Color} (ht : t.ColorTable) (hs : st.font.sourceOf g = t.prerenderedSource)
    {e : TableGlyph Color} (hglyph : t.glyph? (Glyph.index g) = some e) :
    let px : GlyphPixels := ⟨e.width, t.height, e.data⟩
    st.dotOf g (plan st g x y).ink X Y =
      px.dot (st.font.style.mirrorX px.columns X) (st.font.style.mirrorY px.rows Y) := by
  intro px
  have hsize : px.pixels.size = px.width * px.height := by
    rw [show px.pixels = e.data from rfl, GlyphTable.size_of_glyph? hglyph, ht.rowSize_eq.1]
    rfl
  have hall : px.rows * px.columns ≤ px.pixels.size := by
    rw [hsize, Nat.mul_comm]
    exact Nat.mul_le_mul (GlyphPixels.places_le px.width) (GlyphPixels.places_le px.height)
  obtain ⟨px', hpx'⟩ := px.exists_flipped hsize st.font.style
  have himage : st.image? g (plan st g x y).ink = .ok (some (.colors px')) := by
    simp only [TextStyle.image?, hs, GlyphTable.prerenderedSource, GlyphTable.metricsSource, hglyph,
      Option.map_some]
    rw [hpx']
    rfl
  rw [TextStyle.dotOf, himage]
  exact GlyphPixels.dot_flipped hall hpx' X Y

end Rasterizer.TextPage
