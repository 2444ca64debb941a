import Rasterizer.Proofs.Canvas.GlyphDots

/-! # Magnified glyphs

An upright glyph of a built-in font, drawn in the regular weight without a background, turns each visible
pixel of its box by one dot of its source, and no other pixel (`drawGlyph_magnified`). In bits and grey
coverage that is the dot at the place divided by the scale. Coverage by channel and colours are drawn as
they are in a box of the scaled size, so that the former is read on past the end of its rows
(`drawGlyph_unmagnified`). -/

namespace Rasterizer

namespace GlyphSource

/-- The dot that a source has at a place of the picture of a glyph: a bit, a coverage, the coverages of
three channels as far as there are any, or a colour. -/
def dotAt (s : GlyphSource) (r : FontRequest) (i : UInt32) (X Y : Int) : GlyphDot :=
  let w := (s.box r i).w / s.scale
  let h := (s.box r i).h / s.scale
  match s.kind with
  | .mono => (s.mono? r i).elim .blank fun bmp => .ofBit (BitPicture.bit ⟨bmp.data, bmp.pitch, w, h⟩ X Y)
  | .grey => (s.grey? r i).elim .blank fun bmp => .grey (CoveragePicture.byte ⟨bmp.data, bmp.pitch, w, h⟩ X Y)
  | .subpixel => (s.grey? r i).elim .blank fun bmp =>
    CoveragePicture.triple bmp.data bmp.pitch X.toNat Y.toNat
  | .prerendered => (s.pixels? r i).elim .blank fun px => px.dot X Y

/-- How many pixels in each direction a dot of a source is drawn on. -/
def magnification (s : GlyphSource) : Int :=
  match s.kind with
  | .mono | .grey => s.scale
  | .subpixel | .prerendered => 1

end GlyphSource

namespace GlyphTable

variable {i : UInt32}

/-- The sides of a glyph's box, without the scale. -/
theorem box_ediv {α : Type} {t : GlyphTable α} {e : TableGlyph α} (hglyph : t.glyph? i = some e)
    (hscale : 1 ≤ t.scale) (kind : GlyphKind) (r : FontRequest) :
    ((t.metricsSource kind).box r i).w / t.scale = e.width ∧
      ((t.metricsSource kind).box r i).h / t.scale = t.height := by
  have hne : (t.scale : Int) ≠ 0 := by omega
  simp only [metricsSource, widthOf, hglyph]
  exact ⟨Int.mul_ediv_cancel _ hne, Int.mul_ediv_cancel _ hne⟩

variable {t : GlyphTable UInt8} {e : TableGlyph UInt8} (hglyph : t.glyph? i = some e)

include hglyph

theorem bitmap?_eq : t.bitmap? i = some ⟨e.data, t.rowSize e.width, t.scale⟩ := by
  rw [bitmap?, hglyph]
  rfl

theorem dotAt_monoSource (hscale : 1 ≤ t.scale) (r : FontRequest) (X Y : Int) :
    t.monoSource.dotAt r i X Y =
      .ofBit (BitPicture.bit ⟨e.data, t.rowSize e.width, e.width, t.height⟩ X Y) := by
  obtain ⟨hw, hh⟩ := box_ediv hglyph hscale .mono r
  change (t.bitmap? i).elim _ _ = _
  rw [bitmap?_eq hglyph, Option.elim_some, ← hw, ← hh]
  rfl

theorem dotAt_greySource (hscale : 1 ≤ t.scale) (r : FontRequest) (X Y : Int) :
    t.greySource.dotAt r i X Y =
      .grey (CoveragePicture.byte ⟨e.data, t.rowSize e.width, e.width, t.height⟩ X Y) := by
  obtain ⟨hw, hh⟩ := box_ediv hglyph hscale .grey r
  change (t.bitmap? i).elim _ _ = _
  rw [bitmap?_eq hglyph, Option.elim_some, ← hw, ← hh]
  rfl

theorem dotAt_subpixelSource (r : FontRequest) (X Y : Int) :
    t.subpixelSource.dotAt r i X Y = CoveragePicture.triple e.data (t.rowSize e.width) X.toNat Y.toNat := by
  change (t.bitmap? i).elim _ _ = _
  rw [bitmap?_eq hglyph]
  rfl

omit hglyph in
theorem dotAt_prerenderedSource {t : GlyphTable Color} {e : TableGlyph Color} (hglyph : t.glyph? i = some e)
    (r : FontRequest) (X Y : Int) :
    t.prerenderedSource.dotAt r i X Y = GlyphPixels.dot ⟨e.width, t.height, e.data⟩ X Y := by
  change (Option.map _ (t.glyph? i)).elim _ _ = _
  rw [hglyph]
  rfl

end GlyphTable

namespace TextPage

variable {st : TextStyle} {g : Glyph} {x y X Y : Int}

/-- A glyph whose box has columns is one of its table, and has columns there. -/
theorem exists_glyph? {α : Type} {t : GlyphTable α} {kind : GlyphKind}
    (hbox : (st.font.sourceOf g).box = (t.metricsSource kind).box)
    (hthin : st.font.boldWidth (st.font.sourceOf g) = 0) (hw : 0 < (plan st g x y).ink.w) :
    ∃ e, t.glyph? (Glyph.index g) = some e ∧ 0 < e.width := by
  cases hglyph : t.glyph? (Glyph.index g) with
  | none =>
    simp [plan, TextStyle.place, hthin, hbox, GlyphTable.metricsSource, GlyphTable.widthOf, hglyph] at hw
  | some e =>
    refine ⟨e, rfl, Nat.pos_of_ne_zero fun hnone => ?_⟩
    rw [(size_plan hbox hglyph hthin).1, hnone] at hw
    simp at hw

/-- A glyph that is neither widened nor mirrored has the dots of its source, each as often as the source
is magnified. -/
theorem dotOf_eq (hbuilt : (st.font.sourceOf g).BuiltIn) (hplain : st.font.style.Plain)
    (hflips : st.font.style.flips = false) (hthin : st.font.boldWidth (st.font.sourceOf g) = 0)
    (hX : 0 ≤ X ∧ X < (plan st g x y).ink.w) (hY : 0 ≤ Y ∧ Y < (plan st g x y).ink.h) :
    st.dotOf g (plan st g x y).ink X Y =
      (st.font.sourceOf g).dotAt st.font.toFontRequest (Glyph.index g)
        (X / (st.font.sourceOf g).magnification) (Y / (st.font.sourceOf g).magnification) := by
  obtain ⟨hhorz, hvert⟩ := FontStyle.intersects_union_eq_false.mp hflips
  have hmirrorX (w x : Int) : st.font.style.mirrorX w x = x := by
    rw [FontStyle.mirrorX, FontStyle.contains_eq_false hhorz]
    rfl
  have hmirrorY (h y : Int) : st.font.style.mirrorY h y = y := by
    rw [FontStyle.mirrorY, FontStyle.contains_eq_false hvert]
    rfl
  have hcolumns : 0 < (plan st g x y).ink.w := Int.lt_of_le_of_lt hX.1 hX.2
  generalize hs : st.font.sourceOf g = s at hbuilt
  rw [← hs]
  cases hbuilt with
  | @mono t ht =>
    have hbox : (st.font.sourceOf g).box = (t.metricsSource .mono).box := by rw [hs]; rfl
    obtain ⟨e, hglyph, -⟩ := exists_glyph? hbox hthin hcolumns
    have hthin' : decide (0 < st.font.boldWidth t.monoSource) = false := by
      rw [← hs, hthin]
      rfl
    rw [dotOf_mono ht hs hplain, hs, GlyphTable.dotAt_monoSource hglyph ht.rowSize_eq.2]
    simp only [LogicalFont.bitAt, GlyphTable.picture?, hglyph, Option.map_some, Option.any_some,
      BitPicture.styledBit, FontStyle.contains_eq_false hhorz, FontStyle.contains_eq_false hvert, hthin',
      Bool.false_and, Bool.or_false, Bool.false_eq_true, if_false]
    rfl
  | @grey t ht =>
    have hbox : (st.font.sourceOf g).box = (t.metricsSource .grey).box := by rw [hs]; rfl
    obtain ⟨e, hglyph, hwide⟩ := exists_glyph? hbox hthin hcolumns
    rw [dotOf_grey ht hs hglyph hwide, hmirrorX, hmirrorY, hs,
      GlyphTable.dotAt_greySource hglyph ht.rowSize_eq.2, ht.rowSize_eq.1]
    rfl
  | @subpixel t ht =>
    have hbox : (st.font.sourceOf g).box = (t.metricsSource .subpixel).box := by rw [hs]; rfl
    obtain ⟨e, hglyph, -⟩ := exists_glyph? hbox hthin hcolumns
    rw [dotOf_subpixel hs hglyph hX hY, hs, GlyphTable.dotAt_subpixelSource hglyph]
    simp [GlyphSource.magnification, GlyphTable.subpixelSource, GlyphTable.metricsSource]
  | @prerendered t ht =>
    have hbox : (st.font.sourceOf g).box = (t.metricsSource .prerendered).box := by rw [hs]; rfl
    obtain ⟨e, hglyph, -⟩ := exists_glyph? hbox hthin hcolumns
    rw [dotOf_colors ht hs hglyph, hmirrorX, hmirrorY, hs, GlyphTable.dotAt_prerenderedSource hglyph]
    simp [GlyphSource.magnification, GlyphTable.prerenderedSource, GlyphTable.metricsSource]

/-- The colours of a built-in font keep within the boxes of its glyphs. -/
theorem pixelsFit_of_builtIn (hbuilt : (st.font.sourceOf g).BuiltIn) : PixelsFit st g := by
  intro px hpx
  rw [boxOf]
  generalize st.font.sourceOf g = s at hbuilt hpx ⊢
  cases hbuilt with
  | mono | grey | subpixel => cases hpx
  | @prerendered t ht =>
    obtain ⟨e, hglyph, rfl⟩ := Option.map_eq_some_iff.mp hpx
    have hscale := ht.rowSize_eq.2
    simp only [GlyphTable.prerenderedSource, GlyphTable.metricsSource, GlyphTable.widthOf, hglyph]
    have hcolumns : GlyphPixels.columns ⟨e.width, t.height, e.data⟩ ≤ e.width * t.scale :=
      Nat.le_trans (GlyphPixels.places_le e.width) (Nat.le_mul_of_pos_right _ hscale)
    have hrows : GlyphPixels.rows ⟨e.width, t.height, e.data⟩ ≤ t.height * t.scale :=
      Nat.le_trans (GlyphPixels.places_le t.height) (Nat.le_mul_of_pos_right _ hscale)
    exact ⟨Int.ofNat_le.mpr hcolumns, Int.ofNat_le.mpr hrows⟩

end TextPage

namespace Canvas

/-- Whatever was done before, a glyph turns each visible pixel of its box by one dot of its source, in bits
and grey coverage the one at the place divided by the scale, and leaves the other pixels as they were. -/
theorem drawGlyph_magnified (surface : Surface) (space : CoordSpace) (commands : List Command) (x y : Int)
    (g : Glyph) (font : LogicalFont) (hbuilt : (font.sourceOf g).BuiltIn) (hg : g ≠ Glyph.invalid)
    (hplain : font.style.Plain) (hflips : font.style.flips = false)
    (hthin : font.boldWidth (font.sourceOf g) = 0)
    (hupright : TextPage.leanWidth font (font.sourceOf g) = 0) :
    let c := commands.foldl perform (create surface space)
    c.text.font = some font → c.text.mode = .transparent →
      let s := font.sourceOf g
      let st := c.text.styleOf font
      let box := c.glyphBox font x y g
      (∀ X Y, 0 ≤ X → X < box.w → 0 ≤ Y → Y < box.h → c.clip.contains (box.x + X) (box.y + Y) = true →
        (c.drawGlyph x y g).1.surface.get? (box.x + X) (box.y + Y) =
          (c.surface.get? (box.x + X) (box.y + Y)).map
            ((s.dotAt font.toFontRequest (Glyph.index g) (X / s.magnification) (Y / s.magnification)).on
              c.surface.format st ·)) ∧
      (∀ x' y', ¬(c.clip.contains x' y' = true ∧ box.x ≤ x' ∧ x' < box.x + box.w ∧ box.y ≤ y' ∧
          y' < box.y + box.h) →
        (c.drawGlyph x y g).1.surface.get? x' y' = c.surface.get? x' y') := by
  intro c hfont hmode s st box
  have hc : Limited surface space c := limited_foldl_perform surface space commands
  refine ⟨fun X Y hX hX' hY hY' hin => ?_, fun x' y' hout => ?_⟩
  · have hdot : st.dotOf g (c.glyphPlan font x y g).ink X Y = _ :=
      TextPage.dotOf_eq hbuilt hplain hflips hthin ⟨hX, hX'⟩ ⟨hY, hY'⟩
    rw [get?_drawGlyph_box hc hfont x y hplain hmode hupright hg ⟨hX, hX'⟩ ⟨hY, hY'⟩ hin, hdot]
    rfl
  · refine get?_drawGlyph_unseen hc hfont x y (inkOnly_styleOf hplain hmode)
      (TextPage.inkFits_of_upright hupright (TextPage.pixelsFit_of_builtIn hbuilt)) fun h => hout ?_
    rwa [contains_rc_glyphPlan x y hplain hmode hupright] at h

/-- A table of scale 2 with one dot of full coverage by channel. -/
def lampTable : GlyphTable UInt8 :=
  ((GlyphTable.ofSubpixel? "lamp" 1 1 0 #[⟨1, #[255, 255, 255]⟩]).get (by decide)).withScale 2

/-- A table of scale 2 with one red dot. -/
def chipTable : GlyphTable Color :=
  ((GlyphTable.ofColors? "chip" 1 1 0 #[⟨1, #[⟨255, 0, 0, 255⟩]⟩]).get (by decide)).withScale 2

/-- A table of scale 2 with one dot of full grey coverage. -/
def hazeTable : GlyphTable UInt8 :=
  ((GlyphTable.ofGrey? "haze" 1 1 0 #[⟨1, #[255]⟩]).get (by decide)).withScale 2

theorem builtIn_tables : lampTable.subpixelSource.BuiltIn ∧ chipTable.prerenderedSource.BuiltIn ∧
    hazeTable.greySource.BuiltIn :=
  ⟨.subpixel (.scaled (.made ⟨_, _, _, _, _, (Option.some_get _).symm⟩) 2),
    .prerendered (.scaled (.made ⟨_, _, _, _, _, (Option.some_get _).symm⟩) 2),
    .grey (.scaled (.made ⟨_, _, _, _, _, (Option.some_get _).symm⟩) 2)⟩

/-- The grey square as a page with a font. -/
def dotPage (s : GlyphSource) : Canvas := inkPage greySquare (.ofSource s)

/-- Of four pixels that the one dot of a table belongs to, the last stays grey. -/
theorem drawGlyph_unmagnified :
    (let s := lampTable.subpixelSource
      let c := dotPage s
      c.glyphBox (.ofSource s) 0 0 0 = ⟨0, 0, 2, 2⟩ ∧ c.clip.contains 1 1 = true ∧
        c.surface.get? 1 1 = some 0x80 ∧
        (s.dotAt (LogicalFont.ofSource s).toFontRequest 0 (1 / 2) (1 / 2)).on c.surface.format
          (c.text.styleOf (.ofSource s)) 0x80 = 0 ∧
        (c.drawGlyph 0 0 0).1.surface.get? 1 1 = some 0x80) ∧
      let s := chipTable.prerenderedSource
      let c := dotPage s
      c.glyphBox (.ofSource s) 0 0 0 = ⟨0, 0, 2, 2⟩ ∧ c.clip.contains 1 1 = true ∧
        c.surface.get? 1 1 = some 0x80 ∧
        (s.dotAt (LogicalFont.ofSource s).toFontRequest 0 (1 / 2) (1 / 2)).on c.surface.format
          (c.text.styleOf (.ofSource s)) 0x80 = 0xFF0000 ∧
        (c.drawGlyph 0 0 0).1.surface.get? 1 1 = some 0x80 := by
  refine ⟨⟨?_, ?_, ?_, ?_, ?_⟩, ?_, ?_, ?_, ?_, ?_⟩
  all_goals decide

/-- The grey dot is drawn on all four pixels, the other two on one. -/
theorem drawGlyph_magnified_dots :
    ((dotPage hazeTable.greySource).drawGlyph 0 0 0).1.surface.get? 1 1 = some 0 ∧
      ((dotPage lampTable.subpixelSource).drawGlyph 0 0 0).1.surface.get? 0 0 = some 0 ∧
      ((dotPage chipTable.prerenderedSource).drawGlyph 0 0 0).1.surface.get? 0 0 = some 0xFF0000 ∧
      ((dotPage chipTable.prerenderedSource).drawGlyph 0 0 0).1.surface.get? 1 0 = some 0x80 := by
  have hdrawn (s : GlyphSource) (hbuilt : s.BuiltIn) (hthin : (LogicalFont.ofSource s).boldWidth s = 0)
      (hupright : TextPage.leanWidth (.ofSource s) s = 0) :=
    (drawGlyph_magnified greySquare (.screen greySquare.rect) (inkCommands greySquare (.ofSource s)) 0 0 0
      (.ofSource s) hbuilt (by decide) (show FontStyle.regular.Plain by decide)
      (show FontStyle.regular.flips = false by decide) hthin hupright rfl rfl).1
  obtain ⟨hlamp, hchip, hhaze⟩ := builtIn_tables
  refine ⟨?_, ?_, ?_, ?_⟩
  · exact (hdrawn _ hhaze (by decide) (by decide) 1 1 (by decide) (by decide) (by decide) (by decide)
      (by decide)).trans (by decide)
  · exact (hdrawn _ hlamp (by decide) (by decide) 0 0 (by decide) (by decide) (by decide) (by decide)
      (by decide)).trans (by decide)
  · exact (hdrawn _ hchip (by decide) (by decide) 0 0 (by decide) (by decide) (by decide) (by decide)
      (by decide)).trans (by decide)
  · exact (hdrawn _ hchip (by decide) (by decide) 1 0 (by decide) (by decide) (by decide) (by decide)
      (by decide)).trans (by decide)

end Canvas

end Rasterizer
