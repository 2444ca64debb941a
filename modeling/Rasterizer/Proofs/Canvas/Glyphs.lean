import Rasterizer.Proofs.Canvas.Commands
import Rasterizer.Proofs.Text.Inked

/-! # Glyphs on a canvas

A glyph of a table of bits, drawn in a plain style on a transparent background, leaves the text colour on
each pixel of the clip where its ink falls into its ink rectangle, and nothing else (`drawGlyph_inked`).
That rectangle is an estimate: ink that leans out of it below the baseline is not drawn
(`drawGlyph_cuts`). -/

namespace Rasterizer.Canvas

/-- A text of one glyph is drawn like the glyph. -/
theorem surface_drawGlyph (c : Canvas) (x y : Int) (g : Glyph) {font : LogicalFont} {bound : Rect}
    (hfont : c.text.font = some font) (hbound : visibleRect? c.surface c.space = some bound) :
    let pen := font.baselinePoint c.text.align.vert (c.toScreen x y)
    (c.drawGlyph x y g).1.surface = (TextPage.drawGlyph ⟨c.surface, c.clip, bound, c.scratch⟩
      (c.text.styleOf font) g pen.x pen.y).1.surface := by
  intro pen
  simp only [drawGlyph, drawText, hfont, hbound, TextPage.drawText, TextPage.drawFrom, Int.add_zero]
  rcases TextPage.drawGlyph _ _ g _ _ with ⟨page, e | a⟩ <;> rfl

/-- Whatever was done before, a glyph leaves the text colour where its ink falls into its ink rectangle
and the clip, and all other pixels as they were. The rectangle holds the whole ink of an upright glyph,
and of one that leans to the right and has at most one row below the baseline. -/
theorem drawGlyph_inked (surface : Surface) (space : CoordSpace) (commands : List Command) (x y : Int)
    (g : Glyph) {font : LogicalFont} {t : GlyphTable UInt8} (ht : t.BitTable)
    (hs : font.sourceOf g = t.monoSource) (hplain : font.style.Plain) :
    let c := commands.foldl perform (create surface space)
    c.text.font = some font → c.text.mode = .transparent →
      let st := c.text.styleOf font
      let pen := font.baselinePoint c.text.align.vert (c.toScreen x y)
      let base := pen.y + c.text.lineExtra
      let rc := (TextPage.plan st g pen.x base).rc
      (∀ x' y', c.clip.contains x' y' = true → st.Inked t g pen.x base ⟨x', y'⟩ →
        rc.contains x' y' = true →
          (c.drawGlyph x y g).1.surface.get? x' y' = some (c.surface.format.kept c.text.color)) ∧
      (∀ x' y', ¬(c.clip.contains x' y' = true ∧ st.Inked t g pen.x base ⟨x', y'⟩ ∧
        rc.contains x' y' = true) → (c.drawGlyph x y g).1.surface.get? x' y' = c.surface.get? x' y') ∧
      (TextPage.leanWidth font t.monoSource = 0 ∨
          font.style.flipsOnce = false ∧ t.monoSource.descent ≤ 1 →
        ∀ x' y', st.Inked t g pen.x base ⟨x', y'⟩ → rc.contains x' y' = true) := by
  intro c hfont htransparent st pen base rc
  have hc : Limited surface space c := limited_foldl_perform surface space commands
  have htransparent' : st.transparent = true := by
    change (c.text.mode == .transparent) = true
    rw [htransparent]
    rfl
  refine ⟨fun x' y' hin hinked hrc => ?_, fun x' y' hnot => ?_,
    fun hkeeps x' y' hinked => TextPage.contains_rc_of_inked ht hs hplain htransparent' hkeeps hinked⟩
  · obtain ⟨hdevice, hrect⟩ := hc.within x' y' hin
    rw [← hc.device] at hdevice
    rw [← hc.shape.rect] at hrect
    obtain ⟨bound, hbound, hin'⟩ := Rect.intersect?_of_contains hdevice hrect
    rw [Surface.rect_contains] at hrect
    rw [surface_drawGlyph c x y g hfont hbound]
    exact TextPage.get?_drawGlyph_of_inked ht hs ⟨c.surface, c.clip, bound, c.scratch⟩ hc.banded
      hplain htransparent' hin hin' hrect hinked hrc
  · by_cases hin : c.clip.contains x' y' = true
    · cases hbound : visibleRect? c.surface c.space with
      | none => simp only [drawGlyph, drawText, hfont, hbound]
      | some bound =>
        rw [surface_drawGlyph c x y g hfont hbound]
        exact TextPage.get?_drawGlyph_of_not_inked ht hs ⟨c.surface, c.clip, bound, c.scratch⟩
          hc.banded hplain htransparent' fun h => hnot ⟨hin, h⟩
    · exact (kept_drawText hc.banded x y [g]).2.2.2 x' y' (by simpa using hin)

/-- A table with one glyph of two columns and three rows, two of them below the baseline. -/
def slabTable : GlyphTable UInt8 :=
  (GlyphTable.build? "slab" 3 1 0 GlyphTable.bitRowSize #[⟨2, #[0xC0, 0xC0, 0xC0]⟩]).get (by decide)

theorem bitTable_slabTable : slabTable.BitTable :=
  .made (.fixed (show Picture.fixed "slab" 1 0 [[['#', '#'], ['#', '#'], ['#', '#']]] =
    .ok (some slabTable) from rfl))

/-- Asks for black text in the slab table, without a background. -/
def slabCommands (style : FontStyle) : List Command :=
  let page := greyPage 3 3 .regular barGlyph
  let font := (LogicalFont.ofSource slabTable.monoSource).withStyle style
  [.setAttributes page.space.mapping .set 0 page.pen page.brush
    { page.text with font := some font, color := 0, mode := .transparent }]

def slabPage (style : FontStyle) : Canvas :=
  (slabCommands style).foldl perform
    (create (greyPage 3 3 .regular barGlyph).surface (greyPage 3 3 .regular barGlyph).space)

/-- The last row of a slanted slab begins left of the box. The bit is set, and the clip extends there, but
it is not drawn. -/
theorem drawGlyph_cuts :
    let c := slabPage .italic
    let font := (LogicalFont.ofSource slabTable.monoSource).withStyle .italic
    let pen := font.baselinePoint c.text.align.vert (c.toScreen 1 0)
    c.text.font = some font ∧
      (c.text.styleOf font).Inked slabTable 0 pen.x (pen.y + c.text.lineExtra) ⟨0, 2⟩ ∧
      c.clip.contains 0 2 = true ∧ c.surface.format.kept c.text.color = 0 ∧
      (c.drawGlyph 1 0 0).1.surface.get? 0 2 = some 0x80 :=
  ⟨rfl, ⟨by decide, 0, 2, by decide, by decide⟩, by decide, by decide, by decide⟩

/-- Of the last row of a slanted slab one bit is drawn, and of the first row both. A bold slab is drawn
three columns wide. -/
theorem drawGlyph_inked_slab :
    ((slabPage .italic).drawGlyph 1 0 0).1.surface.get? 1 0 = some 0 ∧
      ((slabPage .italic).drawGlyph 1 0 0).1.surface.get? 2 0 = some 0 ∧
      ((slabPage .italic).drawGlyph 1 0 0).1.surface.get? 0 2 = some 0x80 ∧
      ((slabPage .italic).drawGlyph 1 0 0).1.surface.get? 1 2 = some 0 ∧
      ((slabPage .bold).drawGlyph 0 0 0).1.surface.get? 2 2 = some 0 := by
  dsimp only [slabPage]
  obtain ⟨hinked, hnot, -⟩ := drawGlyph_inked (greyPage 3 3 .regular barGlyph).surface
    (greyPage 3 3 .regular barGlyph).space (slabCommands .italic) 1 0 0 bitTable_slabTable rfl
    (show ((LogicalFont.ofSource slabTable.monoSource).withStyle .italic).style.Plain by decide) rfl rfl
  obtain ⟨hinked', -, hkeeps⟩ := drawGlyph_inked (greyPage 3 3 .regular barGlyph).surface
    (greyPage 3 3 .regular barGlyph).space (slabCommands .bold) 0 0 0 bitTable_slabTable rfl
    (show ((LogicalFont.ofSource slabTable.monoSource).withStyle .bold).style.Plain by decide) rfl rfl
  refine ⟨(hinked 1 0 (by decide) ⟨by decide, 0, 0, by decide, by decide⟩ (by decide)).trans (by decide),
    (hinked 2 0 (by decide) ⟨by decide, 1, 0, by decide, by decide⟩ (by decide)).trans (by decide),
    (hnot 0 2 fun h => absurd h.2.2 (by decide)).trans (by decide),
    (hinked 1 2 (by decide) ⟨by decide, 1, 2, by decide, by decide⟩ (by decide)).trans (by decide),
    (hinked' 2 2 (by decide) ?_ (hkeeps (.inl (by decide)) 2 2 ?_)).trans (by decide)⟩
  all_goals exact ⟨by decide, 2, 2, by decide, by decide⟩

end Rasterizer.Canvas
