import Rasterizer.Proofs.Canvas.Commands
import Rasterizer.Proofs.Text.Advances

/-! # Measured text

A text advances by what it measures, however little of it is seen, as long as the device rectangle meets
the surface (`drawText_measured`); beside the surface it is not laid out at all, and a text that has a
length then advances by nothing (`drawText_unmeasured`). What a text measures is the sum of its glyphs'
metrics and of what these miss of the font's weight, so lengths add up exactly in the fonts whose sources
take for the weight what the metrics count (`textExtent_additive`). Some weights take more and others less
(`textExtent_differs`). -/

namespace Rasterizer.Canvas

variable {c : Canvas} {font : LogicalFont}

theorem length_textExtent (hfont : c.text.font = some font) (glyphs : List Glyph) :
    (c.textExtent glyphs).1 = ((c.text.styleOf font).totalAdvance glyphs).length := by
  simp only [textExtent, hfont, TextStyle.extent_eq]

/-- A text that is drawn to its end advances by the length that is measured. On a canvas whose device
rectangle lies beside the surface it advances by nothing. -/
theorem drawText_measured (c : Canvas) (x y : Int) (glyphs : List Glyph) {a : Advance}
    (hok : (c.drawText x y glyphs).2 = .ok a) :
    a.length = if (visibleRect? c.surface c.space).isSome then (c.textExtent glyphs).1 else 0 := by
  rw [drawText] at hok
  cases hfont : c.text.font with
  | none =>
    simp only [hfont] at hok
    cases hok
    simp only [textExtent, hfont, ite_self]
  | some font =>
    cases hbound : visibleRect? c.surface c.space with
    | none =>
      simp only [hfont, hbound] at hok
      cases hok
      rfl
    | some bound =>
      simp only [hfont, hbound] at hok
      rw [TextPage.advance_drawText _ glyphs _ _ hok, Option.isSome_some, if_pos rfl,
        length_textExtent hfont]

/-- A font of one bar. Its source has the given style by itself. -/
def barFont (native style : FontStyle) (scale : Nat) : LogicalFont :=
  (LogicalFont.ofSource (.ofList "bar" native .mono 1 1 0 scale [barGlyph])).withStyle style

/-- A canvas of two pixels with that font and device rectangle. -/
def barPage (device : Rect) (font : LogicalFont) : Canvas :=
  (ofWindow (greyPage 2 1 .regular barGlyph).surface device).setFont font

/-- Two bold bars, the second one to the right of the surface. -/
theorem drawText_measured_bars :
    let c := barPage ⟨0, 0, 2, 1⟩ (barFont .regular .bold 1)
    (c.drawText 0 0 [0, Glyph.invalid, 0]).2 = .ok ⟨6, 6, 0⟩ ∧
      (c.textExtent [0, Glyph.invalid, 0]).1 = 6 := by
  intro c
  have hok : (c.drawText 0 0 [0, Glyph.invalid, 0]).2 = .ok ⟨6, 6, 0⟩ := by decide
  exact ⟨hok, (drawText_measured c 0 0 _ hok).symm⟩

/-- Beside the surface a bar advances by nothing, though it measures two. -/
theorem drawText_unmeasured :
    let c := barPage ⟨10, 0, 14, 4⟩ (barFont .regular .regular 1)
    (c.drawText 0 0 [0]).2 = .ok {} ∧ (c.textExtent [0]).1 = 2 := by
  decide

theorem textExtent_metrics (hfont : c.text.font = some font) (hextra : c.text.charExtra = 0)
    (glyphs : List Glyph) :
    (c.textExtent glyphs).1 = ((glyphs.filterMap c.glyphInfo?).map (·.advance.length)).sum +
      ((glyphs.filter (· ≠ Glyph.invalid)).map font.missed).sum := by
  have hinfo : c.glyphInfo? = font.glyphInfo? := funext fun g => by
    rw [glyphInfo?, hfont, Option.bind_some]
  rw [length_textExtent hfont, TextStyle.length_totalAdvance, hinfo]
  simp only [TextAttributes.styleOf, hextra, Int.add_zero]

/-- Without extra room the length of a text is the sum of the metrics of its glyphs and of what these miss
of the weight. The metrics alone add up in all texts if and only if each source takes for the weight what
the metrics count, as in every font that asks for no weight. -/
theorem textExtent_additive (c : Canvas) {font : LogicalFont} (hfont : c.text.font = some font)
    (hextra : c.text.charExtra = 0) :
    (∀ glyphs, (c.textExtent glyphs).1 =
      ((glyphs.filterMap c.glyphInfo?).map (·.advance.length)).sum +
        ((glyphs.filter (· ≠ Glyph.invalid)).map font.missed).sum) ∧
      ((∀ glyphs, (c.textExtent glyphs).1 =
        ((glyphs.filterMap c.glyphInfo?).map (·.advance.length)).sum) ↔
          ∀ s ∈ font.sources, font.weightWidth s = font.countedWidth) ∧
      (font.style.intersects (.union .bold (.union .book .light)) = false →
        ∀ s ∈ font.sources, font.weightWidth s = font.countedWidth) := by
  refine ⟨textExtent_metrics hfont hextra, ⟨fun hsum s hs => ?_, fun hwidth glyphs => ?_⟩,
    fun hplain s _ => LogicalFont.weightWidth_of_unweighted hplain s⟩
  · -- a text of one glyph from the source
    obtain ⟨g, hg, rfl⟩ := font.exists_sourceOf hs
    have hone := (hsum [g]).symm.trans (textExtent_metrics hfont hextra [g])
    rw [List.filter_cons_of_pos (by simpa using hg), List.filter_nil, List.map_singleton,
      List.sum_singleton, LogicalFont.missed] at hone
    omega
  · have hmissed : font.missed = fun _ => 0 := funext fun g => by
      rw [LogicalFont.missed, hwidth _ (font.sourceOf_mem_sources g), Int.sub_self]
    rw [textExtent_metrics hfont hextra, hmissed]
    simp

/-- Bars made bold by a column add up. -/
theorem textExtent_additive_bars :
    let c := barPage ⟨0, 0, 2, 1⟩ (barFont .regular .bold 1)
    ∀ glyphs, (c.textExtent glyphs).1 =
      ((glyphs.filterMap c.glyphInfo?).map (·.advance.length)).sum :=
  (textExtent_additive (barPage ⟨0, 0, 2, 1⟩ (barFont .regular .bold 1)) rfl rfl).2.1.mpr (by decide)

/-- A bar that is bold by itself measures less than its metrics say, and a magnified bold one and one with a
halo measure more. -/
theorem textExtent_differs :
    let bars (font : LogicalFont) := barPage ⟨0, 0, 2, 1⟩ font
    let both (c : Canvas) :=
      ((c.textExtent [0]).1, (([0].filterMap c.glyphInfo?).map (·.advance.length)).sum)
    both (bars (barFont .bold .bold 1)) = (2, 3) ∧ both (bars (barFont .regular .bold 2)) = (4, 3) ∧
      both (bars (barFont .regular .book 1)) = (3, 2) := by
  decide

end Rasterizer.Canvas
