import Rasterizer.Proofs.Canvas.Commands
import Rasterizer.Proofs.Text.Scratch

/-! # The buffers of a canvas are not seen

A canvas keeps the buffers of its glyphs from text to text. Canvases that differ in their buffers alone
cannot be told apart: a text has the same effect on both (`drawText_hides_scratch`), and so has each
sequence of calls (`sameButScratch_foldl_perform`). -/

namespace Rasterizer.Canvas

/-- The canvases differ in their buffers at most. -/
def SameButScratch (c c' : Canvas) : Prop := ∃ scratch, c' = { c with scratch := scratch }

/-- The calls have the same result and leave the same canvas, but for the buffers. -/
def SameEffect (r r' : Canvas × Except Fault Advance) : Prop := SameButScratch r.1 r'.1 ∧ r'.2 = r.2

variable {c c' : Canvas}

/-! ## One call -/

theorem sameEffect_drawText (h : SameButScratch c c') (x y : Int) (glyphs : List Glyph) :
    SameEffect (c.drawText x y glyphs) (c'.drawText x y glyphs) := by
  obtain ⟨scratch, rfl⟩ := h
  rw [drawText, drawText]
  dsimp only
  cases c.text.font with
  | none => exact ⟨⟨scratch, rfl⟩, rfl⟩
  | some font =>
    cases visibleRect? c.surface c.space with
    | none => exact ⟨⟨scratch, rfl⟩, rfl⟩
    | some bound =>
      have hpage : TextPage.SameButScratch ⟨c.surface, c.clip, bound, c.scratch⟩
        ⟨c.surface, c.clip, bound, scratch⟩ := ⟨scratch, rfl⟩
      obtain ⟨⟨drawn, hdrawn⟩, hresult⟩ := TextPage.drawText_sameButScratch hpage (c.text.styleOf font)
        glyphs (font.baselinePoint c.text.align.vert (c.toScreen x y)).x
        (font.baselinePoint c.text.align.vert (c.toScreen x y)).y
      refine ⟨⟨drawn, ?_⟩, hresult⟩
      dsimp only [toScreen] at hdrawn ⊢
      rw [hdrawn]

theorem sameButScratch_draw (h : SameButScratch c c') (hclip : c.clip.Banded) (d : Drawing) :
    SameButScratch (c.draw d) (c'.draw d) := by
  obtain ⟨scratch, rfl⟩ := h
  exact ⟨scratch, (mapped_draw d).scratch hclip scratch⟩

/-! ## Sequences of calls -/

variable {surface : Surface} {space : CoordSpace}

theorem sameButScratch_perform (h : SameButScratch c c') (hclip : c.clip.Banded) (command : Command) :
    SameButScratch (c.perform command) (c'.perform command) := by
  cases command with
  | draw d => exact sameButScratch_draw h hclip d
  | drawText x y glyphs => exact (sameEffect_drawText h x y glyphs).1
  | setClip | resetClip | setAttributes =>
    obtain ⟨scratch, rfl⟩ := h
    exact ⟨scratch, rfl⟩

/-- Canvases that differ in their buffers alone stay so, whatever is done with both. -/
theorem sameButScratch_foldl_perform (hc : Limited surface space c) (h : SameButScratch c c')
    (commands : List Command) :
    SameButScratch (commands.foldl perform c) (commands.foldl perform c') := by
  induction commands generalizing c c' with
  | nil => exact h
  | cons command commands ih =>
    exact ih (limited_perform hc command) (sameButScratch_perform h hc.banded command)

/-- What a text does is the same for all buffers. So it does not depend on what was drawn before, as far
as that left the same canvas, and nothing that is done afterwards brings out a difference. -/
theorem drawText_hides_scratch (x y : Int) (glyphs : List Glyph) :
    (∀ (c : Canvas) (scratch scratch' : Scratch),
      SameEffect ({ c with scratch := scratch }.drawText x y glyphs)
        ({ c with scratch := scratch' }.drawText x y glyphs)) ∧
    ∀ (surface surface' : Surface) (space space' : CoordSpace) (history history' : List Command),
      let c := history.foldl perform (create surface space)
      let c' := history'.foldl perform (create surface' space')
      SameButScratch c c' →
        SameEffect (c.drawText x y glyphs) (c'.drawText x y glyphs) ∧
          ∀ later : List Command, SameButScratch (later.foldl perform (c.drawText x y glyphs).1)
            (later.foldl perform (c'.drawText x y glyphs).1) := by
  refine ⟨fun c scratch scratch' => sameEffect_drawText ⟨scratch', rfl⟩ x y glyphs, ?_⟩
  intro surface surface' space space' history history' c c' h
  have heffect := sameEffect_drawText h x y glyphs
  have hc : Limited surface space (c.perform (.drawText x y glyphs)) :=
    limited_perform (limited_foldl_perform surface space history) _
  exact ⟨heffect, sameButScratch_foldl_perform hc heffect.1⟩

/-- Asks for the text attributes of a canvas. -/
def attributesOf (c : Canvas) (text : TextAttributes) : Command :=
  .setAttributes c.space.mapping c.rop c.penColor c.pen c.brush text

/-- Draws a text in another style and in the colour of the surface. -/
def invisibleText (c : Canvas) (style : FontStyle) (glyphs : List Glyph) : List Command :=
  [attributesOf c { c.text with
      font := c.text.font.map fun font => font.withStyle style, color := 0x80, mode := .transparent },
    .drawText 0 0 glyphs]

/-- A bar of the subpixel weight looks the same before and after mirrored and bold bars that do not show. -/
theorem drawText_hides_scratch_bar :
    let page := greyPage 4 1 .subpixel barGlyph
    let fresh := [attributesOf page page.text].foldl perform (create page.surface page.space)
    let used := (invisibleText page (.union .bold (.union .flipHorz .subpixel)) [0, 0] ++
      [attributesOf page page.text]).foldl perform (create page.surface page.space)
    used.scratch.bits.size = 1 ∧ used.scratch.here.size = 3 ∧ fresh.scratch = {} ∧
      SameButScratch fresh used ∧ SameEffect (fresh.drawText 0 0 [0]) (used.drawText 0 0 [0]) := by
  intro page fresh used
  have hshape : fresh.surface.SameShape used.surface :=
    ⟨by decide +kernel, by decide +kernel, by decide +kernel⟩
  have hsurface : used.surface = fresh.surface := Surface.eq_of_data hshape (by decide +kernel)
  have hkept : used = { fresh with surface := used.surface, scratch := used.scratch } := rfl
  rw [hsurface] at hkept
  have hsame : SameButScratch fresh used := ⟨used.scratch, hkept⟩
  exact ⟨by decide +kernel, by decide +kernel, rfl, hsame,
    ((drawText_hides_scratch 0 0 [0]).2 page.surface page.surface page.space page.space _ _ hsame).1⟩

end Rasterizer.Canvas
