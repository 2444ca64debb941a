import Rasterizer.Proofs.Canvas.Glyphs
import Rasterizer.Proofs.Text.TableDots

/-! # The pixels of a glyph on a canvas

An upright glyph that leaves nothing but ink changes the visible pixels of its ink rectangle by the dots of
its picture (`get?_drawGlyph_dot`), and no other ones if it fits (`get?_drawGlyph_unseen`). In a plain style
the rectangle is its box (`get?_drawGlyph_box`). -/

namespace Rasterizer.Canvas

/-- What is planned for a glyph that is drawn at a logical point. -/
def glyphPlan (c : Canvas) (font : LogicalFont) (x y : Int) (g : Glyph) : TextPage.GlyphPlan :=
  let pen := font.baselinePoint c.text.align.vert (c.toScreen x y)
  TextPage.plan (c.text.styleOf font) g pen.x (pen.y + c.text.lineExtra)

/-- The place of a glyph that is drawn at a logical point. -/
def glyphBox (c : Canvas) (font : LogicalFont) (x y : Int) (g : Glyph) : GlyphBox :=
  let pen := font.baselinePoint c.text.align.vert (c.toScreen x y)
  ((c.text.styleOf font).place g pen.x (pen.y + c.text.lineExtra)).box

variable {surface : Surface} {space : CoordSpace} {c : Canvas} {font : LogicalFont} {g : Glyph} {x' y' : Int}

theorem surface_drawGlyph_invalid (c : Canvas) (x y : Int) :
    (c.drawGlyph x y Glyph.invalid).1.surface = c.surface := by
  cases hfont : c.text.font with
  | none => simp only [drawGlyph, drawText, hfont]
  | some font =>
    cases hbound : visibleRect? c.surface c.space with
    | none => simp only [drawGlyph, drawText, hfont, hbound]
    | some bound => rw [surface_drawGlyph c x y _ hfont hbound, TextPage.drawGlyph, if_pos rfl]

/-- A pixel of the clip lies in the device rectangle and on the surface. -/
theorem Limited.exists_bound (hc : Limited surface space c) (hin : c.clip.contains x' y' = true) :
    c.surface.inside x' y' = true ∧
      ∃ bound, visibleRect? c.surface c.space = some bound ∧ bound.contains x' y' = true := by
  obtain ⟨hdevice, hrect⟩ := hc.within x' y' hin
  rw [← hc.device] at hdevice
  rw [← hc.shape.rect] at hrect
  refine ⟨(Surface.rect_contains ..).symm.trans hrect, ?_⟩
  exact Rect.intersect?_of_contains hdevice hrect

variable (hc : Limited surface space c) (hfont : c.text.font = some font) (x y : Int)
  (honly : (c.text.styleOf font).InkOnly)

include hc hfont honly

/-- A visible pixel of an upright unweighted glyph becomes what the dot of its picture makes of it. -/
theorem get?_drawGlyph_dot (hg : g ≠ Glyph.invalid) (hupright : TextPage.leanWidth font (font.sourceOf g) = 0)
    (hweight : (font.sourceOf g).kind = .mono → (c.text.styleOf font).inkWeight = .regular)
    (hin : c.clip.contains x' y' = true) (hrc : (c.glyphPlan font x y g).rc.contains x' y' = true) :
    let st := c.text.styleOf font
    let ink := (c.glyphPlan font x y g).ink
    (c.drawGlyph x y g).1.surface.get? x' y' = (c.surface.get? x' y').map
      ((st.dotOf g ink (x' - ink.origin.x) (y' - ink.origin.y)).on c.surface.format st ·) := by
  obtain ⟨hsurface, bound, hbound, hin'⟩ := hc.exists_bound hin
  rw [surface_drawGlyph c x y g hfont hbound]
  exact TextPage.get?_drawGlyph_dot ⟨c.surface, c.clip, bound, c.scratch⟩ hc.banded honly hg hupright hweight
    hin hin' hsurface hrc

/-- No pixel changes that is not visible, or lies outside of the ink rectangle of a glyph that fits. -/
theorem get?_drawGlyph_unseen (hfits : TextPage.InkFits (c.text.styleOf font) g)
    (hout : ¬(c.clip.contains x' y' = true ∧ (c.glyphPlan font x y g).rc.contains x' y' = true)) :
    (c.drawGlyph x y g).1.surface.get? x' y' = c.surface.get? x' y' := by
  by_cases hin : c.clip.contains x' y' = true
  · obtain ⟨-, bound, hbound, -⟩ := hc.exists_bound hin
    rw [surface_drawGlyph c x y g hfont hbound]
    exact TextPage.get?_drawGlyph_outside ⟨c.surface, c.clip, bound, c.scratch⟩ hc.banded honly hfits
      (Bool.eq_false_iff.mpr fun hrc => hout ⟨hin, hrc⟩)
  · exact (kept_drawText hc.banded x y [g]).2.2.2 x' y' (by simpa using hin)

omit hc hfont honly

theorem inkOnly_styleOf (hplain : font.style.Plain) (hmode : c.text.mode = .transparent) :
    (c.text.styleOf font).InkOnly where
  transparent := by
    change (c.text.mode == .transparent) = true
    rw [hmode]
    rfl
  unlined := hplain.intersects.2.2

section Plain

variable (hplain : font.style.Plain) (hmode : c.text.mode = .transparent)
  (hupright : TextPage.leanWidth font (font.sourceOf g) = 0)

include hplain hmode hupright

/-- The ink rectangle of an upright plain glyph is its box. -/
theorem contains_rc_glyphPlan : (c.glyphPlan font x y g).rc.contains x' y' = true ↔
    (c.glyphBox font x y g).x ≤ x' ∧ x' < (c.glyphBox font x y g).x + (c.glyphBox font x y g).w ∧
      (c.glyphBox font x y g).y ≤ y' ∧ y' < (c.glyphBox font x y g).y + (c.glyphBox font x y g).h := by
  rw [show (c.glyphPlan font x y g).rc = _ from
    (TextPage.inkAlone_plan hplain (inkOnly_styleOf hplain hmode).transparent g _ _).rc, Rect.contains_iff]
  have hlean : TextPage.leanWidth (c.text.styleOf font).font ((c.text.styleOf font).font.sourceOf g) = 0 :=
    hupright
  simp only [Rect.ofSize, hlean, Int.add_zero]
  exact Iff.rfl

include hc hfont

/-- A visible pixel of the box of an upright plain glyph becomes what the dot of the picture makes of it. -/
theorem get?_drawGlyph_box (hg : g ≠ Glyph.invalid) {X Y : Int}
    (hX : 0 ≤ X ∧ X < (c.glyphBox font x y g).w) (hY : 0 ≤ Y ∧ Y < (c.glyphBox font x y g).h)
    (hin : c.clip.contains ((c.glyphBox font x y g).x + X) ((c.glyphBox font x y g).y + Y) = true) :
    (c.drawGlyph x y g).1.surface.get? ((c.glyphBox font x y g).x + X) ((c.glyphBox font x y g).y + Y) =
      (c.surface.get? ((c.glyphBox font x y g).x + X) ((c.glyphBox font x y g).y + Y)).map
        (((c.text.styleOf font).dotOf g (c.glyphPlan font x y g).ink X Y).on c.surface.format
          (c.text.styleOf font) ·) := by
  have honly := inkOnly_styleOf hplain hmode
  have horigin : (c.glyphPlan font x y g).ink.origin = ⟨(c.glyphBox font x y g).x, (c.glyphBox font x y g).y⟩ :=
    (TextPage.inkAlone_plan hplain honly.transparent g _ _).origin
  rw [get?_drawGlyph_dot hc hfont x y honly hg hupright (fun _ => TextPage.inkWeight_of_plain hplain) hin
    ((contains_rc_glyphPlan x y hplain hmode hupright).mpr (by omega))]
  simp only [horigin, add_sub_cancel_left]

end Plain

/-- The commands that ask for text in a font without a background. -/
def inkCommands (surface : Surface) (font : LogicalFont) : List Command :=
  let page := ofSurface surface
  [.setAttributes page.space.mapping .set 0 page.pen page.brush
    (({ page.text with font := some font, mode := .transparent } : TextAttributes).refresh surface.format)]

/-- A canvas that asks for text in a font without a background. -/
def inkPage (surface : Surface) (font : LogicalFont) : Canvas :=
  (inkCommands surface font).foldl perform (create surface (.screen surface.rect))

/-- A grey surface of two rows and two columns. -/
def greySquare : Surface := (greyPage 2 2 .regular barGlyph).surface

end Rasterizer.Canvas
