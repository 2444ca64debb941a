import Rasterizer.Proofs.Text.Dots
import Rasterizer.Proofs.Text.Inked

/-! # Glyphs that leave nothing but ink

Without a background and without lines a glyph draws its picture and nothing else. Inside its ink
rectangle a visible pixel becomes what the picture makes of it (`TextPage.get?_drawGlyph_of_turns`), so
for an upright unweighted picture what its dot makes of it (`TextPage.get?_drawGlyph_dot`). Outside of the
rectangle nothing changes, if the ink fits (`TextPage.get?_drawGlyph_outside`). -/

namespace Rasterizer

namespace TextStyle

/-- Neither the background nor lines are drawn. -/
structure InkOnly (st : TextStyle) : Prop where
  transparent : st.transparent = true
  unlined : st.font.style.intersects (FontStyle.underline.union .struckOut) = false

/-- The dot of a glyph's picture, made ready for its place, at `(X, Y)`. -/
def dotOf (st : TextStyle) (g : Glyph) (ink : InkBox) (X Y : Int) : GlyphDot :=
  match st.image? g ink with
  | .ok (some image) => image.dotAt X Y
  | _ => .blank

theorem unweighted_of_image? {st : TextStyle} {g : Glyph} {ink : InkBox} {image : GlyphImage}
    (hweight : (st.font.sourceOf g).kind = .mono → st.inkWeight = .regular)
    (h : st.image? g ink = .ok (some image)) : image.Unweighted := by
  cases pictured_of_image? h with
  | bits data hkind hrows => exact ⟨hweight hkind, (packedRows_fit (by omega) hrows).1⟩
  | grey => exact Int.le_max_right ..
  | channels | colors => trivial

end TextStyle

namespace TextPage

variable {st : TextStyle} {g : Glyph}

theorem area_plan (h : st.InkOnly) (g : Glyph) (x y : Int) : (plan st g x y).area = none := by
  simp [plan, backArea?, h.transparent, h.unlined]

theorem lines_plan (h : st.InkOnly) (g : Glyph) (x y : Int) : (plan st g x y).lines = [] := by
  obtain ⟨hunderline, hstruckOut⟩ := FontStyle.intersects_union_eq_false.mp h.unlined
  simp [plan, LogicalFont.textLines, FontStyle.contains_eq_false hunderline,
    FontStyle.contains_eq_false hstruckOut]

/-- The window of a glyph holds its ink rectangle. -/
theorem contains_window_of_rc (h : st.InkOnly) {x y x' y' : Int}
    (hrc : (plan st g x y).rc.contains x' y' = true) : (plan st g x y).window.contains x' y' = true := by
  rw [Rect.contains_iff] at hrc
  simp only [GlyphPlan.window, area_plan h, Rect.contains_iff]
  omega

variable (page : TextPage) (hclip : page.clip.Banded) (h : st.InkOnly) {x y x' y' : Int}

include hclip h

/-- A visible pixel of the ink rectangle becomes what the picture of the glyph makes of it. -/
theorem get?_drawGlyph_of_turns (hg : g ≠ Glyph.invalid) (hin : page.clip.contains x' y' = true)
    (hbound : page.bound.contains x' y' = true) (hsurface : page.surface.inside x' y' = true)
    (hrc : (plan st g x (y + st.lineExtra)).rc.contains x' y' = true) {e : Pixel → Pixel}
    (hnone : (∀ image, st.image? g (plan st g x (y + st.lineExtra)).ink ≠ .ok (some image)) → ∀ v, e v = v)
    (hturns : ∀ image, st.image? g (plan st g x (y + st.lineExtra)).ink = .ok (some image) → ∀ back,
      Painter.Turns page.surface.format x' y'
        (fun p => (st.drawImage p back (plan st g x (y + st.lineExtra)).ink image).1) e) :
    (page.drawGlyph st g x y).1.surface.get? x' y' = (page.surface.get? x' y').map e := by
  rw [drawGlyph, if_neg hg]
  dsimp only
  obtain ⟨w, hw, hcontains⟩ := Rect.intersect?_of_contains (contains_window_of_rc h hrc) hbound
  have hvisible : Painter.visible page.surface page.clip w x' y' = true := by
    rw [Painter.visible, Rect.contains_normalized hcontains, hsurface, hin]
    rfl
  rw [hw, Option.bind_some]
  cases hopen : Painter.open? page.surface page.clip w with
  | none => rw [Painter.visible_of_none hclip hopen] at hvisible; cases hvisible
  | some p =>
    have hopened := Painter.opened_of_some hclip hopen
    have hp : p.SetsAt x' y' :=
      ⟨hopened.sound, congrArg Painter.Tool.rop hopened.tool, (hopened.reaches x' y').trans hvisible⟩
    obtain ⟨meet, hmeet, -⟩ := Rect.intersect?_of_contains hrc (Painter.Frame.reaches_iff.mp hp.reaches).1
    have hsome : ((plan st g x (y + st.lineExtra)).rc.intersect? p.window).isSome = true :=
      Option.isSome_iff_exists.mpr ⟨meet, hmeet⟩
    obtain ⟨loaded, -, hdraw⟩ := exists_drawInk_eq st g (plan st g x (y + st.lineExtra)).rc
      (plan st g x (y + st.lineExtra)).ink p page.scratch
    obtain ⟨v, hv⟩ := Painter.exists_get?_of_reaches hp.sound hp.reaches
    dsimp only
    rw [surface_drawPlanned (lines_plan h g x _) h.transparent, hdraw, if_pos hsome, ← hopened.surface, hv,
      Option.map_some]
    split
    next hfault => rw [hnone fun image himage => by rw [himage] at hfault; cases hfault]; exact hv
    next hblank => rw [hnone fun image himage => by rw [himage] at hblank; cases hblank]; exact hv
    next image himage => exact (hturns image himage loaded p hp (by rw [hopened.surface])).2.2 v hv

/-- A visible pixel of an upright unweighted glyph becomes what the dot of the picture makes of it. -/
theorem get?_drawGlyph_dot (hg : g ≠ Glyph.invalid)
    (hupright : leanWidth st.font (st.font.sourceOf g) = 0)
    (hweight : (st.font.sourceOf g).kind = .mono → st.inkWeight = .regular)
    (hin : page.clip.contains x' y' = true) (hbound : page.bound.contains x' y' = true)
    (hsurface : page.surface.inside x' y' = true)
    (hrc : (plan st g x (y + st.lineExtra)).rc.contains x' y' = true) :
    (page.drawGlyph st g x y).1.surface.get? x' y' =
      let ink := (plan st g x (y + st.lineExtra)).ink
      (page.surface.get? x' y').map
        ((st.dotOf g ink (x' - ink.origin.x) (y' - ink.origin.y)).on page.surface.format st ·) := by
  have hslant : (plan st g x (y + st.lineExtra)).ink.slant.leans = false := by simp [plan, hupright]
  refine get?_drawGlyph_of_turns page hclip h hg hin hbound hsurface hrc (fun hnone v => ?_)
    fun image himage back => ?_
  · rw [TextStyle.dotOf]
    split
    next image himage => exact absurd himage (hnone image)
    next => rfl
  · rw [TextStyle.dotOf, himage]
    exact st.turns_drawImage _ x' y' back hslant (TextStyle.unweighted_of_image? hweight himage)

/-- Outside of its ink rectangle a glyph that fits changes nothing. -/
theorem get?_drawGlyph_outside (hfits : InkFits st g)
    (hrc : (plan st g x (y + st.lineExtra)).rc.contains x' y' = false) :
    (page.drawGlyph st g x y).1.surface.get? x' y' = page.surface.get? x' y' := by
  have hdrawn := drawn_drawGlyph page st g x y
  generalize page.drawGlyph st g x y = result at hdrawn ⊢
  cases hdrawn with
  | invalid | hidden => rfl
  | @seen hg rc p hwindow hopen =>
    have hopened := Painter.opened_of_some hclip hopen
    obtain ⟨loaded, -, hdraw⟩ := exists_drawInk_eq st g (plan st g x (y + st.lineExtra)).rc
      (plan st g x (y + st.lineExtra)).ink p page.scratch
    dsimp only
    rw [surface_drawPlanned (lines_plan h g x _) h.transparent, hdraw, ← hopened.surface]
    split
    · split
      next => rfl
      next => rfl
      next image himage => exact hfits x _ image himage p hopened.sound loaded x' y' hrc
    · rfl

end TextPage

end Rasterizer
