import Rasterizer.Proofs.Canvas.Commands
import Rasterizer.Proofs.Text.Agreement

/-! # Clipping masks text, up to the subpixel filter

The filter of the subpixel weight sees the pixels around its ink whether or not they may be touched.
So a clip that keeps a background or an earlier glyph away from them shows in the ink beside its edge.
And ink that leaves the rectangle it is to fill is not drawn under a clip that shows nothing else of
its glyph (`drawText_differs`). Apart from that, a text leaves in a clip what it leaves there under a
larger one (`drawText_under_clips`). -/

namespace Rasterizer.Canvas

/-- How far from where two clips differ the pictures of a text may differ. -/
def textReach (c : Canvas) (glyphs : List Glyph) : Nat :=
  match c.text.font with
  | some font => TextPage.textReach (c.text.styleOf font) glyphs
  | none => 0

/-- The ink of each glyph stays in the rectangle that it is to fill. -/
def InkFits (c : Canvas) (glyphs : List Glyph) : Prop :=
  ∀ font ∈ c.text.font, ∀ g ∈ glyphs, TextPage.InkFits (c.text.styleOf font) g

/-- A glyph with ink below the baseline, apart from the pen. -/
def hookGlyph : ListedGlyph :=
  { glyph := 0, length := 3, box := ⟨1, -1, 1, 3⟩, bitmap := some ⟨#[0x80, 0x80, 0x80], 1, 1⟩ }

/-- The ink of a bar shows whether its background may be drawn beside it. A slanted hook ends left of
the rectangle that its ink is to fill. -/
theorem drawText_differs :
    (let small := (greyPage 2 1 .subpixel barGlyph).setClip (.ofRect ⟨0, 0, 1, 1⟩)
      let large := (greyPage 2 1 .subpixel barGlyph).setClip (.ofRect ⟨0, 0, 2, 1⟩)
      (∀ x y, small.clip.contains x y = true → large.clip.contains x y = true) ∧
        small.clip.contains 0 0 = true ∧
        (small.drawText 0 0 [0]).1.surface.get? 0 0 = some 0x000014 ∧
        (large.drawText 0 0 [0]).1.surface.get? 0 0 = some 0x272727) ∧
    (let small := (greyPage 2 3 .italic hookGlyph).setClip (.ofRect ⟨0, 0, 1, 3⟩)
      let large := (greyPage 2 3 .italic hookGlyph).setClip (.ofRect ⟨0, 0, 2, 3⟩)
      (∀ x y, small.clip.contains x y = true → large.clip.contains x y = true) ∧
        small.clip.contains 0 2 = true ∧
        (small.drawText 0 0 [0]).1.surface.get? 0 2 = some 0xFFFFFF ∧
        (large.drawText 0 0 [0]).1.surface.get? 0 2 = some 0) := by
  refine ⟨⟨fun x y => contains_setClip_mono _ fun x y => ?_, by decide, by decide, by decide⟩,
    ⟨fun x y => contains_setClip_mono _ fun x y => ?_, by decide, by decide, by decide⟩⟩
  · simp only [Region.anyContains_ofRect, Rect.normalized, Rect.contains_iff]
    omega
  · simp only [Region.anyContains_ofRect, Rect.normalized, Rect.contains_iff]
    omega

/-- The glyphs, slanted or not, keep to their boxes. -/
def KeepBoxes (c : Canvas) (glyphs : List Glyph) : Prop :=
  ∀ font ∈ c.text.font, ∀ g ∈ glyphs,
    TextPage.Stands (c.text.styleOf font) g ∧ TextPage.PixelsFit (c.text.styleOf font) g

/-- A pixel of a clip, so far from all pixels that a larger clip adds, is left by a text as under the
larger clip, and the text ends if it does there. This asks that the ink of each glyph stays in its
rectangle, which it does if the glyphs keep to their boxes. -/
theorem drawText_under_clips (c : Canvas) (glyphs : List Glyph) :
    (c.KeepBoxes glyphs → c.InkFits glyphs) ∧
    ∀ {region region' : Region},
      (∀ x y, (c.setClip region).clip.contains x y = true → (c.setClip region').clip.contains x y = true) →
      c.InkFits glyphs →
      ∀ {x y : Int} {a : Advance}, ((c.setClip region').drawText x y glyphs).2 = .ok a →
        ((c.setClip region).drawText x y glyphs).2 = .ok a ∧
          ∀ x' y', (c.setClip region).clip.contains x' y' = true →
            inner (c.textReach glyphs) (fun x y => (c.setClip region').clip.contains x y = true →
              (c.setClip region).clip.contains x y = true) x' y' →
            ((c.setClip region).drawText x y glyphs).1.surface.get? x' y' =
              ((c.setClip region').drawText x y glyphs).1.surface.get? x' y' := by
  refine ⟨fun hkeep font hfont g hg =>
    TextPage.inkFits_of_stands (hkeep font hfont g hg).1 (hkeep font hfont g hg).2, ?_⟩
  intro region region' hinside hfits x y a hok
  simp only [drawText, setClip_text, setClip_surface, setClip_space, setClip_toScreen,
    setClip_scratch] at hok ⊢
  rw [textReach]
  cases hfont : c.text.font with
  | none =>
    simp only [hfont] at hok ⊢
    exact ⟨hok, fun _ _ _ _ => rfl⟩
  | some font =>
    cases hbound : visibleRect? c.surface c.space with
    | none =>
      simp only [hfont, hbound] at hok ⊢
      exact ⟨hok, fun _ _ _ _ => rfl⟩
    | some bound =>
      simp only [hfont, hbound] at hok ⊢
      generalize font.baselinePoint c.text.align.vert (c.toScreen x y) = o at hok ⊢
      have halike : TextPage.Alike
          (fun x y => (c.setClip region').clip.contains x y = (c.setClip region).clip.contains x y)
          ⟨c.surface, (c.setClip region).clip, bound, c.scratch⟩
          ⟨c.surface, (c.setClip region').clip, bound, c.scratch⟩ :=
        ⟨banded_setClip c region, banded_setClip c region', rfl, .refl c.surface, hinside,
          fun _ _ h => h, fun _ _ _ => rfl⟩
      obtain ⟨hok, hdrawn⟩ := TextPage.alike_drawText halike rfl (hfits font hfont) hok
      refine ⟨hok, fun x' y' _ hinner => (hdrawn.agree x' y' fun x'' y'' h₁ h₂ h₃ h₄ => ?_).symm⟩
      exact Bool.eq_iff_iff.mpr ⟨hinner x'' y'' h₁ h₂ h₃ h₄, hinside x'' y''⟩

/-- Two columns from the edge of the smaller clip a bar looks the same under both. -/
theorem drawText_under_clips_bar :
    let c := greyPage 4 1 .subpixel barGlyph
    let small := c.setClip (.ofRect ⟨0, 0, 3, 1⟩)
    let large := c.setClip (.ofRect ⟨0, 0, 4, 1⟩)
    (small.drawText 0 0 [0]).2 = .ok ⟨2, 2, 0⟩ ∧
      (small.drawText 0 0 [0]).1.surface.get? 1 0 = (large.drawText 0 0 [0]).1.surface.get? 1 0 := by
  intro c small large
  have hclips : ∀ x y, small.clip.contains x y = true → large.clip.contains x y = true :=
    fun x y => contains_setClip_mono c fun x y => by
      simp only [Region.anyContains_ofRect, Rect.normalized, Rect.contains_iff]
      omega
  have hkeep : c.KeepBoxes [0] := fun font hfont g hg => by
    cases hfont
    cases List.mem_singleton.mp hg
    exact ⟨.inl (by decide), by rintro px ⟨⟩⟩
  have hmasked := drawText_under_clips c [0]
  obtain ⟨hok, hagree⟩ := hmasked.2 hclips (hmasked.1 hkeep)
    (show (large.drawText 0 0 [0]).2 = .ok ⟨2, 2, 0⟩ by decide)
  refine ⟨hok, hagree 1 0 (by decide) fun x y _ hx _ _ hlarge => ?_⟩
  have horigin : c.space.deviceToScreen ⟨0, 0⟩ = ⟨0, 0⟩ := by decide
  rw [show c.textReach [0] = 1 by decide] at hx
  rw [contains_setClip, Bool.and_eq_true, Region.anyContains_shift, Region.anyContains_ofRect] at hlarge ⊢
  refine ⟨?_, hlarge.2⟩
  have := hlarge.1
  simp only [horigin, Rect.normalized, Rect.contains_iff] at this ⊢
  omega

end Rasterizer.Canvas
