import Rasterizer.Canvas.Text
import Rasterizer.Font.Listed
import Rasterizer.Proofs.Canvas.Drawing
import Rasterizer.Proofs.Text.Confined

/-! # Canvases in use

After any sequence of calls the clip region lies in the device rectangle and on the surface
(`limited_foldl_perform`), and a text then leaves each byte outside of it as it was. -/

namespace Rasterizer.Canvas

/-- A call that sets the clip or attributes, or draws. -/
inductive Command where
  | setClip (region : Region)
  | resetClip
  | setAttributes (mapping : Mapping) (rop : RasterOp) (penColor : Pixel) (pen : Pen) (brush : Brush)
    (text : TextAttributes)
  | draw (d : Drawing)
  | drawText (x y : Int) (glyphs : List Glyph)

def perform (c : Canvas) : Command → Canvas
  | .setClip region => c.setClip region
  | .resetClip => c.resetClip
  | .setAttributes mapping rop penColor pen brush text =>
    { c.withMapping mapping with rop := rop, penColor := penColor, pen := pen, brush := brush, text := text }
  | .draw d => c.draw d
  | .drawText x y glyphs => (c.drawText x y glyphs).1

/-- The clip region of a canvas for the surface and the device rectangle. -/
structure Limited (surface : Surface) (space : CoordSpace) (c : Canvas) : Prop where
  device : c.space.device = space.device
  shape : surface.SameShape c.surface
  banded : c.clip.Banded
  within : ∀ x y, c.clip.contains x y = true →
    space.device.contains x y = true ∧ surface.rect.contains x y = true

variable {surface : Surface} {space : CoordSpace} {c c' : Canvas}

theorem Limited.within_wholeClip (h : Limited surface space c) {x y : Int} :
    (wholeClip c.surface c.space).contains x y = true ↔
      space.device.contains x y = true ∧ surface.rect.contains x y = true := by
  rw [contains_wholeClip, h.device, h.shape.rect, Bool.and_eq_true]

theorem limited_create (surface : Surface) (space : CoordSpace) :
    Limited surface space (create surface space) where
  device := rfl
  shape := .refl surface
  banded := banded_wholeClip surface space
  within x y hxy := by
    rwa [create, contains_wholeClip, Bool.and_eq_true] at hxy

/-- A call that keeps the clip keeps the limits. -/
theorem Limited.congr (h : Limited surface space c) (hdevice : c'.space.device = c.space.device)
    (hshape : c.surface.SameShape c'.surface) (hclip : c'.clip = c.clip) : Limited surface space c' where
  device := hdevice.trans h.device
  shape := h.shape.trans hshape
  banded := hclip ▸ h.banded
  within x y hxy := h.within x y (hclip ▸ hxy)

/-- A text changes the surface alone, and that inside the clip. -/
theorem kept_drawText (hclip : c.clip.Banded) (x y : Int) (glyphs : List Glyph) :
    (c.drawText x y glyphs).1.clip = c.clip ∧ (c.drawText x y glyphs).1.space = c.space ∧
      c.surface.SameShape (c.drawText x y glyphs).1.surface ∧
      ∀ x' y', c.clip.contains x' y' = false →
        (c.drawText x y glyphs).1.surface.get? x' y' = c.surface.get? x' y' := by
  rw [drawText]
  cases c.text.font with
  | none => exact ⟨rfl, rfl, .refl _, fun _ _ _ => rfl⟩
  | some font =>
    cases visibleRect? c.surface c.space with
    | none => exact ⟨rfl, rfl, .refl _, fun _ _ _ => rfl⟩
    | some bound =>
      dsimp only
      generalize font.baselinePoint c.text.align.vert (c.toScreen x y) = o
      have hkept : TextPage.Kept ⟨c.surface, c.clip, bound, c.scratch⟩ _ :=
        TextPage.kept_drawText hclip (c.text.styleOf font) glyphs o.x o.y
      exact ⟨rfl, rfl, hkept.shape, hkept.get?⟩

theorem limited_perform (h : Limited surface space c) (command : Command) :
    Limited surface space (c.perform command) := by
  cases command with
  | setClip region =>
    exact ⟨h.device, h.shape, banded_setClip c region,
      fun x y hxy => h.within_wholeClip.mp (contains_wholeClip_of_setClip hxy)⟩
  | resetClip =>
    exact ⟨h.device, h.shape, banded_wholeClip c.surface c.space, fun x y => h.within_wholeClip.mp⟩
  | setAttributes => exact h.congr rfl (.refl _) rfl
  | draw d =>
    obtain ⟨pos, g, hmaps⟩ := (mapped_draw d).maps h.banded
    exact h.congr (by rw [perform, hmaps.kept]) hmaps.shape hmaps.clip
  | drawText x y glyphs =>
    obtain ⟨hclip, hspace, hshape, -⟩ := kept_drawText h.banded x y glyphs
    exact h.congr (congrArg CoordSpace.device hspace) hshape hclip

theorem limited_foldl_perform (surface : Surface) (space : CoordSpace) (commands : List Command) :
    Limited surface space (commands.foldl perform (create surface space)) := by
  suffices h : ∀ c, Limited surface space c → Limited surface space (commands.foldl perform c) from
    h _ (limited_create surface space)
  induction commands with
  | nil => exact fun c hc => hc
  | cons command commands ih => exact fun c hc => ih _ (limited_perform hc command)

/-- Whatever was done before, a text changes no byte of a pixel outside the clip region, and that
region lies in the device rectangle and on the surface. -/
theorem drawText_inside_clip (surface : Surface) (space : CoordSpace) (commands : List Command)
    (x y : Int) (glyphs : List Glyph) :
    let c := commands.foldl perform (create surface space)
    (∀ x' y', c.clip.contains x' y' = true →
      space.device.contains x' y' = true ∧ c.surface.rect.contains x' y' = true) ∧
      ∀ i, c.clip.contains (c.surface.pixelOfByte i).x (c.surface.pixelOfByte i).y = false →
        (c.drawText x y glyphs).1.surface.data[i]? = c.surface.data[i]? := by
  intro c
  have hc : Limited surface space c := limited_foldl_perform surface space commands
  obtain ⟨-, -, hshape, hget⟩ := kept_drawText hc.banded x y glyphs
  refine ⟨fun x' y' h => ?_, fun i hi => Surface.getElem?_data_eq hshape (hget _ _ hi)⟩
  rw [hc.shape.rect]
  exact hc.within x' y' h

/-- A grey canvas with a font of one glyph. -/
def greyPage (width height : Nat) (style : FontStyle) (g : ListedGlyph) : Canvas :=
  let surface : Surface := ⟨width, height, .rgb888, Array.replicate (width * height * 3) 0, by
    rw [Array.size_replicate]; rfl⟩
  let source : GlyphSource :=
    .ofList "page" .regular .mono g.box.h (-g.box.y) (g.box.h + g.box.y) 1 [g]
  (ofSurface (surface.fill 0x80)).setFont ((LogicalFont.ofSource source).withStyle style)

/-- A glyph of two columns with ink in the first one. -/
def barGlyph : ListedGlyph :=
  { glyph := 0, length := 2, box := ⟨0, -1, 2, 1⟩, bitmap := some ⟨#[0x80], 1, 1⟩ }

/-- A bar is drawn from the pen on, left of the clip. -/
theorem drawText_inside_clip_bar :
    let page := greyPage 2 1 .regular barGlyph
    let commands : List Command :=
      [.setAttributes page.space.mapping .set 0 page.pen page.brush page.text, .setClip (.ofRect ⟨1, 0, 2, 1⟩)]
    let c := commands.foldl perform (create page.surface page.space)
    (page.space.device.contains 1 0 = true ∧ c.surface.rect.contains 1 0 = true) ∧
      (c.drawText 0 0 [0]).1.surface.data[0]? = c.surface.data[0]? := by
  intro page commands c
  obtain ⟨hin, hout⟩ := drawText_inside_clip page.surface page.space commands 0 0 [0]
  exact ⟨hin 1 0 (by decide), hout 0 (by decide)⟩

end Rasterizer.Canvas
