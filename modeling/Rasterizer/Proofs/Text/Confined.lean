import Rasterizer.Proofs.Painter.Masked
import Rasterizer.Proofs.Text.Loaded

/-! # Text stays inside the clip

Whatever the pictures of a font hold and wherever its metrics put them, a text changes no pixel
outside the clip region, also when a picture is at fault and the text ends early
(`TextPage.kept_drawText`). -/

namespace Rasterizer

namespace Painter

/-- Only pixels that may be touched are changed. -/
structure Confined (p q : Painter) : Prop where
  frame : q.frame = p.frame
  get? : ∀ x y, p.frame.reaches x y = false → q.surface.get? x y = p.surface.get? x y

variable {p q r : Painter}

theorem Confined.refl (p : Painter) : Confined p p := ⟨rfl, fun _ _ _ => rfl⟩

theorem Confined.trans (hpq : Confined p q) (hqr : Confined q r) : Confined p r where
  frame := hqr.frame.trans hpq.frame
  get? x y hxy := by rw [hqr.get? x y (hpq.frame ▸ hxy), hpq.get? x y hxy]

theorem Masked.confined {f : Painter → Painter} (hf : Masked f) (hp : p.frame.Sound) :
    Confined p (f p) := by
  obtain ⟨g, _, hg⟩ := hf p.tool p.surface.format
  have hmaps := (hg p hp rfl rfl).1
  exact ⟨hmaps.frame, fun _ _ => hmaps.get?_of_not_reaches⟩

/-! ## Pictures -/

/-- The text colour mixed into a pixel by three coverages. -/
def mixed (fmt : PixelFormat) (text : Color) (r g b : UInt8) (old : Pixel) : Pixel :=
  fmt.mapRgb (CoveragePicture.mixCovered text.r (fmt.getRgb old).r r)
    (CoveragePicture.mixCovered text.g (fmt.getRgb old).g g)
    (CoveragePicture.mixCovered text.b (fmt.getRgb old).b b)

theorem draws_drawMixed (hp : p.frame.Sound) (x y : Int) (text : Color) (r g b : UInt8) :
    Draws (.dot x y fun old => if mixed p.surface.format text r g b old = old then none
      else some (mixed p.surface.format text r g b old)) p
      (CoveragePicture.drawMixed p x y text r g b) := by
  rw [CoveragePicture.drawMixed]
  cases hold : p.surface.get? x y with
  | none =>
    refine (draws_blank p).congr_of_get? fun x' y' v _ hv => ?_
    rw [Layer.blank, Layer.dot, if_neg]
    rintro ⟨rfl, rfl⟩
    rw [hold] at hv
    cases hv
  | some old =>
    change Draws _ p (if mixed p.surface.format text r g b old = old then p else
      p.pixelOf x y (mixed p.surface.format text r g b old))
    by_cases hsame : mixed p.surface.format text r g b old = old
    · rw [if_pos hsame]
      refine (draws_blank p).congr_of_get? fun x' y' v _ hv => ?_
      rw [Layer.blank, Layer.dot]
      split
      next hxy =>
        rw [hxy.1, hxy.2, hold, Option.some.injEq] at hv
        rw [← hv, if_pos hsame]
      next => rfl
    · rw [if_neg hsame]
      refine (draws_pixelOf hp x y _).congr_of_get? fun x' y' v _ hv => ?_
      simp only [Layer.dot]
      split
      next hxy =>
        rw [hxy.1, hxy.2, hold, Option.some.injEq] at hv
        rw [← hv, if_neg hsame]
      next => rfl

theorem masked_drawMixed (x y : Int) (text : Color) (r g b : UInt8) :
    Masked fun p => CoveragePicture.drawMixed p x y text r g b :=
  masked_of_draws (fun _ fmt => .dot x y fun old => if mixed fmt text r g b old = old then none
    else some (mixed fmt text r g b old)) fun _ hp => draws_drawMixed hp x y text r g b

theorem masked_drawChannelRow (c : CoveragePicture) (origin : Point) (text : Color) (row : Int) :
    Masked fun p => c.drawChannelRow p origin text row :=
  .foldl (fun x : Nat => masked_drawMixed (origin.x + (x : Int)) (origin.y + row) text _ _ _) _

theorem masked_drawChannels (c : CoveragePicture) (origin : Point) (text : Color) :
    Masked fun p => c.drawChannels p origin text :=
  .foldl (fun row => masked_drawChannelRow c origin text row) _

/-- The subpixel weight looks beyond the clip but draws inside. -/
theorem confined_subpixelRow (b : BitPicture) (origin : Point) (slant : Slant) (text outside : Color)
    (i : Int) (hp : p.frame.Sound) (back : Scratch) :
    Confined p (SubpixelWeight.drawRow b origin slant text outside (p, back) i).1 :=
  (masked_markAll _).confined hp

theorem confined_subpixel (b : BitPicture) (origin : Point) (slant : Slant) (text outside : Color)
    (hp : p.frame.Sound) (back : Scratch) :
    Confined p (SubpixelWeight.draw b origin slant text outside p back).1 := by
  suffices h : ∀ (is : List Int) (st : Painter × Scratch), st.1.frame.Sound →
      Confined st.1 (is.foldl (SubpixelWeight.drawRow b origin slant text outside) st).1 by
    rw [SubpixelWeight.draw]
    split
    · exact h b.rowNumbers (p, back) hp
    · exact .refl p
  intro is
  induction is with
  | nil => exact fun st _ => .refl st.1
  | cons i is ih =>
    intro st hst
    have hrow := confined_subpixelRow b origin slant text outside i hst st.2
    exact hrow.trans (ih _ (hrow.frame ▸ hst))

theorem confined_drawImage (st : TextStyle) (hp : p.frame.Sound) (back : Scratch) (ink : InkBox)
    (image : GlyphImage) : Confined p (st.drawImage p back ink image).1 := by
  cases image with
  | bits b weight scale =>
    cases weight with
    | regular => exact (masked_markAll _).confined hp
    | book =>
      rw [TextStyle.drawImage]
      cases st.ramps.book with
      | none => exact .refl p
      | some ramp => exact (masked_markAll _).confined hp
    | light => exact (masked_markAll _).confined hp
    | subpixel => exact confined_subpixel b _ _ _ _ hp back
  | grey c scale => exact (masked_markAll _).confined hp
  | channels c => exact (masked_drawChannels c ink.origin _).confined hp
  | colors px =>
    generalize hms : px.marks p.surface.format ink.origin = ms
    rw [TextStyle.drawImage, hms]
    exact (masked_markAll ms).confined hp

end Painter

namespace TextPage

open Painter (Confined)

theorem masked_drawGround (st : TextStyle) (area : Option BackArea) :
    Painter.Masked fun p => drawGround st area p := by
  simp only [drawGround]
  cases st.transparent with
  | true => exact Painter.masked_id
  | false =>
    cases area with
    | none => exact Painter.masked_id
    | some a => exact (Painter.masked_withInk st.background).comp (Painter.masked_fill a)

theorem masked_drawLines (st : TextStyle) (lines : List (Point × Point)) :
    Painter.Masked fun p => drawLines st lines p :=
  (Painter.masked_withInk st.textColor).comp
    (.foldl (fun l : Point × Point => Painter.masked_line l.1 l.2) lines)

theorem confined_drawInk (st : TextStyle) (g : Glyph) (rc : Rect) (ink : InkBox) {p : Painter}
    (hp : p.frame.Sound) (back : Scratch) : Confined p (drawInk st g rc ink p back).1.1 := by
  obtain ⟨loaded, -, hdraw⟩ := exists_drawInk_eq st g rc ink p back
  rw [hdraw]
  split
  case isFalse => exact .refl p
  case isTrue =>
    cases st.image? g ink with
    | error e => exact .refl p
    | ok image =>
      cases image with
      | none => exact .refl p
      | some image => exact Painter.confined_drawImage st hp loaded ink image

theorem confined_drawPlanned (st : TextStyle) (g : Glyph) (pl : GlyphPlan) {p : Painter}
    (hp : p.frame.Sound) (back : Scratch) : Confined p (drawPlanned st g pl p back).1.1 := by
  have hground := (masked_drawGround st pl.area).confined hp
  have hink := confined_drawInk st g pl.rc pl.ink (hground.frame ▸ hp) back
  rw [drawPlanned]
  rcases hdraw : drawInk st g pl.rc pl.ink (drawGround st pl.area p) back with ⟨⟨q, back'⟩, e | _⟩
  · rw [hdraw] at hink
    exact hground.trans hink
  · rw [hdraw] at hink
    have hq : q.frame.Sound := hink.frame ▸ hground.frame ▸ hp
    exact (hground.trans hink).trans ((masked_drawLines st pl.lines).confined hq)

/-- A page keeps its limits, and outside the clip region its pixels. -/
structure Kept (page page' : TextPage) : Prop where
  clip : page'.clip = page.clip
  bound : page'.bound = page.bound
  shape : page.surface.SameShape page'.surface
  get? : ∀ x y, page.clip.contains x y = false → page'.surface.get? x y = page.surface.get? x y

variable {page page' page'' : TextPage}

theorem Kept.refl (page : TextPage) : Kept page page := ⟨rfl, rfl, .refl _, fun _ _ _ => rfl⟩

theorem Kept.trans (h : Kept page page') (h' : Kept page' page'') : Kept page page'' where
  clip := h'.clip.trans h.clip
  bound := h'.bound.trans h.bound
  shape := h.shape.trans h'.shape
  get? x y hxy := by rw [h'.get? x y (h.clip ▸ hxy), h.get? x y hxy]

/-- What is drawn on an opened page is kept inside the clip. -/
theorem kept_of_confined (hclip : page.clip.Banded) {rc : Rect} {p q : Painter}
    (hopen : Painter.open? page.surface page.clip rc = some p) (hpq : Confined p q) (back : Scratch) :
    Kept page { page with surface := q.surface, scratch := back } := by
  have hopened := Painter.opened_of_some hclip hopen
  refine ⟨rfl, rfl, ?_, fun x y hxy => ?_⟩
  · rw [← hopened.surface]
    exact Painter.sameShape_of_frame hpq.frame
  · rw [← hopened.surface]
    refine hpq.get? x y ?_
    rw [hopened.reaches, Painter.visible, hxy, Bool.and_false]

/-- What the drawing of a glyph comes to. Nothing happens for the invalid glyph, and nothing but the advance
is left of a glyph of which no part is visible. -/
inductive Drawn (page : TextPage) (st : TextStyle) (g : Glyph) (x y : Int) :
    TextPage × Except Fault Advance → Prop
  | invalid (hg : g = Glyph.invalid) : Drawn page st g x y (page, .ok {})
  | hidden (hg : g ≠ Glyph.invalid)
    (hopen : ((plan st g x (y + st.lineExtra)).window.intersect? page.bound).bind
      (Painter.open? page.surface page.clip) = none) :
    Drawn page st g x y (page, .ok (plan st g x (y + st.lineExtra)).advance)
  | seen (hg : g ≠ Glyph.invalid) {rc : Rect} {p : Painter}
    (hwindow : (plan st g x (y + st.lineExtra)).window.intersect? page.bound = some rc)
    (hopen : Painter.open? page.surface page.clip rc = some p) :
    Drawn page st g x y
      (let drawn := drawPlanned st g (plan st g x (y + st.lineExtra)) p page.scratch
      ({ page with surface := drawn.1.1.surface, scratch := drawn.1.2 }, drawn.2))

theorem drawn_drawGlyph (page : TextPage) (st : TextStyle) (g : Glyph) (x y : Int) :
    Drawn page st g x y (page.drawGlyph st g x y) := by
  rw [drawGlyph]
  by_cases hg : g = Glyph.invalid
  · rw [if_pos hg]
    exact .invalid hg
  · rw [if_neg hg]
    dsimp only
    cases hopen : ((plan st g x (y + st.lineExtra)).window.intersect? page.bound).bind
        (Painter.open? page.surface page.clip) with
    | none => exact .hidden hg hopen
    | some p =>
      obtain ⟨rc, hwindow, hopen⟩ := Option.bind_eq_some_iff.mp hopen
      exact .seen hg hwindow hopen

theorem kept_drawGlyph (hclip : page.clip.Banded) (st : TextStyle) (g : Glyph) (x y : Int) :
    Kept page (page.drawGlyph st g x y).1 := by
  have hdrawn := drawn_drawGlyph page st g x y
  generalize page.drawGlyph st g x y = result at hdrawn ⊢
  cases hdrawn with
  | invalid | hidden => exact .refl page
  | seen hg hwindow hopen =>
    have hsound := (Painter.opened_of_some hclip hopen).sound
    exact kept_of_confined hclip hopen (confined_drawPlanned st g _ hsound page.scratch) _

theorem kept_drawFrom (hclip : page.clip.Banded) (st : TextStyle) (x y : Int) (glyphs : List Glyph)
    (total : Advance) : Kept page (drawFrom st x y glyphs total page).1 := by
  induction glyphs generalizing page total with
  | nil => exact .refl page
  | cons g gs ih =>
    have hglyph := kept_drawGlyph hclip st g (x + total.dx) (y + total.dy)
    rw [drawFrom]
    cases hdraw : page.drawGlyph st g (x + total.dx) (y + total.dy) with
    | mk page' result =>
      rw [hdraw] at hglyph
      cases result with
      | error e => exact hglyph
      | ok a => exact hglyph.trans (ih (hglyph.clip ▸ hclip) (addAdvance total a))

theorem kept_drawText (hclip : page.clip.Banded) (st : TextStyle) (glyphs : List Glyph) (x y : Int) :
    Kept page (page.drawText st glyphs x y).1 := kept_drawFrom hclip st x y glyphs {}

end TextPage

end Rasterizer
