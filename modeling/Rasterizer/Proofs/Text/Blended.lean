import Rasterizer.Font.Table
import Rasterizer.Proofs.Canvas.Commands
import Rasterizer.Proofs.Text.Turned

/-! # What the subpixel weight blends with

On a clear bit beside ink the subpixel weight leaves the text mixed into a colour that the surface held
before the glyph (`TextPage.drawInk_blends`). It is the colour of the pixel itself on the first row and
where the row leans as far as the one above it, so on all rows of an upright glyph. Every other row of a
slanted glyph was read one pixel aside of where it is drawn (`Canvas.drawGlyph_blends_aside`). -/

namespace Rasterizer

namespace SubpixelWeight

/-- The pixel that a bit is drawn on. -/
def drawnAt (origin : Point) (slant : Slant) (i k : Int) : Point := ⟨origin.x + slant.shift i + k, origin.y + i⟩

/-- The pixel that is read for a bit, when the row above is drawn. -/
def readAt (origin : Point) (slant : Slant) (i k : Int) : Point :=
  ⟨origin.x + slant.shift (max (i - 1) 0) + k, origin.y + i⟩

variable {b : BitPicture} {origin : Point} {slant : Slant} {text outside : Color} {i k : Int}

theorem readAt_eq_drawnAt (hi : 0 ≤ i) :
    readAt origin slant i k = drawnAt origin slant i k ↔
      slant.leans = false ∨ i = 0 ∨ 2 ∣ slant.ascent - i := by
  simp only [readAt, drawnAt, Slant.shift, Point.mk.injEq, and_true]
  cases slant.leans with
  | false => simp
  | true =>
    cases slant.mirrored with
    | false => simp; omega
    | true => simp; omega

/-- The filter takes the colour of the pixel that it has read. -/
theorem getD_rowSeen (s : Surface) (hk : 0 ≤ k) (hkw : k < b.w) :
    (rowSeen b origin slant outside s i).getD k.toNat default =
      Scratch.colorAt s outside (readAt origin slant i k).x (readAt origin slant i k).y := by
  have hlt : k.toNat < b.w.toNat := by omega
  simp only [rowSeen, readAt, Array.getD, Array.size_ofFn, dif_pos hlt, Array.getInternal_eq_getElem,
    Array.getElem_ofFn]
  rw [Int.toNat_of_nonneg hk]

/-- Of the marks of a picture one touches the pixel of a bit. -/
theorem onAll_marksOn (s : Surface) (hi : 0 ≤ i) (hih : i < b.h) (hk : 0 ≤ k) (hkw : k < b.w)
    {value : Pixel}
    (hink : inkAt? s.format b.w (linesAround b i) (seenAround b origin slant outside s i) text k =
      some value) (f : PixelFormat) (v : Pixel) :
    Mark.onAll f (drawnAt origin slant i k).x (drawnAt origin slant i k).y
      (b.rowNumbers.flatMap (marksOn b origin slant text outside s)) v = f.kept value := by
  have hrow : i ∈ b.rowNumbers := mem_irange.mpr (by omega)
  have hbit : k ∈ irange 0 (b.w - 1) := mem_irange.mpr (by omega)
  have hrows : b.rowNumbers.Nodup := nodup_irange 0 (b.h - 1)
  rw [Mark.onAll_flatMap hrows hrow, marksOn, rowMarks,
    Mark.onAll_filterMap (nodup_irange 0 (b.w - 1)) hbit, hink]
  · exact Mark.on_of_touches (m := .pixel ..) ⟨rfl, rfl⟩ v
  · intro j _ hne m hm htouch
    obtain ⟨w, -, rfl⟩ := Option.map_eq_some_iff.mp hm
    exact hne (by simp only [Mark.Touches, drawnAt] at htouch; omega)
  · intro j _ hne m hm htouch
    have := (touches_of_mem_marksOn hm htouch).1
    exact hne (by simp only [drawnAt] at this; omega)

theorem get?_draw {p : Painter} (hp : p.SetsAt (drawnAt origin slant i k).x (drawnAt origin slant i k).y)
    {back : Scratch} (hroom : back.hasRoom b.w.toNat = true) (hi : 0 ≤ i) (hih : i < b.h) (hk : 0 ≤ k)
    (hkw : k < b.w) {value : Pixel} (hink : inkAt? p.surface.format b.w (linesAround b i)
      (seenAround b origin slant outside p.surface i) text k = some value) :
    (draw b origin slant text outside p back).1.surface.get? (drawnAt origin slant i k).x
      (drawnAt origin slant i k).y = some (p.surface.format.kept value) := by
  obtain ⟨v, hv⟩ := Painter.exists_get?_of_reaches hp.sound hp.reaches
  rw [draw_eq_markAll b origin slant text outside hp.sound hroom,
    (Painter.turns_markAll p.surface.format _ _ _ p hp rfl).2.2 v hv,
    onAll_marksOn p.surface hi hih hk hkw hink]

/-- On a clear bit beside ink the text is mixed into the colour that has been read. -/
theorem inkAt?_of_clear {s : Surface} (hk : 0 ≤ k) (hkw : k < b.w) (hclear : b.bit k i = false)
    (hweight : 0 < inkAround (linesAround b i) k) (f : PixelFormat) :
    inkAt? f b.w (linesAround b i) (seenAround b origin slant outside s i) text k =
      some (f.mapOpaque (Color.mix
        (Scratch.colorAt s outside (readAt origin slant i k).x (readAt origin slant i k).y) text
        (inkAround (linesAround b i) k) total)) := by
  have hbit : (linesAround b i).here.get k = false := hclear
  simp only [inkAt?, hbit, Bool.false_eq_true, if_false, if_neg (Nat.ne_of_gt hweight)]
  rw [seenAround, getD_rowSeen s hk hkw]

end SubpixelWeight

open SubpixelWeight

/-- A clear bit beside ink leaves the text mixed into the colour that its pixel, or the pixel read in its
place, held before the ink was drawn. -/
theorem TextPage.drawInk_blends (st : TextStyle) (g : Glyph) (rc : Rect) (ink : InkBox) {p : Painter}
    (back : Scratch) {b : BitPicture} {scale : Int}
    (himage : st.image? g ink = .ok (some (.bits b .subpixel scale)))
    (hmeets : (rc.intersect? p.window).isSome = true) {i k : Int} (hi : 0 ≤ i) (hih : i < b.h) (hk : 0 ≤ k)
    (hkw : k < b.w) (hclear : b.bit k i = false) (hweight : 0 < inkAround (linesAround b i) k)
    (hp : p.SetsAt (drawnAt ink.origin ink.slant i k).x (drawnAt ink.origin ink.slant i k).y) :
    let f := p.surface.format
    let drawn := drawnAt ink.origin ink.slant i k
    let read := readAt ink.origin ink.slant i k
    let blended (c : Color) : Pixel := f.kept (f.mapOpaque
      (Color.mix c (f.getRgb st.textColor) (inkAround (linesAround b i) k) total))
    let result := (drawInk st g rc ink p back).1.1.surface.get? drawn.x drawn.y
    result = some (blended (Scratch.colorAt p.surface (f.getRgb st.background) read.x read.y)) ∧
      ((ink.slant.leans = false ∨ i = 0 ∨ 2 ∣ ink.slant.ascent - i) →
        ∀ v, p.surface.get? drawn.x drawn.y = some v → result = some (blended (f.getRgb v))) := by
  intro f drawn read blended result
  have hresult :
      result = some (blended (Scratch.colorAt p.surface (f.getRgb st.background) read.x read.y)) := by
    obtain ⟨loaded, hroom, hdraw⟩ := exists_drawInk_eq st g rc ink p back
    simp only [result, hdraw, hmeets, if_true, himage]
    exact get?_draw hp (hroom _ himage) hi hih hk hkw (inkAt?_of_clear hk hkw hclear hweight f)
  refine ⟨hresult, fun hown v hv => hresult.trans ?_⟩
  have hsame : read = drawn := (readAt_eq_drawnAt hi).mpr hown
  rw [hsame, Scratch.colorAt, hv]

namespace Canvas

/-- A table with one glyph of a full row above half a row. -/
def hookTable : GlyphTable UInt8 :=
  (GlyphTable.build? "hook" 2 2 0 GlyphTable.bitRowSize #[⟨2, #[0xC0, 0x80]⟩]).get (by decide)

/-- A page of one colour but for one black pixel, with the hook table as its font. -/
def hookPage (style : FontStyle) : Canvas :=
  let surface := (greyPage 4 2 .regular barGlyph).surface
  ((ofSurface ((surface.fill 7).put 2 1 0)).setBackgroundMode .transparent).setFont
    ((LogicalFont.ofSource hookTable.monoSource).withStyle style)

/-- The text style of the hook page. -/
def hookStyle (style : FontStyle) : TextStyle :=
  (hookPage style).text.styleOf ((LogicalFont.ofSource hookTable.monoSource).withStyle style)

/-- The clear bit of a slanted hook is drawn on a pixel that holds 7, which would become 5, but it is the
black pixel beside it that the text is mixed into. -/
theorem drawGlyph_blends_aside :
    let c := hookPage (.union .italic .subpixel)
    let st := hookStyle (.union .italic .subpixel)
    let ink := (TextPage.plan st 0 0 2).ink
    let b : BitPicture := ⟨#[0xC0, 0x80], 1, 2, 2⟩
    st.image? 0 ink = .ok (some (.bits b .subpixel 1)) ∧ b.bit 1 1 = false ∧
      inkAround (linesAround b 1) 1 = 8 ∧ drawnAt ink.origin ink.slant 1 1 = ⟨1, 1⟩ ∧
      c.clip.contains 1 1 = true ∧ c.surface.get? 1 1 = some 7 ∧
      c.surface.format.mapOpaque
        (Color.mix (c.surface.format.getRgb 7) (c.surface.format.getRgb c.text.color) 8 32) = 5 ∧
      (c.drawGlyph 0 0 0).1.surface.get? 1 1 = some 0 := by
  refine ⟨?_, ?_, ?_, ?_, ?_, ?_, ?_, ?_⟩
  · rfl
  all_goals decide

/-- The painter of the whole hook page. -/
def hookPainter (style : FontStyle) : Painter :=
  ⟨(hookPage style).surface, (hookPage style).clip, ⟨0, 0, 4, 2⟩, 0, .set, 1, Nat.one_pos, true, none⟩

theorem setsAt_hookPainter (style : FontStyle) : (hookPainter style).SetsAt 1 1 :=
  have hopened := Painter.opened_of_some (banded_wholeClip (hookPage style).surface (hookPage style).space)
    (show Painter.open? (hookPage style).surface (hookPage style).clip ⟨0, 0, 4, 2⟩ = some (hookPainter style)
      from rfl)
  ⟨hopened.sound, rfl, rfl⟩

/-- The slanted hook takes the black pixel, and the upright one its own. -/
theorem drawInk_blends_hook :
    let drawn (style : FontStyle) : Surface :=
      let pl := TextPage.plan (hookStyle style) 0 0 2
      (TextPage.drawInk (hookStyle style) 0 pl.rc pl.ink (hookPainter style) {}).1.1.surface
    (drawn (.union .italic .subpixel)).get? 1 1 = some 0 ∧ (drawn .subpixel).get? 1 1 = some 5 := by
  let b : BitPicture := ⟨#[0xC0, 0x80], 1, 2, 2⟩
  constructor
  · exact (TextPage.drawInk_blends (hookStyle (.union .italic .subpixel)) 0 _ _ {} (b := b) rfl rfl
      (i := 1) (k := 1) (by decide) (by decide) (by decide) (by decide) (by decide) (by decide)
      (setsAt_hookPainter _)).1.trans (by decide)
  · exact ((TextPage.drawInk_blends (hookStyle .subpixel) 0 _ _ {} (b := b) rfl rfl
      (i := 1) (k := 1) (by decide) (by decide) (by decide) (by decide) (by decide) (by decide)
      (setsAt_hookPainter _)).2 (.inl rfl) 7 (by decide)).trans (by decide)

end Canvas

end Rasterizer
