import Rasterizer.Proofs.Text.Faults
import Rasterizer.Proofs.Text.Regular

/-! # Where the ink of a glyph falls

The ink of a glyph of packed bits are the set bits of its picture, widened, mirrored and magnified, each
row moved as the glyph leans (`TextStyle.Inked`). It is drawn where it falls into the ink rectangle, and
not beside it (`TextPage.get?_drawGlyph_of_inked`, `TextPage.get?_drawGlyph_of_not_inked`). The rectangle
holds all of it if the glyph stands upright, or leans to the right and has at most one row below the
baseline (`TextPage.contains_rc_of_inked`). -/

namespace Rasterizer

namespace FontStyle

/-- The flags that weigh the ink of a glyph otherwise or draw lines along it. -/
def decorations : FontStyle := .union (.union (.union .book .light) .subpixel) (.union .underline .struckOut)

/-- Glyphs are drawn in the regular weight and without lines, however they are widened, slanted and
mirrored. -/
def Plain (s : FontStyle) : Prop := s.intersects decorations = false

instance : DecidablePred Plain := fun s => inferInstanceAs (Decidable (s.intersects decorations = false))

theorem Plain.intersects {s : FontStyle} (h : s.Plain) :
    s.intersects (.union .book .light) = false ∧ s.intersects .subpixel = false ∧
      s.intersects (.union .underline .struckOut) = false := by
  simpa only [intersects_union_eq_false, and_assoc] using intersects_union_eq_false.mp h

end FontStyle

/-! ## What a font shows -/

/-- The picture of a glyph as the table holds it. -/
def GlyphTable.picture? (t : GlyphTable UInt8) (i : UInt32) : Option BitPicture :=
  (t.glyph? i).map fun e => ⟨e.data, t.rowSize e.width, e.width, t.height⟩

/-- The bit at `(x, y)` of the picture of a glyph, widened, mirrored and magnified for the font. -/
def LogicalFont.bitAt (f : LogicalFont) (t : GlyphTable UInt8) (i : UInt32) (x y : Int) : Bool :=
  (t.picture? i).any fun b =>
    b.styledBit f.style (0 < f.boldWidth t.monoSource) (x / t.scale) (y / t.scale)

/-- The ink of a glyph with the pen at `(x, y)` falls on a pixel: a set bit of its picture is moved
there by its box and by the slant of its row. The invalid glyph has no ink. -/
def TextStyle.Inked (st : TextStyle) (t : GlyphTable UInt8) (g : Glyph) (x y : Int) (q : Point) : Prop :=
  let box := (st.place g x y).box
  let slant := (TextPage.plan st g x y).ink.slant
  g ≠ Glyph.invalid ∧ ∃ X Y, st.font.bitAt t (Glyph.index g) X Y = true ∧
    q = ⟨box.x + X + slant.shift Y, box.y + Y⟩

theorem BitPicture.inside_of_styledBit {b : BitPicture} {style : FontStyle} {bold : Bool} {x y : Int}
    (h : b.styledBit style bold x y = true) :
    0 ≤ x ∧ x < b.w + (if bold then 1 else 0) ∧ 0 ≤ y ∧ y < b.h := by
  have hmirrored := inside_of_widenedBit h
  generalize (if bold then (1 : Int) else 0) = wider at hmirrored ⊢
  split at hmirrored <;> split at hmirrored <;> omega

namespace TextPage

variable {st : TextStyle} {t : GlyphTable UInt8} {g : Glyph} {x y : Int}

/-- What is planned for a plain glyph on a transparent background: its ink alone. -/
structure InkAlone (st : TextStyle) (g : Glyph) (x y : Int) (pl : GlyphPlan) : Prop where
  area : pl.area = none
  lines : pl.lines = []
  rc : pl.rc = .ofSize (st.place g x y).box.x (st.place g x y).box.y
    ((st.place g x y).box.w + leanWidth st.font (st.font.sourceOf g)) (st.place g x y).box.h
  origin : pl.ink.origin = ⟨(st.place g x y).box.x, (st.place g x y).box.y⟩

theorem inkAlone_plan (hplain : st.font.style.Plain) (htransparent : st.transparent = true) (g : Glyph)
    (x y : Int) : InkAlone st g x y (plan st g x y) := by
  obtain ⟨hweights, -, hlines⟩ := hplain.intersects
  obtain ⟨hunderline, hstruckOut⟩ := FontStyle.intersects_union_eq_false.mp hlines
  have hhalo : st.font.hasHalo (st.font.sourceOf g) = false := by
    rw [LogicalFont.hasHalo, hweights, Bool.and_false]
  refine ⟨?_, ?_, ?_, ?_⟩
  · simp [plan, backArea?, htransparent, hlines]
  · simp [plan, LogicalFont.textLines, FontStyle.contains_eq_false hunderline,
      FontStyle.contains_eq_false hstruckOut]
  · simp [plan, inkRect, hhalo]
  · simp [plan, inkRect, hhalo, Rect.ofSize]

/-- The bit that is drawn at a pixel. -/
def bitUnder (st : TextStyle) (t : GlyphTable UInt8) (g : Glyph) (x y x' y' : Int) : Bool :=
  let ink := (plan st g x y).ink
  let source := ink.slant.source ink.origin x' y'
  st.font.bitAt t (Glyph.index g) source.x source.y

theorem inked_iff (hplain : st.font.style.Plain) (htransparent : st.transparent = true) {x' y' : Int} :
    st.Inked t g x y ⟨x', y'⟩ ↔ g ≠ Glyph.invalid ∧ bitUnder st t g x y x' y' = true := by
  simp only [TextStyle.Inked, bitUnder, (inkAlone_plan hplain htransparent g x y).origin, Slant.source]
  refine and_congr_right fun _ => ⟨?_, fun hbit => ⟨_, _, hbit, ?_⟩⟩
  · rintro ⟨X, Y, hbit, hq⟩
    injection hq with hx hy
    obtain rfl : Y = y' - (st.place g x y).box.y := by omega
    rwa [← show X = x' - (st.place g x y).box.x -
      (plan st g x y).ink.slant.shift (y' - (st.place g x y).box.y) by omega]
  · rw [Point.mk.injEq]
    omega

theorem inkWeight_of_plain (hplain : st.font.style.Plain) : st.inkWeight = .regular := by
  obtain ⟨hweights, hsubpixel, -⟩ := hplain.intersects
  obtain ⟨hbook, hlight⟩ := FontStyle.intersects_union_eq_false.mp hweights
  simp [TextStyle.inkWeight, FontStyle.contains_eq_false hbook, FontStyle.contains_eq_false hlight,
    FontStyle.contains_eq_false hsubpixel]

/-- A glyph without lines on a transparent background leaves its ink alone. -/
theorem surface_drawPlanned {pl : GlyphPlan} (hlines : pl.lines = []) (htransparent : st.transparent = true)
    (p : Painter) (back : Scratch) :
    (drawPlanned st g pl p back).1.1.surface = (drawInk st g pl.rc pl.ink p back).1.1.surface := by
  have hground : drawGround st pl.area p = p := by simp [drawGround, htransparent]
  rw [drawPlanned, hground]
  rcases drawInk st g pl.rc pl.ink p back with ⟨⟨q, back'⟩, e | _⟩
  · rfl
  · simp [hlines, drawLines, Painter.withInk]

variable (ht : t.BitTable) (hs : st.font.sourceOf g = t.monoSource)

include ht hs

/-- The ink lies in the box of the glyph, before its rows are moved. -/
theorem inside_of_bitAt {X Y : Int} (h : st.font.bitAt t (Glyph.index g) X Y = true) (x y : Int) :
    0 ≤ X ∧ X < (st.place g x y).box.w ∧ 0 ≤ Y ∧ Y < (st.place g x y).box.h := by
  have hscale := ht.rowSize_eq.2
  simp only [LogicalFont.bitAt, GlyphTable.picture?] at h
  cases hglyph : t.glyph? (Glyph.index g) with
  | none => simp [hglyph] at h
  | some e =>
    have hfills := fills_plan ht hs hglyph x y
    rw [hglyph, Option.map_some, Option.any_some] at h
    obtain ⟨hX, hX', hY, hY'⟩ := BitPicture.inside_of_styledBit h
    dsimp only at hX hX' hY hY'
    rw [Int.le_ediv_iff_mul_le (by omega), Int.zero_mul] at hX hY
    rw [Int.ediv_lt_iff_lt_mul (by omega)] at hX' hY'
    have hwidth := hfills.width
    rw [show (plan st g x y).ink.bold = decide (0 < st.font.boldWidth (st.font.sourceOf g)) from rfl,
      hs] at hwidth
    exact ⟨hX, hX'.trans_eq hwidth.symm, hY, hY'.trans_eq hfills.height.symm⟩

/-- The row that a glyph is given below its rectangle has no ink. -/
theorem contains_rc_of_window (hpl : InkAlone st g x y (plan st g x y)) {x' y' : Int}
    (hbit : bitUnder st t g x y x' y' = true) (hwindow : (plan st g x y).window.contains x' y' = true) :
    (plan st g x y).rc.contains x' y' = true := by
  have hinside := inside_of_bitAt ht hs hbit x y
  simp only [Slant.source, hpl.origin] at hinside
  simp only [GlyphPlan.window, hpl.area, Rect.contains_iff] at hwindow
  rw [hpl.rc, Rect.ofSize] at hwindow ⊢
  dsimp only at hwindow
  rw [Rect.contains_iff]
  dsimp only
  omega

/-- The ink rectangle holds all ink of a glyph that stands upright, and of one that leans to the right
and has at most one row below the baseline. -/
theorem contains_rc_of_inked (hplain : st.font.style.Plain) (htransparent : st.transparent = true)
    (hkeeps : leanWidth st.font t.monoSource = 0 ∨ st.font.style.flipsOnce = false ∧ t.monoSource.descent ≤ 1)
    {x' y' : Int} (hinked : st.Inked t g x y ⟨x', y'⟩) : (plan st g x y).rc.contains x' y' = true := by
  obtain ⟨-, X, Y, hbit, hq⟩ := hinked
  injection hq with hx hy
  obtain ⟨hX, hX', hY, hY'⟩ := inside_of_bitAt ht hs hbit x y
  have hslant : (plan st g x y).ink.slant.Within (st.place g x y).box.h
      (leanWidth st.font t.monoSource) := by
    by_cases hupright : leanWidth st.font t.monoSource = 0
    · rw [hupright]
      exact Slant.within_of_upright (by simp [plan, hs, hupright]) _
    · obtain ⟨hmirrored, hdescent⟩ := hkeeps.resolve_left hupright
      have hheight : (t.ascent : Int) * t.scale + ((t.height - t.ascent : Nat) : Int) * t.scale =
          t.height * t.scale := by
        rw [← Int.add_mul, ← Int.natCast_add, Nat.add_sub_cancel' t.ascent_le_height]
      have hbelow := Int.mul_nonneg (Int.natCast_nonneg (t.height - t.ascent)) (Int.natCast_nonneg t.scale)
      rw [leanWidth_of_ne_zero hupright]
      simp only [GlyphTable.monoSource, GlyphTable.metricsSource] at hdescent
      refine Slant.within_of_ascent hmirrored ?_ ?_
      · simp only [plan, TextStyle.place, hs, GlyphTable.monoSource, GlyphTable.metricsSource]
        omega
      · simp only [plan, TextStyle.place, hs, GlyphTable.monoSource, GlyphTable.metricsSource]
        omega
  have hshift := hslant Y hY hY'
  rw [(inkAlone_plan hplain htransparent g x y).rc, Rect.contains_iff, hs]
  simp only [Rect.ofSize]
  omega

/-- The picture that the ink is drawn from has the bits that the font shows, as far as it has any. -/
theorem image?_bits (hplain : st.font.style.Plain) (x y : Int) :
    ((∀ X Y, st.font.bitAt t (Glyph.index g) X Y = false) ∧
      ∀ image, st.image? g (plan st g x y).ink ≠ .ok (some image)) ∨
    ∃ b, st.image? g (plan st g x y).ink = .ok (some (.bits b .regular t.scale)) ∧
      ∀ X Y, b.bit (X / t.scale) (Y / t.scale) = st.font.bitAt t (Glyph.index g) X Y := by
  have hscale := ht.rowSize_eq.2
  rw [TextStyle.image?_monoSource ht hs]
  cases hglyph : t.glyph? (Glyph.index g) with
  | none =>
    exact .inl ⟨fun X Y => by simp [LogicalFont.bitAt, GlyphTable.picture?, hglyph], fun _ h => by cases h⟩
  | some e =>
    have hfills := fills_plan ht hs hglyph x y
    have hbits : ∀ X Y, (GlyphBitmap.picture ⟨e.data, t.rowSize e.width, t.scale⟩ e.width
        t.height).styledBit st.font.style (plan st g x y).ink.bold (X / t.scale) (Y / t.scale) =
          st.font.bitAt t (Glyph.index g) X Y := by
      intro X Y
      simp only [LogicalFont.bitAt, GlyphTable.picture?, hglyph, Option.map_some, Option.any_some, plan,
        TextStyle.place, hs]
      rfl
    dsimp only
    cases himage : st.bitsImage ⟨e.data, t.rowSize e.width, t.scale⟩ t.scale (plan st g x y).ink with
    | error fault =>
      -- a picture that cannot be mirrored has no columns
      obtain ⟨-, -, hnone, hbold⟩ := TextStyle.failsOnlyIf_bitsImage (by omega) hfills fault himage
      refine .inl ⟨fun X Y => Bool.eq_false_iff.mpr fun hbit => ?_, fun _ h => by cases h⟩
      rw [← hbits, hbold] at hbit
      have := BitPicture.inside_of_styledBit hbit
      simp [GlyphBitmap.picture, hnone] at this
      omega
    | ok image =>
      obtain ⟨b, rfl, hb⟩ :=
        TextStyle.bit_bitsImage (inkWeight_of_plain hplain) (by omega) hfills himage
      exact .inr ⟨b, rfl, fun X Y => (hb _ _).trans (hbits X Y)⟩

section Drawing

variable (hplain : st.font.style.Plain) {p : Painter} (hp : p.frame.Sound) (back : Scratch) {x' y' : Int}

include hplain hp

theorem get?_drawInk_of_bitAt (hrop : p.rop = .set) (hreach : p.frame.reaches x' y' = true)
    (hrc : (plan st g x y).rc.contains x' y' = true) (hbit : bitUnder st t g x y x' y' = true) :
    (drawInk st g (plan st g x y).rc (plan st g x y).ink p back).1.1.surface.get? x' y' =
      some (p.surface.format.kept st.textColor) := by
  have hscale := ht.rowSize_eq.2
  obtain ⟨w, hw, -⟩ := Rect.intersect?_of_contains hrc (Painter.Frame.reaches_iff.mp hreach).1
  have hsome : ((plan st g x y).rc.intersect? p.window).isSome = true :=
    Option.isSome_iff_exists.mpr ⟨w, hw⟩
  obtain ⟨loaded, -, hdraw⟩ := exists_drawInk_eq st g (plan st g x y).rc (plan st g x y).ink p back
  rw [bitUnder] at hbit
  rcases image?_bits ht hs hplain x y with ⟨hnone, -⟩ | ⟨b, himage, hbits⟩
  · rw [hnone] at hbit
    cases hbit
  · simp only [hdraw, hsome, if_true, himage]
    refine Painter.get?_markAll_of_touches hp hrop (fun m => RegularWeight.mem_marks) hreach ?_
    rw [RegularWeight.touched_marks (by omega), hbits]
    exact hbit

theorem get?_drawInk_of_not_bitAt (hbit : bitUnder st t g x y x' y' = false) :
    (drawInk st g (plan st g x y).rc (plan st g x y).ink p back).1.1.surface.get? x' y' =
      p.surface.get? x' y' := by
  have hscale := ht.rowSize_eq.2
  obtain ⟨loaded, -, hdraw⟩ := exists_drawInk_eq st g (plan st g x y).rc (plan st g x y).ink p back
  rw [hdraw]
  split
  · rcases image?_bits ht hs hplain x y with ⟨-, hnone⟩ | ⟨b, himage, hbits⟩
    · split
      next => rfl
      next => rfl
      next image himage => exact absurd himage (hnone image)
    · rw [himage]
      refine Painter.get?_markAll_of_not_touches hp fun m hm htouch => ?_
      have := (RegularWeight.touched_marks (by omega)).mp ⟨m, hm, htouch⟩
      rw [hbits, ← bitUnder, hbit] at this
      cases this
  · rfl

end Drawing

section Page

variable (page : TextPage) (hclip : page.clip.Banded) (hplain : st.font.style.Plain)
  (htransparent : st.transparent = true) {x' y' : Int}

include hclip hplain htransparent

/-- Ink that falls into the ink rectangle is drawn wherever it may be. -/
theorem get?_drawGlyph_of_inked (hin : page.clip.contains x' y' = true)
    (hbound : page.bound.contains x' y' = true) (hsurface : page.surface.inside x' y' = true)
    (hinked : st.Inked t g x (y + st.lineExtra) ⟨x', y'⟩)
    (hrc : (plan st g x (y + st.lineExtra)).rc.contains x' y' = true) :
    (page.drawGlyph st g x y).1.surface.get? x' y' = some (page.surface.format.kept st.textColor) := by
  have hpl := inkAlone_plan hplain htransparent g x (y + st.lineExtra)
  obtain ⟨hg, hbit⟩ := (inked_iff hplain htransparent).mp hinked
  rw [drawGlyph, if_neg hg]
  dsimp only
  have hwindow : (plan st g x (y + st.lineExtra)).window.contains x' y' = true := by
    rw [Rect.contains_iff] at hrc
    simp only [GlyphPlan.window, hpl.area, Rect.contains_iff]
    omega
  obtain ⟨w, hw, hcontains⟩ := Rect.intersect?_of_contains hwindow hbound
  have hvisible : Painter.visible page.surface page.clip w x' y' = true := by
    rw [Painter.visible, Rect.contains_normalized hcontains, hsurface, hin]
    rfl
  rw [hw, Option.bind_some]
  cases hopen : Painter.open? page.surface page.clip w with
  | none => rw [Painter.visible_of_none hclip hopen] at hvisible; cases hvisible
  | some p =>
    have hopened := Painter.opened_of_some hclip hopen
    dsimp only
    rw [surface_drawPlanned hpl.lines htransparent, get?_drawInk_of_bitAt ht hs hplain hopened.sound page.scratch
      (congrArg Painter.Tool.rop hopened.tool) (by rw [hopened.reaches, hvisible]) hrc hbit, hopened.surface]

/-- Where there is no ink, or only beside the ink rectangle, nothing changes. -/
theorem get?_drawGlyph_of_not_inked (hnot : ¬(st.Inked t g x (y + st.lineExtra) ⟨x', y'⟩ ∧
      (plan st g x (y + st.lineExtra)).rc.contains x' y' = true)) :
    (page.drawGlyph st g x y).1.surface.get? x' y' = page.surface.get? x' y' := by
  have hpl := inkAlone_plan hplain htransparent g x (y + st.lineExtra)
  rw [inked_iff hplain htransparent] at hnot
  have hdrawn := drawn_drawGlyph page st g x y
  generalize page.drawGlyph st g x y = result at hdrawn ⊢
  cases hdrawn with
  | invalid | hidden => rfl
  | seen hg hwindow hopen =>
    have hopened := Painter.opened_of_some hclip hopen
    dsimp only
    rw [surface_drawPlanned hpl.lines htransparent, ← hopened.surface]
    cases hbit : bitUnder st t g x (y + st.lineExtra) x' y' with
    | false => exact get?_drawInk_of_not_bitAt ht hs hplain hopened.sound page.scratch hbit
    | true =>
      refine (confined_drawInk st g _ _ hopened.sound page.scratch).get? x' y' ?_
      rw [hopened.reaches, Painter.visible,
        Rect.normalized_of_nonempty (Rect.isEmpty_of_intersect? hwindow), Bool.and_eq_false_iff,
        Bool.and_eq_false_iff]
      refine .inl (.inl (Bool.eq_false_iff.mpr fun hrc => hnot ⟨⟨hg, hbit⟩, ?_⟩))
      have hmeet := (plan st g x (y + st.lineExtra)).window.contains_intersect? page.bound x' y'
      rw [hwindow, Option.any_some, hrc, eq_comm, Bool.and_eq_true] at hmeet
      exact contains_rc_of_window ht hs hpl hbit hmeet.1

end Page

end TextPage

end Rasterizer
