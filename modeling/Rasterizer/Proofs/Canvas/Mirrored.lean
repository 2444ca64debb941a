import Rasterizer.Proofs.Canvas.Magnified
import Rasterizer.Proofs.Text.Restyled

/-! # Mirrored glyphs

A flag that mirrors, added to the style of an upright glyph of a built-in font, mirrors the dots of its
picture (`TextPage.dotOf_mirroredBy`), and so what is drawn of it in its box wherever the surface holds the
same at the two places (`drawGlyph_mirrored`). Coverage by channel is drawn as if the flag were not there
(`drawGlyph_unmirrored`). -/

namespace Rasterizer

/-- The two ways of mirroring. -/
inductive Mirroring where
  | leftRight | topBottom
deriving Repr, DecidableEq

namespace Mirroring

def flag : Mirroring → FontStyle
  | .leftRight => .flipHorz
  | .topBottom => .flipVert

/-- The column of `w` columns that a column is mirrored to. -/
def column (m : Mirroring) (w X : Int) : Int :=
  match m with
  | .leftRight => w - 1 - X
  | .topBottom => X

/-- The row of `h` rows that a row is mirrored to. -/
def row (m : Mirroring) (h Y : Int) : Int :=
  match m with
  | .leftRight => Y
  | .topBottom => h - 1 - Y

variable {m : Mirroring} {style : FontStyle}

/-- Mirroring does not show in the flags for weights, slant and lines. -/
theorem agree (m : Mirroring) (style : FontStyle) {flags : FontStyle}
    (h : flags = .bold ∨ flags = .italic ∨ flags = .decorations) :
    FontStyle.Agree flags style (style.union m.flag) := by
  refine FontStyle.agree_union ?_ style
  rcases h with rfl | rfl | rfl <;> cases m <;> decide

theorem mirrorX_union (hnew : style.contains m.flag = false) (w X : Int) :
    (style.union m.flag).mirrorX w X = style.mirrorX w (m.column w X) := by
  cases m with
  | leftRight =>
    have hflag : (style.union .flipHorz).contains .flipHorz = true :=
      FontStyle.contains_union (by decide) style
    have hnew' : style.contains .flipHorz = false := hnew
    simp [FontStyle.mirrorX, flag, column, hflag, hnew']
  | topBottom =>
    rw [FontStyle.mirrorX, flag, (FontStyle.agree_union (by decide) style).contains]
    rfl

theorem mirrorY_union (hnew : style.contains m.flag = false) (h Y : Int) :
    (style.union m.flag).mirrorY h Y = style.mirrorY h (m.row h Y) := by
  cases m with
  | leftRight =>
    rw [FontStyle.mirrorY, flag, (FontStyle.agree_union (by decide) style).contains]
    rfl
  | topBottom =>
    have hflag : (style.union .flipVert).contains .flipVert = true :=
      FontStyle.contains_union (by decide) style
    have hnew' : style.contains .flipVert = false := hnew
    simp [FontStyle.mirrorY, flag, row, hflag, hnew']

theorem plain_union (m : Mirroring) (h : style.Plain) : (style.union m.flag).Plain :=
  (m.agree style (.inr (.inr rfl))).intersects.trans h

end Mirroring

theorem BitPicture.styledBit_union {m : Mirroring} {style : FontStyle} (hnew : style.contains m.flag = false)
    (b : BitPicture) (bold : Bool) (X Y : Int) :
    b.styledBit (style.union m.flag) bold X Y =
      b.styledBit style bold (m.column (b.w + if bold then 1 else 0) X) (m.row b.h Y) := by
  have hstyled (style : FontStyle) (X Y : Int) : b.styledBit style bold X Y =
      (b.bit (style.mirrorX (b.w + if bold then 1 else 0) X) (style.mirrorY b.h Y) ||
        (bold && b.bit (style.mirrorX (b.w + if bold then 1 else 0) X - 1) (style.mirrorY b.h Y))) := rfl
  rw [hstyled, hstyled, Mirroring.mirrorX_union hnew, Mirroring.mirrorY_union hnew]

/-- The text with a mirroring flag added to its style. -/
def TextStyle.mirroredBy (st : TextStyle) (m : Mirroring) : TextStyle :=
  st.restyled (st.font.style.union m.flag)

namespace TextPage

variable (st : TextStyle) {m : Mirroring} {g : Glyph} {x y X Y : Int}

section Mirrored

variable (hnew : st.font.style.contains m.flag = false)

include hnew

theorem dotOf_mono_mirroredBy {t : GlyphTable UInt8} (ht : t.BitTable) (hs : st.font.sourceOf g = t.monoSource)
    (hscale : (t.scale : Int) = 1) (hplain : st.font.style.Plain) :
    (st.mirroredBy m).dotOf g (plan (st.mirroredBy m) g x y).ink X Y =
      st.dotOf g (plan st g x y).ink (m.column (plan st g x y).ink.w X) (m.row (plan st g x y).ink.h Y) := by
  have hs' : (st.mirroredBy m).font.sourceOf g = t.monoSource := hs
  rw [dotOf_mono ht hs' (m.plain_union hplain), dotOf_mono ht hs hplain]
  cases hglyph : t.glyph? (Glyph.index g) with
  | none => simp [LogicalFont.bitAt, GlyphTable.picture?, hglyph]
  | some e =>
    have hfills := fills_plan ht hs hglyph x y
    have hbold : (plan st g x y).ink.bold = decide (0 < st.font.boldWidth t.monoSource) := by
      rw [← hs]
      rfl
    have hwider : (st.mirroredBy m).font.boldWidth t.monoSource = st.font.boldWidth t.monoSource :=
      LogicalFont.boldWidth_withStyle (m.agree _ (.inl rfl)) _
    simp only [LogicalFont.bitAt, GlyphTable.picture?, hglyph, Option.map_some, Option.any_some, hwider, hscale,
      Int.ediv_one, hfills.width, hfills.height, hbold, Int.mul_one]
    exact congrArg _ (BitPicture.styledBit_union hnew _ _ X Y)

theorem dotOf_grey_mirroredBy {t : GlyphTable UInt8} (ht : t.GreyTable) (hs : st.font.sourceOf g = t.greySource)
    (hscale : (t.scale : Int) = 1) (hcolumns : 0 < (plan st g x y).ink.w) :
    (st.mirroredBy m).dotOf g (plan (st.mirroredBy m) g x y).ink X Y =
      st.dotOf g (plan st g x y).ink (m.column (plan st g x y).ink.w X) (m.row (plan st g x y).ink.h Y) := by
  have hthin : st.font.boldWidth (st.font.sourceOf g) = 0 := by
    rw [hs]
    exact boldWidth_of_ne_mono nofun
  have hbox : (st.font.sourceOf g).box = (t.metricsSource .grey).box := by rw [hs]; rfl
  obtain ⟨e, hglyph, hwide⟩ := exists_glyph? hbox hthin hcolumns
  obtain ⟨hw, hh⟩ := size_plan (x := x) (y := y) hbox hglyph hthin
  have hs' : (st.mirroredBy m).font.sourceOf g = t.greySource := hs
  have hstyle : (st.mirroredBy m).font.style = st.font.style.union m.flag := rfl
  rw [dotOf_grey ht hs' hglyph hwide, dotOf_grey ht hs hglyph hwide, hw, hh, hscale]
  simp only [Int.ediv_one, Int.mul_one]
  rw [hstyle, Mirroring.mirrorX_union hnew, Mirroring.mirrorY_union hnew]

theorem dotOf_colors_mirroredBy {t : GlyphTable Color} (ht : t.ColorTable)
    (hs : st.font.sourceOf g = t.prerenderedSource) (hscale : (t.scale : Int) = 1)
    (hsides : ∀ px, t.prerenderedSource.pixels? st.font.toFontRequest (Glyph.index g) = some px →
      px.width < 2147483648 ∧ px.height < 2147483648)
    (hcolumns : 0 < (plan st g x y).ink.w) :
    (st.mirroredBy m).dotOf g (plan (st.mirroredBy m) g x y).ink X Y =
      st.dotOf g (plan st g x y).ink (m.column (plan st g x y).ink.w X) (m.row (plan st g x y).ink.h Y) := by
  have hthin : st.font.boldWidth (st.font.sourceOf g) = 0 := by
    rw [hs]
    exact boldWidth_of_ne_mono nofun
  have hbox : (st.font.sourceOf g).box = (t.metricsSource .prerendered).box := by rw [hs]; rfl
  obtain ⟨e, hglyph, -⟩ := exists_glyph? hbox hthin hcolumns
  obtain ⟨hw, hh⟩ := size_plan (x := x) (y := y) hbox hglyph hthin
  obtain ⟨hwidth, hheight⟩ := hsides ⟨e.width, t.height, e.data⟩ (congrArg (Option.map _) hglyph)
  have hcols : GlyphPixels.columns ⟨e.width, t.height, e.data⟩ = e.width := GlyphPixels.places_of_lt hwidth
  have hrows : GlyphPixels.rows ⟨e.width, t.height, e.data⟩ = t.height := GlyphPixels.places_of_lt hheight
  have hs' : (st.mirroredBy m).font.sourceOf g = t.prerenderedSource := hs
  have hstyle : (st.mirroredBy m).font.style = st.font.style.union m.flag := rfl
  rw [dotOf_colors ht hs' hglyph, dotOf_colors ht hs hglyph, hw, hh, hscale, hcols, hrows, hstyle,
    Mirroring.mirrorX_union hnew, Mirroring.mirrorY_union hnew, Int.mul_one, Int.mul_one]

/-- A mirrored glyph has the dots of its picture at the mirrored places. -/
theorem dotOf_mirroredBy (hbuilt : (st.font.sourceOf g).BuiltIn) (hscale : (st.font.sourceOf g).scale = 1)
    (hplain : st.font.style.Plain) (hkind : (st.font.sourceOf g).kind ≠ .subpixel)
    (hsides : ∀ px, (st.font.sourceOf g).pixels? st.font.toFontRequest (Glyph.index g) = some px →
      px.width < 2147483648 ∧ px.height < 2147483648)
    (hX : 0 ≤ X ∧ X < (plan st g x y).ink.w) :
    (st.mirroredBy m).dotOf g (plan (st.mirroredBy m) g x y).ink X Y =
      st.dotOf g (plan st g x y).ink (m.column (plan st g x y).ink.w X) (m.row (plan st g x y).ink.h Y) := by
  have hcolumns : 0 < (plan st g x y).ink.w := Int.lt_of_le_of_lt hX.1 hX.2
  have hone : ((st.font.sourceOf g).scale : Int) = 1 := congrArg Nat.cast hscale
  generalize hs : st.font.sourceOf g = s at hbuilt hone hkind hsides
  cases hbuilt with
  | mono ht => exact dotOf_mono_mirroredBy st hnew ht hs hone hplain
  | grey ht => exact dotOf_grey_mirroredBy st hnew ht hs hone hcolumns
  | subpixel => exact absurd rfl hkind
  | prerendered ht => exact dotOf_colors_mirroredBy st hnew ht hs hone hsides hcolumns

end Mirrored

/-- Coverage by channel is not mirrored. -/
theorem dotOf_subpixel_mirroredBy (hbuilt : (st.font.sourceOf g).BuiltIn)
    (hkind : (st.font.sourceOf g).kind = .subpixel) (m : Mirroring)
    (hX : 0 ≤ X ∧ X < (plan st g x y).ink.w) (hY : 0 ≤ Y ∧ Y < (plan st g x y).ink.h) :
    (st.mirroredBy m).dotOf g (plan (st.mirroredBy m) g x y).ink X Y = st.dotOf g (plan st g x y).ink X Y := by
  have hbox : ((st.mirroredBy m).place g x y).box = (st.place g x y).box :=
    st.box_restyled hbuilt.unstyled (m.agree _ (.inl rfl))
  have hX' : 0 ≤ X ∧ X < ((st.mirroredBy m).place g x y).box.w := by rwa [hbox]
  have hY' : 0 ≤ Y ∧ Y < ((st.mirroredBy m).place g x y).box.h := by rwa [hbox]
  have hthin : st.font.boldWidth (st.font.sourceOf g) = 0 := boldWidth_of_ne_mono (by rw [hkind]; decide)
  generalize hs : st.font.sourceOf g = s at hbuilt hkind
  cases hbuilt with
  | mono | grey | prerendered => cases hkind
  | @subpixel t ht =>
    have hbox : (st.font.sourceOf g).box = (t.metricsSource .subpixel).box := by rw [hs]; rfl
    obtain ⟨e, hglyph, -⟩ := exists_glyph? hbox hthin (Int.lt_of_le_of_lt hX.1 hX.2)
    have hs' : (st.mirroredBy m).font.sourceOf g = t.subpixelSource := hs
    rw [dotOf_subpixel hs' hglyph hX' hY', dotOf_subpixel hs hglyph hX hY]

end TextPage

namespace Canvas

/-- Whatever was done before, a glyph that is drawn with a mirroring flag leaves at a visible pixel of its box
what it leaves without the flag at the mirrored pixel, provided that the surface holds the same at both.
Coverage by channel leaves what it leaves without the flag at the pixel itself. -/
theorem drawGlyph_mirrored (surface : Surface) (space : CoordSpace) (commands : List Command) (x y : Int)
    (g : Glyph) (m : Mirroring) (font : LogicalFont) (hbuilt : (font.sourceOf g).BuiltIn)
    (hscale : (font.sourceOf g).scale = 1) (hplain : font.style.Plain)
    (hnew : font.style.contains m.flag = false) (hupright : TextPage.leanWidth font (font.sourceOf g) = 0)
    (hsides : ∀ px, (font.sourceOf g).pixels? font.toFontRequest (Glyph.index g) = some px →
      px.width < 2147483648 ∧ px.height < 2147483648) :
    let c := commands.foldl perform (create surface space)
    c.text.mode = .transparent →
      let plain := c.setFont font
      let mirrored := c.setFont (font.withStyle (font.style.union m.flag))
      let box := plain.glyphBox font x y g
      let drawn (page : Canvas) (X Y : Int) := (page.drawGlyph x y g).1.surface.get? (box.x + X) (box.y + Y)
      let visible (X Y : Int) := 0 ≤ X ∧ X < box.w ∧ 0 ≤ Y ∧ Y < box.h ∧
        c.clip.contains (box.x + X) (box.y + Y) = true
      ∀ X Y, visible X Y →
        if (font.sourceOf g).kind = .subpixel then drawn mirrored X Y = drawn plain X Y
        else
          visible (m.column box.w X) (m.row box.h Y) →
            c.surface.get? (box.x + X) (box.y + Y) =
              c.surface.get? (box.x + m.column box.w X) (box.y + m.row box.h Y) →
            drawn mirrored X Y = drawn plain (m.column box.w X) (m.row box.h Y) := by
  intro c hmode plain mirrored box drawn visible X Y hseen
  by_cases hg : g = Glyph.invalid
  · have hkept (page : Canvas) (X Y : Int) :
        drawn page X Y = page.surface.get? (box.x + X) (box.y + Y) := by
      simp only [drawn, hg, surface_drawGlyph_invalid]
    rw [hkept, hkept, hkept]
    split
    · rfl
    · exact fun _ hsame => hsame
  have hc : Limited surface space c := limited_foldl_perform surface space commands
  have hplainPage : Limited surface space plain := hc.congr rfl (.refl _) rfl
  have hmirroredPage : Limited surface space mirrored := hc.congr rfl (.refl _) rfl
  have hbox : mirrored.glyphBox (font.withStyle (font.style.union m.flag)) x y g = box :=
    (plain.text.styleOf font).box_restyled hbuilt.unstyled (m.agree _ (.inl rfl))
  have hupright' : TextPage.leanWidth (font.withStyle (font.style.union m.flag)) (font.sourceOf g) = 0 :=
    (TextPage.leanWidth_withStyle (m.agree _ (.inr (.inl rfl))) _).trans hupright
  -- what either page makes of a visible pixel of the box
  let st := plain.text.styleOf font
  let dot (st : TextStyle) (X Y : Int) : GlyphDot :=
    let pen := font.baselinePoint c.text.align.vert (c.toScreen x y)
    st.dotOf g (TextPage.plan st g pen.x (pen.y + c.text.lineExtra)).ink X Y
  have hdrawn (X Y : Int) (hseen : visible X Y) : drawn plain X Y =
      (c.surface.get? (box.x + X) (box.y + Y)).map ((dot st X Y).on c.surface.format st ·) :=
    get?_drawGlyph_box hplainPage rfl x y hplain hmode hupright hg ⟨hseen.1, hseen.2.1⟩
      ⟨hseen.2.2.1, hseen.2.2.2.1⟩ hseen.2.2.2.2
  have hdrawn' : drawn mirrored X Y = (c.surface.get? (box.x + X) (box.y + Y)).map
      ((dot (st.mirroredBy m) X Y).on c.surface.format st ·) := by
    have h := get?_drawGlyph_box (X := X) (Y := Y) hmirroredPage rfl x y (m.plain_union hplain) hmode
      hupright' hg
    rw [hbox] at h
    exact h ⟨hseen.1, hseen.2.1⟩ ⟨hseen.2.2.1, hseen.2.2.2.1⟩ hseen.2.2.2.2
  split
  next hkind =>
    rw [hdrawn X Y hseen, hdrawn']
    have hdot : dot (st.mirroredBy m) X Y = dot st X Y :=
      TextPage.dotOf_subpixel_mirroredBy st hbuilt hkind m ⟨hseen.1, hseen.2.1⟩
        ⟨hseen.2.2.1, hseen.2.2.2.1⟩
    rw [hdot]
  next hkind =>
    intro hseen' hsame
    have hdot : dot (st.mirroredBy m) X Y = dot st (m.column box.w X) (m.row box.h Y) :=
      TextPage.dotOf_mirroredBy st hnew hbuilt hscale hplain hkind hsides ⟨hseen.1, hseen.2.1⟩
    rw [hdrawn _ _ hseen', hdrawn', hdot, hsame]

/-- A table with a dot of full coverage by channel beside one of none. -/
def pairTable : GlyphTable UInt8 :=
  (GlyphTable.ofSubpixel? "pair" 1 1 0 #[⟨2, #[255, 255, 255, 0, 0, 0]⟩]).get (by decide)

/-- The grey square as a page with a font in a style. -/
def styledPage (s : GlyphSource) (style : FontStyle) : Canvas :=
  (dotPage s).setFont ((LogicalFont.ofSource s).withStyle style)

/-- The left dot of the pair, drawn without the flag, is drawn on the left with it as well. -/
theorem drawGlyph_unmirrored :
    let s := pairTable.subpixelSource
    let plain := styledPage s .regular
    let mirrored := styledPage s .flipHorz
    plain.glyphBox (.ofSource s) 0 0 0 = ⟨0, 0, 2, 1⟩ ∧
      plain.clip.contains 0 0 = true ∧ plain.clip.contains 1 0 = true ∧
      plain.surface.get? 0 0 = some 0x80 ∧ plain.surface.get? 1 0 = some 0x80 ∧
      (plain.drawGlyph 0 0 0).1.surface.get? 1 0 = some 0x80 ∧
      (mirrored.drawGlyph 0 0 0).1.surface.get? 0 0 = some 0 := by
  refine ⟨?_, ?_, ?_, ?_, ?_, ?_, ?_⟩
  all_goals decide

/-- A table with a dot of full grey coverage beside one of none. -/
def shadeTable : GlyphTable UInt8 :=
  (GlyphTable.ofGrey? "shade" 1 1 0 #[⟨2, #[255, 0]⟩]).get (by decide)

/-- A table with a bit set above a clear one. -/
def postTable : GlyphTable UInt8 :=
  (GlyphTable.ofPackedBits? "post" 1 2 2 0 #[0x80, 0]).get (by decide)

/-- The grey dot comes to lie on the right, the widened bit at the bottom, and the pair stays as it is. -/
theorem drawGlyph_mirrored_dots :
    ((styledPage shadeTable.greySource .flipHorz).drawGlyph 0 0 0).1.surface.get? 1 0 = some 0 ∧
      ((styledPage postTable.monoSource (.union .bold .flipVert)).drawGlyph 0 0 0).1.surface.get? 1 1 = some 0 ∧
      ((styledPage pairTable.subpixelSource .flipHorz).drawGlyph 0 0 0).1.surface.get? 0 0 = some 0 := by
  have hshade : shadeTable.greySource.BuiltIn := .grey (.made ⟨_, _, _, _, _, (Option.some_get _).symm⟩)
  have hpost : postTable.monoSource.BuiltIn := .mono (.made (.packed (Option.some_get _).symm))
  have hpair : pairTable.subpixelSource.BuiltIn := .subpixel (.made ⟨_, _, _, _, _, (Option.some_get _).symm⟩)
  refine ⟨?_, ?_, ?_⟩
  · calc ((styledPage shadeTable.greySource .flipHorz).drawGlyph 0 0 0).1.surface.get? 1 0
      _ = ((styledPage shadeTable.greySource .regular).drawGlyph 0 0 0).1.surface.get? 0 0 :=
        drawGlyph_mirrored greySquare (.screen greySquare.rect)
          (inkCommands greySquare (.ofSource shadeTable.greySource)) 0 0 0 .leftRight
          (.ofSource shadeTable.greySource) hshade rfl (by decide) (by decide) (by decide) nofun
          rfl 1 0 (by decide) (by decide) (by decide)
      _ = some 0 := by decide
  · calc ((styledPage postTable.monoSource (.union .bold .flipVert)).drawGlyph 0 0 0).1.surface.get? 1 1
      _ = ((styledPage postTable.monoSource .bold).drawGlyph 0 0 0).1.surface.get? 1 0 :=
        drawGlyph_mirrored greySquare (.screen greySquare.rect)
          (inkCommands greySquare (.ofSource postTable.monoSource)) 0 0 0 .topBottom
          ((LogicalFont.ofSource postTable.monoSource).withStyle .bold) hpost rfl (by decide) (by decide)
          (by decide) nofun rfl 1 1 (by decide) (by decide) (by decide)
      _ = some 0 := by decide
  · calc ((styledPage pairTable.subpixelSource .flipHorz).drawGlyph 0 0 0).1.surface.get? 0 0
      _ = ((styledPage pairTable.subpixelSource .regular).drawGlyph 0 0 0).1.surface.get? 0 0 :=
        drawGlyph_mirrored greySquare (.screen greySquare.rect)
          (inkCommands greySquare (.ofSource pairTable.subpixelSource)) 0 0 0 .leftRight
          (.ofSource pairTable.subpixelSource) hpair rfl (by decide) (by decide) (by decide) nofun
          rfl 0 0 (by decide)
      _ = some 0 := by decide

end Canvas

end Rasterizer
