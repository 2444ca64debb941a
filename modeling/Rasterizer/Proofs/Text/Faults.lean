import Rasterizer.Proofs.Canvas.Commands
import Rasterizer.Proofs.Font.BuiltIn
import Rasterizer.Proofs.Text.Ink
import Rasterizer.Proofs.Text.Pictures

/-! # Texts that end

Drawing a text can only fail where the picture of a glyph is made ready (`TextPage.drawText_error`); what
draws a picture asks how far its bytes and the rows of the background go. The pictures of the built-in
fonts have all their rows, and rows that hold their bits, so nothing is looked for outside of them. What
is left is a picture without columns that is mirrored left to right: it has no bytes to split into rows
(`Canvas.drawText_fails`). Apart from that a text in a built-in font is drawn to its end
(`Canvas.drawText_ends`). -/

namespace Rasterizer

/-- A step fails on rows of no bytes only, and only if `P`. -/
def FailsOnlyIf {α : Type} (P : Prop) (x : Except Fault α) : Prop :=
  ∀ e, x = .error e → e = .emptyRows ∧ P

section Steps

variable {α β : Type} {P : Prop} {x : Except Fault α} {f : α → Except Fault β}

theorem failsOnlyIf_pure (a : α) : FailsOnlyIf P (.ok a : Except Fault α) := fun _ h => nomatch h

theorem FailsOnlyIf.bind (hx : FailsOnlyIf P x) (hf : ∀ a, x = .ok a → FailsOnlyIf P (f a)) :
    FailsOnlyIf P (x >>= f) := by
  intro e h
  cases hxa : x with
  | error e' =>
    rw [hxa] at h
    cases h
    exact hx _ hxa
  | ok a =>
    rw [hxa] at h
    exact hf a hxa e h

theorem FailsOnlyIf.mono {Q : Prop} (hx : FailsOnlyIf P x) (h : P → Q) : FailsOnlyIf Q x :=
  fun e he => ⟨(hx e he).1, h (hx e he).2⟩

end Steps

/-! ## Pictures -/

theorem bitPitch_eq_zero {w : Int} : bitPitch w = 0 ↔ w ≤ 0 := by
  rw [bitPitch]
  omega

section Flips

variable {data : Array UInt8} {w h : Int} {pitch bpp : Nat}

theorem failsOnlyIf_flipBits (hpitch : pitch = bitPitch w) :
    FailsOnlyIf (w ≤ 0) (flipBits data w h pitch) := by
  intro e he
  simp only [flipBits] at he
  split at he
  next hzero =>
    cases he
    exact ⟨rfl, bitPitch_eq_zero.mp (hpitch ▸ hzero)⟩
  next =>
    split at he
    next hrow =>
      rw [hpitch, bitPitch] at hrow
      omega
    next => cases he

theorem failsOnlyIf_flipPixels (hpitch : pitch = w.toNat * bpp) :
    FailsOnlyIf (w.toNat * bpp = 0) (flipPixels data w h pitch bpp) := by
  intro e he
  simp only [flipPixels] at he
  split at he
  next hzero =>
    cases he
    exact ⟨rfl, hpitch ▸ hzero⟩
  next =>
    split at he
    next hrow => omega
    next => cases he

end Flips

namespace TextStyle

variable {st : TextStyle} {g : Glyph} {ink : InkBox} {bmp : GlyphBitmap} {scale : Int} {n rows : Nat}

/-- Only mirroring left to right can fail, if all rows are there. -/
theorem failsOnlyIf_mirrored {columns : Array UInt8 → Except Fault (Array UInt8)} {data : Array UInt8}
    {P : Prop} {h : Int} {pitch : Nat} (hcolumns : FailsOnlyIf P (columns data))
    (hsize : ∀ data', columns data = .ok data' → data'.size = data.size)
    (hrows : h.toNat * pitch ≤ data.size) :
    FailsOnlyIf (st.font.style.contains .flipHorz = true ∧ P)
      (st.mirrored columns (flipRows · h pitch) data) := by
  rw [mirrored_eq]
  refine .bind ?_ fun data' hdata' => ?_
  · split
    next hflip => exact hcolumns.mono fun hP => ⟨hflip, hP⟩
    next => exact failsOnlyIf_pure data
  · have hkept : data'.size = data.size := by
      split at hdata'
      · exact hsize data' hdata'
      · cases hdata'
        rfl
    split
    · obtain ⟨rows, hflip⟩ := exists_flipRows (hkept.symm ▸ hrows)
      rw [hflip]
      exact failsOnlyIf_pure rows
    · exact failsOnlyIf_pure data'

theorem failsOnlyIf_bitsImage (hscale : 1 ≤ scale) (hfills : bmp.Fills n rows ink scale) :
    FailsOnlyIf (st.font.style.contains .flipHorz = true ∧ n = 0 ∧ ink.bold = false)
      (st.bitsImage bmp scale ink) := by
  obtain ⟨packed, height, left, hpacked, hwhole, hnone⟩ := exists_packedRows st hscale hfills
  rw [bitsImage, hpacked]
  change FailsOnlyIf _ (st.mirrored (flipBits · packed.width height packed.pitch)
    (flipRows · height packed.pitch) packed.data >>= _)
  refine .bind ?_ fun data _ => failsOnlyIf_pure _
  exact (failsOnlyIf_mirrored (failsOnlyIf_flipBits hwhole.pitch) (fun _ => size_flipBits)
    hwhole.size).mono fun h => ⟨h.1, hnone h.2⟩

theorem failsOnlyIf_greyImage (hscale : 1 ≤ scale) (hpitch : bmp.pitch = n)
    (hsize : bmp.data.size = n * rows) (hwidth : ink.w = n * scale) (hheight : ink.h = rows * scale) :
    FailsOnlyIf (st.font.style.contains .flipHorz = true ∧ n = 0) (st.greyImage bmp scale ink) := by
  have hw : ink.w.tdiv scale = n := by rw [hwidth, Int.mul_tdiv_cancel _ (by omega)]
  have hh : ink.h.tdiv scale = rows := by rw [hheight, Int.mul_tdiv_cancel _ (by omega)]
  simp only [greyImage, hw, hh, hpitch]
  refine .bind ?_ fun data _ => failsOnlyIf_pure _
  refine (failsOnlyIf_mirrored (failsOnlyIf_flipPixels ?_) (fun _ => size_flipPixels) ?_).mono
    fun h => ⟨h.1, ?_⟩
  · rw [Int.toNat_natCast, Nat.mul_one]
  · rw [hsize, Int.toNat_natCast, Nat.mul_comm]
  · have := h.2
    rwa [Int.toNat_natCast, Nat.mul_one] at this

end TextStyle

namespace GlyphPixels

theorem places_le (side : Nat) : places side ≤ side := by
  rw [places, wrap32, Int.bmod_def]
  split <;> omega

theorem size_flipColumns (px : GlyphPixels) : px.flipColumns.pixels.size = px.pixels.size := by
  rw [flipColumns]
  split
  · rfl
  · exact Array.size_mapIdx

theorem sides_flipColumns (px : GlyphPixels) :
    px.flipColumns.rows = px.rows ∧ px.flipColumns.columns = px.columns := by
  rw [flipColumns]
  split <;> exact ⟨rfl, rfl⟩

/-- A picture whose pixels are all there can be mirrored. -/
theorem exists_flipped (px : GlyphPixels) (hsize : px.pixels.size = px.width * px.height)
    (style : FontStyle) : ∃ px', px.flipped style = .ok px' := by
  have hall : px.rows * px.columns ≤ px.pixels.size := by
    rw [hsize, Nat.mul_comm]
    exact Nat.mul_le_mul (places_le px.width) (places_le px.height)
  have hflip : ∀ px' : GlyphPixels, px'.rows * px'.columns ≤ px'.pixels.size →
      ∃ pixels, flipRows px'.pixels px'.rows px'.columns = .ok pixels :=
    fun px' hall => exists_flipRows (by rwa [Int.toNat_natCast])
  rw [flipped]
  split
  next =>
    obtain ⟨pixels, hpixels⟩ : ∃ pixels, flipRows
        (if style.contains .flipHorz then px.flipColumns else px).pixels
        (if style.contains .flipHorz then px.flipColumns else px).rows
        (if style.contains .flipHorz then px.flipColumns else px).columns = .ok pixels := by
      apply hflip
      split
      · rw [(sides_flipColumns px).1, (sides_flipColumns px).2, size_flipColumns]
        exact hall
      · exact hall
    rw [hpixels]
    exact ⟨_, rfl⟩
  next => exact ⟨_, rfl⟩

end GlyphPixels

/-- A glyph whose picture is to be mirrored left to right, and has no columns. -/
structure LacksColumns (f : LogicalFont) (g : Glyph) : Prop where
  mirrored : f.style.contains .flipHorz = true
  kind : (f.sourceOf g).kind = .mono ∨ (f.sourceOf g).kind = .grey
  known : (f.sourceOf g).hasGlyph (Glyph.index g) = true
  narrow : ((f.sourceOf g).box f.toFontRequest (Glyph.index g)).w = 0
  thin : f.boldWidth (f.sourceOf g) = 0

namespace TextPage

variable {st : TextStyle} {g : Glyph}

theorem boldWidth_nonneg (f : LogicalFont) (s : GlyphSource) : 0 ≤ f.boldWidth s := by
  rw [LogicalFont.boldWidth]
  split <;> omega

/-- Bits alone are widened. -/
theorem boldWidth_of_ne_mono {f : LogicalFont} {s : GlyphSource} (h : s.kind ≠ .mono) : f.boldWidth s = 0 := by
  simp [LogicalFont.boldWidth, h]

theorem failsOnlyIf_image?_bits {t : GlyphTable UInt8} (h : t.BitTable)
    (hs : st.font.sourceOf g = t.monoSource) (x y : Int) :
    FailsOnlyIf (LacksColumns st.font g) (st.image? g (plan st g x y).ink) := by
  have hscale := h.rowSize_eq.2
  rw [TextStyle.image?_monoSource h hs]
  cases hglyph : t.glyph? (Glyph.index g) with
  | none => exact failsOnlyIf_pure _
  | some e =>
    refine .bind ((TextStyle.failsOnlyIf_bitsImage (by omega) (fills_plan h hs hglyph x y)).mono ?_)
      fun _ _ => failsOnlyIf_pure _
    rintro ⟨hmirrored, hnone, hthin⟩
    refine ⟨hmirrored, .inl (by rw [hs]; rfl), ?_, ?_, ?_⟩
    · simp [hs, GlyphTable.monoSource, GlyphTable.metricsSource, hglyph]
    · simp [hs, GlyphTable.monoSource, GlyphTable.metricsSource, GlyphTable.widthOf, hglyph, hnone]
    · have hle : st.font.boldWidth (st.font.sourceOf g) ≤ 0 := by
        simpa [plan, TextStyle.place] using hthin
      exact le_antisymm hle (boldWidth_nonneg _ _)

theorem failsOnlyIf_image?_grey {t : GlyphTable UInt8} (h : t.GreyTable)
    (hs : st.font.sourceOf g = t.greySource) (x y : Int) :
    FailsOnlyIf (LacksColumns st.font g) (st.image? g (plan st g x y).ink) := by
  have hscale := h.rowSize_eq.2
  have hmax : max (t.scale : Int) 1 = t.scale := by omega
  have hthin : st.font.boldWidth (st.font.sourceOf g) = 0 := by
    rw [hs]
    exact boldWidth_of_ne_mono nofun
  simp only [TextStyle.image?, hs, GlyphTable.greySource, GlyphTable.metricsSource, GlyphTable.bitmap?, hmax]
  cases hglyph : t.glyph? (Glyph.index g) with
  | none => exact failsOnlyIf_pure _
  | some e =>
    have hsize := GlyphTable.size_of_glyph? hglyph
    rw [h.rowSize_eq.1] at hsize
    have hwidth : (plan st g x y).ink.w = e.width * t.scale := by
      simp only [plan, TextStyle.place, hthin]
      simp [hs, GlyphTable.greySource, GlyphTable.metricsSource, GlyphTable.widthOf, hglyph]
    have hheight : (plan st g x y).ink.h = t.height * t.scale := by
      simp [plan, TextStyle.place, hs, GlyphTable.greySource, GlyphTable.metricsSource]
    refine .bind ((TextStyle.failsOnlyIf_greyImage (by omega) (by simp [h.rowSize_eq.1]) hsize hwidth
      hheight).mono ?_) fun _ _ => failsOnlyIf_pure _
    rintro ⟨hmirrored, hnone⟩
    refine ⟨hmirrored, .inr (by rw [hs]; rfl), ?_, ?_, hthin⟩
    · simp [hs, GlyphTable.greySource, GlyphTable.metricsSource, hglyph]
    · simp [hs, GlyphTable.greySource, GlyphTable.metricsSource, GlyphTable.widthOf, hglyph, hnone]

theorem exists_image?_colors {t : GlyphTable Color} (h : t.ColorTable)
    (hs : st.font.sourceOf g = t.prerenderedSource) (ink : InkBox) :
    ∃ image, st.image? g ink = .ok image := by
  simp only [TextStyle.image?, hs, GlyphTable.prerenderedSource, GlyphTable.metricsSource]
  cases hglyph : t.glyph? (Glyph.index g) with
  | none => exact ⟨_, rfl⟩
  | some e =>
    have hsize := GlyphTable.size_of_glyph? hglyph
    rw [h.rowSize_eq.1] at hsize
    obtain ⟨px, hpx⟩ := GlyphPixels.exists_flipped ⟨e.width, t.height, e.data⟩ hsize st.font.style
    simp only [Option.map_some, hpx]
    exact ⟨_, rfl⟩

/-- In a built-in font the picture of a glyph is made ready, unless it is mirrored and lacks columns. -/
theorem failsOnlyIf_image? (hbuilt : (st.font.sourceOf g).BuiltIn) (x y : Int) :
    FailsOnlyIf (LacksColumns st.font g) (st.image? g (plan st g x y).ink) := by
  generalize hs : st.font.sourceOf g = s at hbuilt
  cases hbuilt with
  | mono h => exact failsOnlyIf_image?_bits h hs x y
  | grey h => exact failsOnlyIf_image?_grey h hs x y
  | @subpixel t h =>
    simp only [TextStyle.image?, hs, GlyphTable.subpixelSource, GlyphTable.metricsSource, GlyphTable.bitmap?]
    cases t.glyph? (Glyph.index g) with
    | none => exact failsOnlyIf_pure _
    | some e => exact failsOnlyIf_pure _
  | prerendered h =>
    obtain ⟨image, himage⟩ := exists_image?_colors h hs (plan st g x y).ink
    rw [himage]
    exact failsOnlyIf_pure image

/-! ## Drawing -/

variable {page : TextPage} {x y : Int} {e : Fault}

/-- A glyph can only fail where its picture is made ready. -/
theorem drawGlyph_error (h : (page.drawGlyph st g x y).2 = .error e) :
    ∃ x' y', st.image? g (plan st g x' y').ink = .error e := by
  have hdrawn := drawn_drawGlyph page st g x y
  generalize page.drawGlyph st g x y = result at hdrawn h
  cases hdrawn with
  | invalid | hidden => cases h
  | seen =>
    simp only [drawPlanned] at h
    split at h
    next hink =>
      cases h
      refine ⟨x, y + st.lineExtra, ?_⟩
      obtain ⟨loaded, -, hdraw⟩ := exists_drawInk_eq st g (plan st g x (y + st.lineExtra)).rc
        (plan st g x (y + st.lineExtra)).ink _ page.scratch
      rw [hdraw] at hink
      split at hink
      · split at hink
        next himage => cases hink; exact himage
        next => cases hink
        next => cases hink
      · cases hink
    next => cases h

theorem drawFrom_error {glyphs : List Glyph} {total : Advance}
    (h : (drawFrom st x y glyphs total page).2 = .error e) :
    ∃ g ∈ glyphs, ∃ x' y', st.image? g (plan st g x' y').ink = .error e := by
  induction glyphs generalizing total page with
  | nil => cases h
  | cons g glyphs ih =>
    rw [drawFrom] at h
    split at h
    next hglyph =>
      cases h
      exact ⟨g, List.mem_cons_self .., drawGlyph_error (congrArg Prod.snd hglyph)⟩
    next =>
      obtain ⟨g', hg', himage⟩ := ih h
      exact ⟨g', List.mem_cons_of_mem _ hg', himage⟩

/-- So does a text. -/
theorem drawText_error {glyphs : List Glyph} (h : (page.drawText st glyphs x y).2 = .error e) :
    ∃ g ∈ glyphs, ∃ x' y', st.image? g (plan st g x' y').ink = .error e := drawFrom_error h

end TextPage

namespace Canvas

/-- A text in built-in fonts is drawn to its end, unless a glyph of it is mirrored and has no columns. -/
theorem drawText_ends (c : Canvas) (hbuilt : ∀ font ∈ c.text.font, font.BuiltIn) (x y : Int)
    (glyphs : List Glyph) :
    (∃ a, (c.drawText x y glyphs).2 = .ok a) ∨
      (c.drawText x y glyphs).2 = .error .emptyRows ∧
        ∃ font ∈ c.text.font, ∃ g ∈ glyphs, LacksColumns font g := by
  cases hend : (c.drawText x y glyphs).2 with
  | ok a => exact .inl ⟨a, rfl⟩
  | error e =>
    refine .inr ?_
    simp only [drawText] at hend
    split at hend
    next font bound hfont hbound =>
      obtain ⟨g, hg, x', y', himage⟩ := TextPage.drawText_error hend
      obtain ⟨rfl, hlacks⟩ :=
        TextPage.failsOnlyIf_image? ((hbuilt font hfont).sourceOf g) x' y' e himage
      exact ⟨rfl, font, hfont, g, hg, hlacks⟩
    next => cases hend

/-- A table with one glyph of two rows without columns. -/
def blankTable : GlyphTable UInt8 :=
  ⟨"blank", 2, 2, 0, 1, .regular, #[⟨0, #[]⟩], GlyphTable.bitRowSize, by decide, by decide⟩

theorem bitTable_blankTable : blankTable.BitTable :=
  .made (.varying (show Picture.varying "blank" 2 0 [[[], []]] = .ok (some blankTable) from rfl))

/-- A canvas with the blank table as its font. -/
def blankPage (style : FontStyle) : Canvas :=
  (greyPage 1 2 .regular barGlyph).setFont ((LogicalFont.ofSource blankTable.monoSource).withStyle style)

theorem builtIn_blankPage (style : FontStyle) : ∀ font ∈ (blankPage style).text.font, font.BuiltIn := by
  rintro font ⟨⟩
  exact ⟨.mono bitTable_blankTable, fun _ h => nomatch h⟩

/-- The blank glyph has room to lean, so that its picture is looked at. -/
theorem drawText_fails :
    (∀ font ∈ (blankPage (.union .italic .flipHorz)).text.font, font.BuiltIn) ∧
      ((blankPage (.union .italic .flipHorz)).drawText 0 0 [0]).2 = .error .emptyRows :=
  ⟨builtIn_blankPage _, by decide⟩

/-- In bold the blank glyph is one column wide, and its text ends. -/
theorem drawText_ends_blank :
    (∀ font ∈ (blankPage (.union .bold (.union .italic .flipHorz))).text.font, font.BuiltIn) ∧
      ∃ a, ((blankPage (.union .bold (.union .italic .flipHorz))).drawText 0 0 [0]).2 = .ok a := by
  have hbuilt := builtIn_blankPage (.union .bold (.union .italic .flipHorz))
  refine ⟨hbuilt, (drawText_ends _ hbuilt 0 0 [0]).resolve_right ?_⟩
  rintro ⟨-, font, ⟨⟩, g, hg, hlacks⟩
  cases List.mem_singleton.mp hg
  exact absurd hlacks.thin (by decide)

end Canvas

end Rasterizer
