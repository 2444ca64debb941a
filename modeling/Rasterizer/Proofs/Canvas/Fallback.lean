import Rasterizer.Proofs.Canvas.GlyphDots
import Rasterizer.Proofs.Text.Restyled

/-! # Weights that fall back

A glyph that asks for the book or the light weight and is drawn in the regular one paints the pixels that it
paints without asking, but where the room around its ink begins: one column to the left and one row up
(`drawGlyph_fallback`, `drawGlyph_displaced`). -/

namespace Rasterizer

variable {weight : FontStyle} {st : TextStyle} {g : Glyph} {ink ink' : InkBox} {x y X Y : Int}

/-- The flags of the book and the light weight do not show in others. -/
theorem FontStyle.agree_weight (hweight : weight = .book ∨ weight = .light) {flags : FontStyle}
    (h : (FontStyle.book.union .light).bits &&& flags.bits = 0) (style : FontStyle) :
    Agree flags style (style.remove weight) := by
  refine agree_remove ?_ style
  have hpart : weight.bits &&& (FontStyle.book.union .light).bits = weight.bits := by
    rcases hweight with rfl | rfl <;> decide
  rw [← hpart, UInt32.and_assoc, h, UInt32.and_zero]

/-- The text with a weight taken from its style. -/
def TextStyle.without (st : TextStyle) (weight : FontStyle) : TextStyle :=
  st.restyled (st.font.style.remove weight)

namespace TextStyle

/-- The picture depends on the weight by the way in which it is drawn alone. -/
theorem image?_without (hweight : weight = .book ∨ weight = .light) (hs : (st.font.sourceOf g).Unstyled)
    (hkind : (st.font.sourceOf g).kind = .mono) (hsame : (st.without weight).inkWeight = st.inkWeight)
    (hw : ink'.w = ink.w) (hh : ink'.h = ink.h) (hbold : ink'.bold = ink.bold) :
    (st.without weight).image? g ink' = st.image? g ink := by
  have hsource : (st.without weight).font.sourceOf g = st.font.sourceOf g := rfl
  have hrequest : (st.without weight).font.toFontRequest =
      { st.font.toFontRequest with style := st.font.style.remove weight } := rfl
  have hagree (flags : FontStyle) (h : (FontStyle.book.union .light).bits &&& flags.bits = 0) :
      FontStyle.Agree flags st.font.style (st.font.style.remove weight) := FontStyle.agree_weight hweight h _
  simp only [image?, hsource, hkind, hrequest, hs.mono?, bitsImage, packedRows, mirrored, hsame, hw, hh, hbold,
    FontStyle.flips, (hagree (.union .flipHorz .flipVert) (by decide)).intersects,
    (hagree .flipHorz (by decide)).contains, (hagree .flipVert (by decide)).contains]
  rfl

/-- A weight that cannot be drawn falls back to the regular one. -/
theorem inkWeight_of_fallback (hasks : st.font.style.contains weight = true)
    (hcannot : weight = .book ∧ st.ramps.book = none ∨ weight = .light ∧ st.textColor = st.background)
    (hregular : (st.without weight).inkWeight = .regular) : st.inkWeight = .regular := by
  rcases hcannot with ⟨rfl, hnone⟩ | ⟨rfl, hsame⟩
  · rw [inkWeight, if_pos hasks, hnone]
    rfl
  · have hbook : FontStyle.Agree .book st.font.style (st.font.style.remove .light) :=
      FontStyle.agree_remove (by decide) _
    simp only [inkWeight, without, restyled, LogicalFont.withStyle, hbook.contains] at hregular
    simp only [inkWeight, hasks, hsame, if_true, ne_eq, not_true_eq_false, if_false]
    cases hcontains : st.font.style.contains .book with
    | true =>
      rw [hcontains, if_pos rfl] at hregular
      exact hregular
    | false => rfl

end TextStyle

namespace TextPage

/-- The picture of a glyph begins where its box does, or in the room around it. -/
theorem origin_plan (st : TextStyle) (g : Glyph) (x y : Int) :
    let box := (st.place g x y).box
    let room : Int := if st.font.hasHalo (st.font.sourceOf g) then 1 else 0
    (plan st g x y).ink.origin = ⟨box.x - room, box.y - room⟩ := by
  simp only [plan, inkRect]
  cases st.font.hasHalo (st.font.sourceOf g) <;> simp [Rect.ofSize, Rect.inflate]

/-- Without the weight the picture begins where its room did not, unless there is room all the same. -/
theorem origin_without (st : TextStyle) (hweight : weight = .book ∨ weight = .light)
    (hs : (st.font.sourceOf g).Unstyled) (hkind : (st.font.sourceOf g).kind = .mono)
    (hasks : st.font.style.contains weight = true) (x y : Int) :
    let d : Int := if (st.without weight).font.hasHalo (st.font.sourceOf g) then 0 else 1
    (plan (st.without weight) g x y).ink.origin =
      ⟨(plan st g x y).ink.origin.x + d, (plan st g x y).ink.origin.y + d⟩ := by
  have hbox : ((st.without weight).place g x y).box = (st.place g x y).box :=
    st.box_restyled hs (FontStyle.agree_weight hweight (by decide) _)
  have hroom : st.font.hasHalo (st.font.sourceOf g) = true := hasHalo_of_contains hkind
    (hweight.imp (fun h : weight = .book => h ▸ hasks) fun h : weight = .light => h ▸ hasks)
  have hsource : (st.without weight).font.sourceOf g = st.font.sourceOf g := rfl
  rw [origin_plan, origin_plan, hbox, hroom, hsource]
  cases (st.without weight).font.hasHalo (st.font.sourceOf g) <;> simp

theorem dotOf_without (st : TextStyle) (hweight : weight = .book ∨ weight = .light)
    (hs : (st.font.sourceOf g).Unstyled) (hkind : (st.font.sourceOf g).kind = .mono)
    (hsame : (st.without weight).inkWeight = st.inkWeight) (x y X Y : Int) :
    (st.without weight).dotOf g (plan (st.without weight) g x y).ink X Y =
      st.dotOf g (plan st g x y).ink X Y := by
  have hbold : FontStyle.Agree .bold st.font.style (st.font.style.remove weight) :=
    FontStyle.agree_weight hweight (by decide) _
  have hbox := st.box_restyled (x := x) (y := y) hs hbold
  have hwider : (st.without weight).font.boldWidth (st.font.sourceOf g) =
      st.font.boldWidth (st.font.sourceOf g) := LogicalFont.boldWidth_withStyle hbold _
  have himage : (st.without weight).image? g (plan (st.without weight) g x y).ink =
      st.image? g (plan st g x y).ink :=
    TextStyle.image?_without hweight hs hkind hsame (congrArg GlyphBox.w hbox) (congrArg GlyphBox.h hbox)
      (congrArg (fun extra : Int => decide (0 < extra)) hwider)
  rw [TextStyle.dotOf, TextStyle.dotOf, himage]

/-- The picture of packed bits has dots in the box of the glyph alone, and they are ink. -/
theorem dotOf_bits (st : TextStyle) (hkind : (st.font.sourceOf g).kind = .mono) (ink : InkBox) (X Y : Int) :
    st.dotOf g ink X Y = .blank ∨
      st.dotOf g ink X Y = .ink ∧ 0 ≤ X ∧ X < ink.w ∧ 0 ≤ Y ∧ Y < ink.h := by
  rw [TextStyle.dotOf]
  split
  next image himage =>
    cases TextStyle.pictured_of_image? himage with
    | grey data pitch h | channels data pitch h | colors h => rw [hkind] at h; cases h
    | @bits bmp rows height left data _ hrows =>
      obtain ⟨hleft, hwidth, hheight, -⟩ := TextStyle.packedRows_fit (by omega) hrows
      rw [GlyphImage.dotAt, GlyphDot.ofBit]
      split
      next hbit =>
        obtain ⟨hX, hX', hY, hY'⟩ := BitPicture.inside_of_bit hbit
        rw [Int.le_ediv_iff_mul_le (by omega)] at hX hY
        rw [Int.ediv_lt_iff_lt_mul (by omega)] at hX' hY'
        exact .inr ⟨rfl, by omega, by dsimp only at hX'; omega, by omega, by dsimp only at hY'; omega⟩
      next => exact .inl rfl
  next => exact .inl rfl

/-- The ink of an upright glyph of packed bits fits. -/
theorem inkFits_of_bits (hkind : (st.font.sourceOf g).kind = .mono)
    (hupright : leanWidth st.font (st.font.sourceOf g) = 0) : InkFits st g := by
  intro x₀ y₀ image himage p hp back x y hout
  cases TextStyle.pictured_of_image? himage with
  | grey data pitch h | channels data pitch h | colors h => rw [hkind] at h; cases h
  | bits data _ hrows =>
    have hslant : (plan st g x₀ y₀).ink.slant.leans = false := by simp [plan, hupright]
    refine get?_drawBits data (by omega) hkind hrows (Slant.within_of_upright hslant _) hp back rfl
      fun hin => ?_
    rw [(contains_rc_plan st g x₀ y₀ x y).mpr (by rwa [hupright])] at hout
    cases hout

/-- The ink rectangle of an upright glyph holds its picture. -/
theorem contains_rc_of_box {x₀ y₀ : Int} (hupright : leanWidth st.font (st.font.sourceOf g) = 0)
    {ink : InkBox} (hink : (plan st g x₀ y₀).ink = ink)
    (hX : 0 ≤ x - ink.origin.x ∧ x - ink.origin.x < ink.w)
    (hY : 0 ≤ y - ink.origin.y ∧ y - ink.origin.y < ink.h) : (plan st g x₀ y₀).rc.contains x y = true := by
  subst hink
  refine (contains_rc_plan st g x₀ y₀ x y).mpr ?_
  rw [hupright]
  exact ⟨by omega, by omega, by omega, by omega⟩

end TextPage

/-- No value is stored as every other. -/
theorem PixelFormat.exists_kept_ne (f : PixelFormat) (p : Pixel) : ∃ v, f.kept v ≠ f.kept p := by
  have hone : 1 < 256 ^ f.bytesPerPixel :=
    Nat.one_lt_pow (Nat.ne_of_gt f.one_le_bytesPerPixel) (by decide)
  have hkept0 : f.kept 0 = 0 := kept_of_lt (show 0 < _ by omega)
  have hkept1 : f.kept 1 = 1 := kept_of_lt hone
  by_cases h : f.kept p = 0
  · exact ⟨1, by rw [hkept1, h]; decide⟩
  · exact ⟨0, by rw [hkept0]; exact Ne.symm h⟩

namespace Canvas

/-- A glyph changes a pixel of some surface. -/
def Paints (c : Canvas) (x y : Int) (g : Glyph) (x' y' : Int) : Prop :=
  ∃ s, c.surface.SameShape s ∧
    (({ c with surface := s } : Canvas).drawGlyph x y g).1.surface.get? x' y' ≠ s.get? x' y'

variable {surface : Surface} {space : CoordSpace} {c : Canvas} {font : LogicalFont} {x' y' : Int}

/-- The ink of packed bits in the regular weight paints the visible pixels of its dots. -/
theorem paints_iff (hc : Limited surface space c) (hfont : c.text.font = some font)
    (honly : (c.text.styleOf font).InkOnly) (hg : g ≠ Glyph.invalid)
    (hkind : (font.sourceOf g).kind = .mono) (hupright : TextPage.leanWidth font (font.sourceOf g) = 0)
    (hregular : (c.text.styleOf font).inkWeight = .regular) (hin : c.clip.contains x' y' = true) :
    c.Paints x y g x' y' ↔ (c.text.styleOf font).dotOf g (c.glyphPlan font x y g).ink
      (x' - (c.glyphPlan font x y g).ink.origin.x) (y' - (c.glyphPlan font x y g).ink.origin.y) = .ink := by
  let ink := (c.glyphPlan font x y g).ink
  change _ ↔ (c.text.styleOf font).dotOf g ink (x' - ink.origin.x) (y' - ink.origin.y) = .ink
  have hpage {s : Surface} (hs : c.surface.SameShape s) : Limited surface space { c with surface := s } :=
    hc.congr rfl hs rfl
  have hdrawn {s : Surface} (hs : c.surface.SameShape s)
      (hrc : (c.glyphPlan font x y g).rc.contains x' y' = true) :
      (({ c with surface := s } : Canvas).drawGlyph x y g).1.surface.get? x' y' = (s.get? x' y').map
        (((c.text.styleOf font).dotOf g ink (x' - ink.origin.x) (y' - ink.origin.y)).on s.format
          (c.text.styleOf font) ·) :=
    get?_drawGlyph_dot (hpage hs) hfont x y honly hg hupright (fun _ => hregular) hin hrc
  have hdots := TextPage.dotOf_bits (c.text.styleOf font) hkind ink (x' - ink.origin.x)
    (y' - ink.origin.y)
  constructor
  · rintro ⟨s, hs, hne⟩
    have hrc : (c.glyphPlan font x y g).rc.contains x' y' = true := by
      by_contra hout
      exact hne (get?_drawGlyph_unseen (hpage hs) hfont x y honly (TextPage.inkFits_of_bits hkind hupright)
        fun h => hout h.2)
    refine (hdots.resolve_left fun hblank => hne ?_).1
    rw [hdrawn hs hrc, hblank]
    exact Option.map_id'
  · intro hink
    obtain ⟨-, hX, hX', hY, hY'⟩ := hdots.resolve_left fun hblank => by rw [hblank] at hink; cases hink
    have hrc : (c.glyphPlan font x y g).rc.contains x' y' = true :=
      TextPage.contains_rc_of_box hupright rfl ⟨hX, hX'⟩ ⟨hY, hY'⟩
    obtain ⟨v, hv⟩ := c.surface.format.exists_kept_ne c.text.color
    have hread : c.surface.get? x' y' ≠ none := fun hnone => by
      rw [Surface.get?_eq_none_iff, (hc.exists_bound hin).1] at hnone
      cases hnone
    obtain ⟨old, hold⟩ := Option.ne_none_iff_exists'.mp hread
    refine ⟨c.surface.put x' y' v, Surface.sameShape_put .., ?_⟩
    have hformat : (c.surface.put x' y' v).format = c.surface.format := (Surface.sameShape_put ..).format
    rw [hdrawn (Surface.sameShape_put ..) hrc, hink, hformat, Surface.get?_put, if_pos ⟨rfl, rfl⟩, hold]
    exact fun h => hv (Option.some.inj h).symm

theorem not_paints_invalid (c : Canvas) (x y x' y' : Int) : ¬c.Paints x y Glyph.invalid x' y' := by
  rintro ⟨s, -, hne⟩
  exact hne (congrArg (·.get? x' y') (surface_drawGlyph_invalid { c with surface := s } x y))

/-- Whatever was done before, an upright glyph of bits that asks for a weight which cannot be drawn paints the
pixels that it paints without asking. They lie one column to the left and one row up, unless the other of
the two weights is asked for as well. -/
theorem drawGlyph_fallback (surface : Surface) (space : CoordSpace) (commands : List Command) (x y : Int)
    (g : Glyph) (font : LogicalFont) (weight : FontStyle) (hs : (font.sourceOf g).Unstyled)
    (hkind : (font.sourceOf g).kind = .mono) (hupright : TextPage.leanWidth font (font.sourceOf g) = 0)
    (hunlined : font.style.intersects (FontStyle.underline.union .struckOut) = false)
    (hasks : font.style.contains weight = true) :
    let c := commands.foldl perform (create surface space)
    let other := font.withStyle (font.style.remove weight)
    let asking := c.setFont font
    let plain := c.setFont other
    c.text.mode = .transparent →
      (weight = .book ∧ PixelFormat.alphaCompanion? c.surface.format.bytesPerPixel = none ∨
        weight = .light ∧ c.text.color = c.text.background) →
      (plain.text.styleOf other).inkWeight = .regular →
      let d : Int := if other.hasHalo (font.sourceOf g) then 0 else 1
      ∀ x' y', c.clip.contains x' y' = true → c.clip.contains (x' + d) (y' + d) = true →
        (asking.Paints x y g x' y' ↔ plain.Paints x y g (x' + d) (y' + d)) := by
  intro c other asking plain hmode hcannot hregular d x' y' hin hin'
  by_cases hg : g = Glyph.invalid
  · subst hg
    exact iff_of_false (not_paints_invalid _ _ _ _ _) (not_paints_invalid _ _ _ _ _)
  have hc : Limited surface space c := limited_foldl_perform surface space commands
  have hweight : weight = .book ∨ weight = .light := hcannot.imp And.left And.left
  have hagree {flags : FontStyle} (h : (FontStyle.book.union .light).bits &&& flags.bits = 0) :
      FontStyle.Agree flags font.style other.style := FontStyle.agree_weight hweight h _
  let st := asking.text.styleOf font
  have hasked : st.inkWeight = .regular := by
    refine TextStyle.inkWeight_of_fallback hasks (hcannot.imp_left fun h => ⟨h.1, ?_⟩) hregular
    change (PixelFormat.alphaCompanion? c.surface.format.bytesPerPixel).map _ = none
    rw [h.2]
    rfl
  have honly : st.InkOnly := ⟨show (c.text.mode == .transparent) = true by rw [hmode]; rfl, hunlined⟩
  have hunlined' : other.style.intersects (FontStyle.underline.union .struckOut) = false :=
    (hagree (by decide)).intersects.trans hunlined
  have hupright' : TextPage.leanWidth other (font.sourceOf g) = 0 :=
    (TextPage.leanWidth_withStyle (hagree (by decide)) _).trans hupright
  have hasking : Limited surface space asking := hc.congr rfl (.refl _) rfl
  have hplain : Limited surface space plain := hc.congr rfl (.refl _) rfl
  rw [paints_iff hasking rfl honly hg hkind hupright hasked hin,
    paints_iff hplain rfl ⟨honly.transparent, hunlined'⟩ hg hkind hupright' hregular hin']
  -- the same picture begins `d` pixels further to the left and further up
  let pen := font.baselinePoint c.text.align.vert (c.toScreen x y)
  let base := pen.y + c.text.lineExtra
  let origin := (TextPage.plan st g pen.x base).ink.origin
  have horigin : (plain.glyphPlan other x y g).ink.origin = ⟨origin.x + d, origin.y + d⟩ :=
    TextPage.origin_without st hweight hs hkind hasks pen.x base
  have hdot : (plain.text.styleOf other).dotOf g (plain.glyphPlan other x y g).ink (x' - origin.x)
      (y' - origin.y) = st.dotOf g (asking.glyphPlan font x y g).ink (x' - origin.x) (y' - origin.y) :=
    TextPage.dotOf_without st hweight hs hkind (hregular.trans hasked.symm) pen.x base _ _
  rw [horigin, add_sub_add_right_eq_sub, add_sub_add_right_eq_sub, hdot]
  rfl

/-- A table with one bit, which is set. -/
def speckTable : GlyphTable UInt8 := (GlyphTable.ofPackedBits? "speck" 1 1 1 0 #[0x80]).get (by decide)

def speckFont (style : FontStyle) : LogicalFont :=
  (LogicalFont.ofSource speckTable.monoSource).withStyle style

/-- A surface of two rows and two columns in a format that nothing is blended in. -/
def indexedSquare : Surface := ⟨2, 2, .indexed8, Array.replicate 4 0x80, rfl⟩

/-- A page of the grey square on which the text has the colour of its background. -/
def matchedPage (style : FontStyle) : Canvas := (inkPage greySquare (speckFont style)).setBackground 0

/-- A speck that asks for a weight which cannot be drawn paints the pixel that it does not paint without
asking, and does not paint the one that it paints. -/
theorem drawGlyph_displaced :
    (let page := inkPage indexedSquare (speckFont .book)
      let plain := inkPage indexedSquare (speckFont .regular)
      PixelFormat.alphaCompanion? page.surface.format.bytesPerPixel = none ∧
        page.Paints 1 1 0 0 0 ∧ ¬page.Paints 1 1 0 1 1 ∧ plain.Paints 1 1 0 1 1) ∧
      let page := matchedPage .light
      let plain := matchedPage .regular
      page.text.color = page.text.background ∧
        page.Paints 1 1 0 0 0 ∧ ¬page.Paints 1 1 0 1 1 ∧ plain.Paints 1 1 0 1 1 := by
  have hbook : Limited indexedSquare (.screen indexedSquare.rect) (inkPage indexedSquare (speckFont .book)) :=
    limited_foldl_perform _ _ _
  have hlight : Limited greySquare (.screen greySquare.rect) (matchedPage .light) :=
    (limited_foldl_perform greySquare _ (inkCommands greySquare (speckFont .light))).congr rfl (.refl _) rfl
  refine ⟨⟨rfl, ⟨_, .refl _, by decide⟩, ?_, ⟨_, .refl _, by decide⟩⟩, rfl, ⟨_, .refl _, by decide⟩, ?_,
    ⟨_, .refl _, by decide⟩⟩
  · rw [paints_iff hbook rfl ⟨rfl, rfl⟩ (by decide) rfl rfl rfl (by decide)]
    decide
  · rw [paints_iff hlight rfl ⟨rfl, rfl⟩ (by decide) rfl rfl rfl (by decide)]
    decide

/-- The speck is painted where it is displaced to. -/
theorem drawGlyph_fallback_speck :
    ((inkPage indexedSquare (speckFont .regular)).setFont (speckFont .book)).Paints 1 1 0 0 0 :=
  (drawGlyph_fallback indexedSquare (.screen indexedSquare.rect)
    (inkCommands indexedSquare (speckFont .regular)) 1 1 0 (speckFont .book) .book
    (GlyphSource.BuiltIn.mono (.made (.packed (Option.some_get _).symm))).unstyled rfl rfl rfl (by decide) rfl
    (.inl ⟨rfl, rfl⟩) rfl 0 0 (by decide) (by decide)).mpr ⟨_, .refl _, by decide⟩

end Canvas

end Rasterizer
