import Rasterizer.Proofs.Text.Subpixel

/-! # Where the ink of a glyph lies

The kind of its source settles how a glyph is drawn (`TextStyle.Pictured`). A glyph is drawn inside its
ink rectangle, also where the book and the light weight surround it, unless its pixels exceed its box
or its slant takes it out of there (`TextPage.inkFits_of_upright`, `TextPage.inkFits_of_stands`). -/

namespace Rasterizer

namespace TextStyle

/-! ## Pictures -/

/-- The pictures of a glyph, in the kinds of sources. -/
inductive Pictured (st : TextStyle) (g : Glyph) (ink : InkBox) : GlyphImage → Prop where
  | bits {bmp : GlyphBitmap} {rows : PackedRows} {height left : Int} (data : Array UInt8)
      (hkind : (st.font.sourceOf g).kind = .mono)
      (hrows : st.packedRows bmp (max (st.font.sourceOf g).scale 1) ink = .ok (rows, height, left)) :
      Pictured st g ink (.bits ⟨data, rows.pitch, rows.width, height⟩ st.inkWeight left)
  | grey (data : Array UInt8) (pitch : Nat) (hkind : (st.font.sourceOf g).kind = .grey) :
      Pictured st g ink (.grey ⟨data, pitch, ink.w.tdiv (max (st.font.sourceOf g).scale 1),
        ink.h.tdiv (max (st.font.sourceOf g).scale 1)⟩ (max (st.font.sourceOf g).scale 1))
  | channels (data : Array UInt8) (pitch : Nat) (hkind : (st.font.sourceOf g).kind = .subpixel) :
      Pictured st g ink (.channels ⟨data, pitch, ink.w, ink.h⟩)
  | colors {px px' : GlyphPixels} (hkind : (st.font.sourceOf g).kind = .prerendered)
      (hpx : (st.font.sourceOf g).pixels? st.font.toFontRequest (Glyph.index g) = some px)
      (hsize : px'.width = px.width ∧ px'.height = px.height) :
      Pictured st g ink (.colors px')

variable {st : TextStyle} {g : Glyph} {ink : InkBox} {image : GlyphImage}

theorem size_flipped {px px' : GlyphPixels} {style : FontStyle} (h : px.flipped style = .ok px') :
    px'.width = px.width ∧ px'.height = px.height := by
  have hcolumns : (if style.contains .flipHorz then px.flipColumns else px).width = px.width ∧
      (if style.contains .flipHorz then px.flipColumns else px).height = px.height := by
    rw [GlyphPixels.flipColumns]
    split
    · split <;> exact ⟨rfl, rfl⟩
    · exact ⟨rfl, rfl⟩
  simp only [GlyphPixels.flipped] at h
  split at h
  · obtain ⟨pixels, -, h⟩ := Fault.bind_eq_ok.mp h
    cases h
    exact hcolumns
  · cases h
    exact hcolumns

theorem pictured_of_image? (h : st.image? g ink = .ok (some image)) : st.Pictured g ink image := by
  simp only [image?] at h
  cases hkind : (st.font.sourceOf g).kind with
  | mono =>
    cases hbmp : (st.font.sourceOf g).mono? st.font.toFontRequest (Glyph.index g) with
    | none => simp only [hkind, hbmp] at h; cases h
    | some bmp =>
      simp only [hkind, hbmp] at h
      obtain ⟨image', himage, h⟩ := Fault.bind_eq_ok.mp h
      obtain ⟨⟨rows, height, left⟩, hrows, himage⟩ := Fault.bind_eq_ok.mp himage
      obtain ⟨data, -, himage⟩ := Fault.bind_eq_ok.mp himage
      cases himage
      cases h
      exact .bits data hkind hrows
  | grey =>
    cases hbmp : (st.font.sourceOf g).grey? st.font.toFontRequest (Glyph.index g) with
    | none => simp only [hkind, hbmp] at h; cases h
    | some bmp =>
      simp only [hkind, hbmp] at h
      obtain ⟨image', himage, h⟩ := Fault.bind_eq_ok.mp h
      obtain ⟨data, -, himage⟩ := Fault.bind_eq_ok.mp himage
      cases himage
      cases h
      exact .grey data bmp.pitch hkind
  | subpixel =>
    cases hbmp : (st.font.sourceOf g).grey? st.font.toFontRequest (Glyph.index g) with
    | none => simp only [hkind, hbmp] at h; cases h
    | some bmp =>
      simp only [hkind, hbmp] at h
      cases h
      exact .channels bmp.data bmp.pitch hkind
  | prerendered =>
    cases hpx : (st.font.sourceOf g).pixels? st.font.toFontRequest (Glyph.index g) with
    | none => simp only [hkind, hpx] at h; cases h
    | some px =>
      simp only [hkind, hpx] at h
      obtain ⟨px', hflipped, h⟩ := Fault.bind_eq_ok.mp h
      cases h
      exact .colors hkind hpx (size_flipped hflipped)

end TextStyle

/-! ## Ink -/

namespace Painter

variable {p : Painter}

theorem tool_mark (hp : p.frame.Sound) (m : Mark) : (p.mark m).tool = p.tool := by
  cases m with
  | span x1 x2 y v => exact (draws_spanOf hp x1 x2 y v).tool
  | pixel x y v => exact (draws_pixelOf hp x y v).tool
  | blend x y c => exact (draws_blend hp x y c).tool

theorem tool_foldl {α : Type} {f : Painter → α → Painter} (hf : ∀ a, Masked fun p => f p a)
    (htool : ∀ p a, p.frame.Sound → (f p a).tool = p.tool) (hp : p.frame.Sound) (as : List α) :
    (as.foldl f p).tool = p.tool := by
  induction as generalizing p with
  | nil => rfl
  | cons a as ih => exact (ih (((hf a).confined hp).frame ▸ hp)).trans (htool p a hp)

theorem tool_markAll (hp : p.frame.Sound) (ms : List Mark) : (p.markAll ms).tool = p.tool :=
  tool_foldl masked_mark (fun _ m hp => tool_mark hp m) hp ms

theorem tool_drawChannels (hp : p.frame.Sound) (c : CoveragePicture) (origin : Point) (text : Color) :
    (c.drawChannels p origin text).tool = p.tool :=
  tool_foldl (fun row => masked_drawChannelRow c origin text row)
    (fun _ _ hp => tool_foldl (fun _ : Nat => masked_drawMixed _ _ text _ _ _)
      (fun _ _ hp => (draws_drawMixed hp _ _ text _ _ _).tool) hp _) hp _

theorem tool_drawImage (st : TextStyle) (hp : p.frame.Sound) (back : Scratch) (ink : InkBox)
    (image : GlyphImage) : (st.drawImage p back ink image).1.tool = p.tool := by
  cases image with
  | bits b weight scale =>
    cases weight with
    | regular => exact tool_markAll hp _
    | book =>
      rw [TextStyle.drawImage]
      cases st.ramps.book with
      | none => rfl
      | some ramp => exact tool_markAll hp _
    | light => exact tool_markAll hp _
    | subpixel =>
      rw [TextStyle.drawImage]
      by_cases hroom : back.hasRoom b.w.toNat = true
      · rw [SubpixelWeight.draw_eq_markAll _ _ _ _ _ hp hroom]
        exact tool_markAll hp _
      · rw [SubpixelWeight.draw, if_neg hroom]
  | grey c scale => exact tool_markAll hp _
  | channels c => exact tool_drawChannels hp c _ _
  | colors px =>
    rw [TextStyle.drawImage]
    generalize px.marks p.surface.format ink.origin = ms
    exact tool_markAll hp ms

end Painter

/-! ## Marks of slanted pictures -/

/-- The first rows of a picture are moved to the right, and by `lean` columns at most. -/
def Slant.Within (slant : Slant) (rows lean : Int) : Prop :=
  ∀ row, 0 ≤ row → row < rows → 0 ≤ slant.shift row ∧ slant.shift row ≤ lean

theorem Slant.Within.mono {slant : Slant} {rows rows' lean : Int} (h : slant.Within rows lean)
    (hrows : rows' ≤ max rows 0) : slant.Within rows' lean :=
  fun row hrow hrow' => h row hrow (by omega)

theorem Slant.within_of_upright {slant : Slant} (h : slant.leans = false) (rows : Int) :
    slant.Within rows 0 := by
  intro row _ _
  rw [Slant.shift, h]
  exact ⟨Int.le_refl 0, Int.le_refl 0⟩

/-- A slanted picture keeps within its lean, if its last row is no lower than the baseline. -/
theorem Slant.within_of_ascent {slant : Slant} {rows height : Int} (hmirrored : slant.mirrored = false)
    (hrows : rows ≤ slant.ascent + 1) (hheight : slant.ascent ≤ height) :
    slant.Within rows (height / 2) := by
  intro row hrow hrow'
  rw [Slant.shift, hmirrored]
  split <;> simp <;> omega

/-- Mirrored once, its rows are moved back from the end of its advance, the last one least. -/
theorem Slant.within_of_advance {slant : Slant} {rows height : Int} (hmirrored : slant.mirrored = true)
    (hheight : 0 ≤ height) (hfirst : slant.ascent / 2 ≤ slant.advance)
    (hlast : slant.advance - (slant.ascent - rows + 1) / 2 ≤ height / 2) :
    slant.Within rows (height / 2) := by
  intro row hrow hrow'
  rw [Slant.shift, hmirrored]
  split <;> simp <;> omega

theorem sum_runLengths (bs : List Bool) : ((runLengths bs).map Prod.snd).sum = bs.length := by
  fun_induction runLengths bs with
  | case1 => rfl
  | case2 bs c n rest heq ih => simp_all; omega
  | case3 b bs c n rest heq hne ih => simp_all; omega
  | case4 b bs heq ih => simp_all; omega

variable {m : Mark} {origin : Point} {slant : Slant} {x y lean : Int}

namespace RegularWeight

variable {scale row : Int} {text : Pixel}

theorem touches_runMarks (hscale : 1 ≤ scale) (hrow : 0 ≤ row)
    (hslant : slant.Within (row * scale + scale) lean) {k : Int} {n : Nat} (hn : 0 < n)
    (hm : m ∈ runMarks origin scale row slant text k n) (htouch : m.Touches x y) :
    origin.x + k * scale ≤ x ∧ x < origin.x + k * scale + n * scale + lean ∧
      origin.y + row * scale ≤ y ∧ y < origin.y + row * scale + scale := by
  obtain ⟨i, hi, rfl⟩ := List.mem_map.mp hm
  rw [mem_irange] at hi
  have htop := Int.mul_nonneg hrow (show 0 ≤ scale by omega)
  have hshift := hslant (row * scale + i) (by omega) (by omega)
  simp only [Mark.Touches] at htouch
  have := Int.mul_le_mul_of_nonneg_right (show 1 ≤ (n : Int) by omega) (show 0 ≤ scale by omega)
  omega

theorem touches_rowMarks (hscale : 1 ≤ scale) (hrow : 0 ≤ row)
    (hslant : slant.Within (row * scale + scale) lean) {runs : List (Bool × Nat)} (hruns : ∀ r ∈ runs, 0 < r.2)
    {k : Int} (hm : m ∈ rowMarks origin scale row slant text k runs) (htouch : m.Touches x y) :
    origin.x + k * scale ≤ x ∧ x < origin.x + (k + (runs.map Prod.snd).sum) * scale + lean ∧
      origin.y + row * scale ≤ y ∧ y < origin.y + row * scale + scale := by
  induction runs generalizing k with
  | nil => cases hm
  | cons r rest ih =>
    obtain ⟨hr, hrest⟩ := List.forall_mem_cons.mp hruns
    have hnonneg := Int.mul_nonneg (Int.natCast_nonneg (rest.map Prod.snd).sum) (show 0 ≤ scale by omega)
    have hwidth := Int.mul_nonneg (Int.natCast_nonneg r.2) (show 0 ≤ scale by omega)
    rw [List.map_cons, List.sum_cons, Int.natCast_add, Int.add_mul, Int.add_mul]
    rw [rowMarks, List.mem_append] at hm
    rcases hm with hm | hm
    · split at hm
      · have := touches_runMarks hscale hrow hslant hr hm htouch
        omega
      · cases hm
    · have := ih hrest hm
      simp only [Int.add_mul] at this
      omega

theorem touches_marks {b : BitPicture} (hslant : slant.Within (b.h * max scale 1) lean)
    (hm : m ∈ marks b scale origin slant text) (htouch : m.Touches x y) :
    0 < b.w * max scale 1 ∧ origin.x ≤ x ∧ x < origin.x + b.w * max scale 1 + lean ∧
      origin.y ≤ y ∧ y < origin.y + b.h * max scale 1 := by
  obtain ⟨i, hi, hm⟩ := List.mem_flatMap.mp hm
  rw [BitPicture.rowNumbers, mem_irange] at hi
  have hrow : b.row i = .ofPicture b.data b.pitch i.toNat b.w := if_neg (by omega)
  have hbits : (b.row i).bits.length = b.w.toNat := by simp [hrow, BitRow.bits, BitRow.ofPicture]
  have hw : 0 < b.w := by
    by_contra hw
    rw [BitRow.runs, List.eq_nil_of_length_eq_zero (by omega : (b.row i).bits.length = 0)] at hm
    cases hm
  have hpos : ∀ r ∈ (b.row i).runs, 0 < r.2 := fun r => pos_of_mem_runLengths
  have hwidth := Int.mul_pos hw (show 0 < max scale 1 by omega)
  have htop := Int.mul_nonneg hi.1 (show 0 ≤ max scale 1 by omega)
  have hbottom := Int.mul_le_mul_of_nonneg_right (show i + 1 ≤ b.h by omega) (show 0 ≤ max scale 1 by omega)
  rw [Int.add_mul, Int.one_mul] at hbottom
  have hin := touches_rowMarks (by omega) hi.1 (hslant.mono (by omega)) hpos hm htouch
  rw [BitRow.runs, sum_runLengths, hbits, show (0 : Int) + b.w.toNat = b.w by omega] at hin
  omega

end RegularWeight

theorem mem_haloMarks {h : Int} {rowMarks : (row x y : Int) → (beyond : Bool) → List Mark}
    (hm : m ∈ haloMarks h origin slant rowMarks) :
    ∃ i y beyond, 0 ≤ i ∧ i < h ∧ origin.y ≤ y ∧ y ≤ origin.y + h + 1 ∧
      m ∈ rowMarks i (origin.x + slant.shift i) y beyond := by
  obtain ⟨i, hi, hm⟩ := List.mem_flatMap.mp hm
  rw [mem_irange] at hi
  dsimp only at hm
  split at hm
  · rcases List.mem_append.mp hm with hm | hm
    · exact ⟨i, _, _, by omega, by omega, by omega, by omega, hm⟩
    · exact ⟨i, _, _, by omega, by omega, by omega, by omega, hm⟩
  · split at hm
    · rcases List.mem_append.mp hm with hm | hm
      · exact ⟨i, _, _, by omega, by omega, by omega, by omega, hm⟩
      · exact ⟨i, _, _, by omega, by omega, by omega, by omega, hm⟩
    · exact ⟨i, _, _, by omega, by omega, by omega, by omega, hm⟩

theorem BookWeight.touches_marks {b : BitPicture} {ramp : Array Color} (hslant : slant.Within b.h lean)
    (hm : m ∈ marks b origin slant ramp) (htouch : m.Touches x y) :
    0 < b.w ∧ 0 < b.h ∧ origin.x ≤ x ∧ x < origin.x + b.w + lean ∧ origin.y ≤ y ∧
      y ≤ origin.y + b.h + 1 := by
  obtain ⟨i, y', beyond, hi, hi', hy, hy', hm⟩ := mem_haloMarks hm
  have hshift := hslant i hi hi'
  obtain ⟨k, hk, hm⟩ := List.mem_filterMap.mp hm
  rw [mem_irange] at hk
  dsimp only at hm
  split at hm
  · cases hm
  · cases hm
    simp only [Mark.Touches] at htouch
    omega

theorem LightWeight.touches_rowMarks {w x₀ y₀ : Int} {cur prev next : BitRow} {background text : Pixel}
    (hm : m ∈ rowMarks w x₀ y₀ cur prev next background text) (htouch : m.Touches x y) :
    0 < w ∧ x₀ ≤ x ∧ x ≤ x₀ + w + 1 ∧ y = y₀ := by
  rcases List.mem_append.mp hm with hm | hm
  · obtain ⟨k, hk, hm⟩ := List.mem_flatMap.mp hm
    rw [mem_irange] at hk
    have hpixel : ∀ v x', x₀ ≤ x' → x' ≤ x₀ + w + 1 → m = .pixel x' y₀ v →
        0 < w ∧ x₀ ≤ x ∧ x ≤ x₀ + w + 1 ∧ y = y₀ := by
      rintro v x' hx hx' rfl
      simp only [Mark.Touches] at htouch
      omega
    split at hm
    · rcases List.mem_append.mp hm with hm | hm
      · split at hm
        · exact hpixel _ _ (by omega) (by omega) (List.mem_singleton.mp hm)
        · cases hm
      · exact hpixel _ _ (by omega) (by omega) (List.mem_singleton.mp hm)
    · split at hm
      · exact hpixel _ _ (by omega) (by omega) (List.mem_singleton.mp hm)
      · cases hm
  · split at hm
    next hlast =>
      simp only [BitRow.get, Bool.and_eq_true, decide_eq_true_eq] at hlast
      cases List.mem_singleton.mp hm
      simp only [Mark.Touches] at htouch
      omega
    next => cases hm

theorem LightWeight.touches_marks {b : BitPicture} {background text : Pixel}
    (hslant : slant.Within b.h lean) (hm : m ∈ marks b origin slant background text) (htouch : m.Touches x y) :
    0 < b.w ∧ 0 < b.h ∧ origin.x ≤ x ∧ x ≤ origin.x + b.w + lean + 1 ∧ origin.y ≤ y ∧
      y ≤ origin.y + b.h + 1 := by
  obtain ⟨i, y', beyond, hi, hi', hy, hy', hm⟩ := mem_haloMarks hm
  have hshift := hslant i hi hi'
  split at hm
  · have := touches_rowMarks hm htouch
    omega
  · have := touches_rowMarks hm htouch
    omega

theorem SubpixelWeight.touches_marks {b : BitPicture} {text outside : Color} {s : Surface}
    (hslant : slant.Within b.h lean)
    (hm : m ∈ b.rowNumbers.flatMap (marksOn b origin slant text outside s)) (htouch : m.Touches x y) :
    0 < b.w ∧ origin.x ≤ x ∧ x < origin.x + b.w + lean ∧ origin.y ≤ y ∧ y < origin.y + b.h := by
  obtain ⟨i, hi, hm⟩ := List.mem_flatMap.mp hm
  rw [BitPicture.rowNumbers, mem_irange] at hi
  have hshift := hslant i hi.1 (by omega)
  have := touches_of_mem_marksOn hm htouch
  omega

namespace CoveragePicture

theorem touches_levelMarks {ramp : GreyRamp} {level : Nat} {scale left y₀ : Int} (hscale : 1 ≤ scale)
    (hm : m ∈ levelMarks ramp level scale left y₀) (htouch : m.Touches x y) :
    left ≤ x ∧ x < left + scale ∧ y = y₀ := by
  cases ramp with
  | opaquePixels r =>
    cases List.mem_singleton.mp hm
    simp only [Mark.Touches] at htouch
    omega
  | blended r =>
    obtain ⟨k, hk, rfl⟩ := List.mem_map.mp hm
    rw [mem_irange] at hk
    simp only [Mark.Touches] at htouch
    omega

theorem touches_greyMarks {c : CoveragePicture} {scale : Int} {ramp : GreyRamp}
    (hslant : slant.Within (c.h * max scale 1) lean) (hm : m ∈ c.greyMarks scale origin slant ramp)
    (htouch : m.Touches x y) :
    0 < c.w * max scale 1 ∧ origin.x ≤ x ∧ x < origin.x + c.w * max scale 1 + lean ∧
      origin.y ≤ y ∧ y < origin.y + c.h * max scale 1 := by
  obtain ⟨row, hrow, hm⟩ := List.mem_flatMap.mp hm
  obtain ⟨k, hk, hm⟩ := List.mem_flatMap.mp hm
  rw [mem_irange] at hrow
  rw [List.mem_range] at hk
  dsimp only at hm
  split at hm
  · cases hm
  · obtain ⟨i, hi, hm⟩ := List.mem_flatMap.mp hm
    rw [mem_irange] at hi
    have := touches_levelMarks (by omega) hm htouch
    have hscale : 0 ≤ max scale 1 := by omega
    have hleft := Int.mul_nonneg (Int.natCast_nonneg k) hscale
    have hright := Int.mul_le_mul_of_nonneg_right (show (k : Int) + 1 ≤ c.w by omega) hscale
    have htop := Int.mul_nonneg hrow.1 hscale
    have hbottom := Int.mul_le_mul_of_nonneg_right (show row + 1 ≤ c.h by omega) hscale
    rw [Int.add_mul, Int.one_mul] at hright hbottom
    have hshift := hslant (row * max scale 1 + i) (by omega) (by omega)
    omega

end CoveragePicture

theorem GlyphPixels.touches_marks {px : GlyphPixels} {format : PixelFormat}
    (hm : m ∈ px.marks format origin) (htouch : m.Touches x y) :
    origin.x ≤ x ∧ x < origin.x + px.columns ∧ origin.y ≤ y ∧ y < origin.y + px.rows := by
  obtain ⟨i, hi, hm⟩ := List.mem_filterMap.mp hm
  rw [List.mem_range] at hi
  have hcolumns : 0 < px.columns := Nat.pos_of_ne_zero fun h => by simp [h] at hi
  have hx := Nat.mod_lt i hcolumns
  have hy : i / px.columns < px.rows := Nat.div_lt_of_lt_mul (by omega)
  rw [colorMark?] at hm
  generalize i % px.columns = column at *
  generalize i / px.columns = row at *
  split at hm
  · cases hm
  · split at hm <;> cases hm <;> simp only [Mark.Touches] at htouch <;> omega

/-- The places of a box that is wider by its lean and has a halo around it. -/
def InkBox.Holds (ink : InkBox) (lean : Int) (halo : Nat) (x y : Int) : Prop :=
  ink.origin.x ≤ x ∧ x < ink.origin.x + ink.w + lean + halo ∧
    ink.origin.y ≤ y ∧ y < ink.origin.y + ink.h + halo

namespace TextPage

/-- Drawn as planned, by any painter, the ink changes nothing outside of the rectangle that it is to
fill. -/
def InkStays (st : TextStyle) (g : Glyph) (pl : GlyphPlan) : Prop :=
  ∀ image, st.image? g pl.ink = .ok (some image) → ∀ p : Painter, p.frame.Sound → ∀ back x y,
    pl.rc.contains x y = false →
      (st.drawImage p back pl.ink image).1.surface.get? x y = p.surface.get? x y

/-- The ink of a glyph fits, wherever the pen is. -/
def InkFits (st : TextStyle) (g : Glyph) : Prop := ∀ x y, InkStays st g (plan st g x y)

/-! ## Glyphs that fit -/

variable {st : TextStyle} {g : Glyph}

theorem contains_rc_plan (st : TextStyle) (g : Glyph) (x₀ y₀ x y : Int) :
    let pl := plan st g x₀ y₀
    let lean := leanWidth st.font (st.font.sourceOf g)
    let halo := if st.font.hasHalo (st.font.sourceOf g) then 2 else 0
    pl.rc.contains x y = true ↔ pl.ink.Holds lean halo x y := by
  simp only [plan, inkRect, Rect.contains_iff, InkBox.Holds]
  cases st.font.hasHalo (st.font.sourceOf g) with
  | true => simp [Rect.ofSize, Rect.inflate]; omega
  | false => simp [Rect.ofSize]; omega

theorem hasHalo_of_contains (hkind : (st.font.sourceOf g).kind = .mono)
    (hasks : st.font.style.contains .book = true ∨ st.font.style.contains .light = true) :
    st.font.hasHalo (st.font.sourceOf g) = true := by
  rw [LogicalFont.hasHalo, hkind]
  rcases hasks with hbook | hlight
  · exact FontStyle.intersects_union hbook _
  · rw [FontStyle.union_comm]
    exact FontStyle.intersects_union hlight _

theorem hasHalo_of_inkWeight (hkind : (st.font.sourceOf g).kind = .mono)
    (hweight : st.inkWeight = .book ∨ st.inkWeight = .light) :
    st.font.hasHalo (st.font.sourceOf g) = true := by
  refine hasHalo_of_contains hkind ?_
  rw [TextStyle.inkWeight] at hweight
  cases hbook : st.font.style.contains .book with
  | true => exact .inl rfl
  | false =>
    cases hlight : st.font.style.contains .light with
    | true => exact .inr rfl
    | false =>
      simp only [hbook, hlight, Bool.false_eq_true, if_false] at hweight
      split at hweight <;> simp at hweight

theorem get?_drawChannels {p : Painter} (hp : p.frame.Sound) (c : CoveragePicture) {origin : Point}
    (text : Color) {x y : Int} (hout : ¬(origin.x ≤ x ∧ x < origin.x + c.w ∧ origin.y ≤ y ∧
      y < origin.y + c.h)) :
    (c.drawChannels p origin text).surface.get? x y = p.surface.get? x y := by
  refine Painter.get?_foldl (fun row => Painter.masked_drawChannelRow c origin text row)
    (fun q hq row hrow => ?_) hp
  refine Painter.get?_foldl (fun k : Nat => Painter.masked_drawMixed _ _ text _ _ _)
    (fun q' hq' k hk => ?_) hq
  rw [mem_irange] at hrow
  rw [List.mem_range] at hk
  exact (Painter.draws_drawMixed hq' _ _ text _ _ _).get?_of_none fun v => if_neg (by omega)

section Drawn

variable {ink : InkBox} {lean : Int} {halo : Nat} {p : Painter} {x y : Int}

/-- Bits are drawn inside their box, its lean and the halo around it. -/
theorem get?_drawBits {bmp : GlyphBitmap} {scale : Int} {rows : PackedRows} {height left : Int}
    (data : Array UInt8) (hscale : 1 ≤ scale) (hkind : (st.font.sourceOf g).kind = .mono)
    (hrows : st.packedRows bmp scale ink = .ok (rows, height, left)) (hslant : ink.slant.Within ink.h lean)
    (hp : p.frame.Sound) (back : Scratch)
    (hhalo : halo = if st.font.hasHalo (st.font.sourceOf g) then 2 else 0)
    (hout : ¬ink.Holds lean halo x y) :
    (st.drawImage p back ink (.bits ⟨data, rows.pitch, rows.width, height⟩ st.inkWeight left)).1.surface.get?
      x y = p.surface.get? x y := by
  obtain ⟨hleft, hwidth, hheight, hone⟩ := TextStyle.packedRows_fit hscale hrows
  have hweights : st.inkWeight = .book ∨ st.inkWeight = .light →
      st.font.hasHalo (st.font.sourceOf g) = true := hasHalo_of_inkWeight hkind
  cases hweight : st.inkWeight with
  | regular =>
    refine Painter.get?_markAll_of_not_touches hp fun m hm htouch => hout ?_
    have := RegularWeight.touches_marks (hslant.mono (by dsimp only; rwa [max_eq_left hleft])) hm htouch
    rw [max_eq_left hleft] at this
    simp only [InkBox.Holds] at this ⊢
    omega
  | book =>
    rw [hone (by simp [hweight]), Int.mul_one] at hwidth hheight
    rw [hweights (.inl hweight), if_pos rfl] at hhalo
    rw [TextStyle.drawImage]
    cases st.ramps.book with
    | none => rfl
    | some ramp =>
      refine Painter.get?_markAll_of_not_touches hp fun m hm htouch => hout ?_
      have := BookWeight.touches_marks (hslant.mono hheight) hm htouch
      simp only [InkBox.Holds] at this ⊢
      omega
  | light =>
    rw [hone (by simp [hweight]), Int.mul_one] at hwidth hheight
    rw [hweights (.inr hweight), if_pos rfl] at hhalo
    refine Painter.get?_markAll_of_not_touches hp fun m hm htouch => hout ?_
    have := LightWeight.touches_marks (hslant.mono hheight) hm htouch
    simp only [InkBox.Holds] at this ⊢
    omega
  | subpixel =>
    rw [hone (by simp [hweight]), Int.mul_one] at hwidth hheight
    rw [TextStyle.drawImage]
    by_cases hroom : back.hasRoom rows.width.toNat = true
    case neg => rw [SubpixelWeight.draw, if_neg hroom]
    rw [SubpixelWeight.draw_eq_markAll _ _ _ _ _ hp hroom]
    refine Painter.get?_markAll_of_not_touches hp fun m hm htouch => hout ?_
    have := SubpixelWeight.touches_marks (hslant.mono hheight) hm htouch
    simp only [InkBox.Holds] at this ⊢
    omega

/-- So is any other picture. -/
theorem get?_drawImage {image : GlyphImage} (hlean : 0 ≤ lean) (hslant : ink.slant.Within ink.h lean)
    (himage : st.Pictured g ink image)
    (hpixels : ∀ px, (st.font.sourceOf g).pixels? st.font.toFontRequest (Glyph.index g) = some px →
      px.columns ≤ ink.w ∧ px.rows ≤ ink.h)
    (hp : p.frame.Sound) (back : Scratch)
    (hhalo : halo = if st.font.hasHalo (st.font.sourceOf g) then 2 else 0)
    (hout : ¬ink.Holds lean halo x y) :
    (st.drawImage p back ink image).1.surface.get? x y = p.surface.get? x y := by
  cases himage with
  | bits data hkind hrows => exact get?_drawBits data (by omega) hkind hrows hslant hp back hhalo hout
  | grey data pitch hkind =>
    refine Painter.get?_markAll_of_not_touches hp fun m hm htouch => hout ?_
    have hscale : 1 ≤ max ((st.font.sourceOf g).scale : Int) 1 := by omega
    have hwidth := TextStyle.tdiv_mul_le ink.w hscale
    have hheight := TextStyle.tdiv_mul_le ink.h hscale
    have := CoveragePicture.touches_greyMarks (hslant.mono (by dsimp only; rwa [max_eq_left hscale])) hm
      htouch
    rw [max_eq_left hscale] at this
    simp only [InkBox.Holds] at this ⊢
    omega
  | channels data pitch hkind =>
    refine get?_drawChannels hp _ _ fun hin => hout ?_
    simp only [InkBox.Holds] at hin ⊢
    omega
  | @colors px px' hkind hpx hsize =>
    obtain ⟨hcolumns, hrows⟩ := hpixels px hpx
    rw [GlyphPixels.columns, ← hsize.1] at hcolumns
    rw [GlyphPixels.rows, ← hsize.2] at hrows
    rw [TextStyle.drawImage]
    refine Painter.get?_markAll_of_not_touches hp fun m hm htouch => hout ?_
    have := GlyphPixels.touches_marks hm htouch
    simp only [GlyphPixels.columns, GlyphPixels.rows, InkBox.Holds] at this ⊢
    omega

end Drawn

/-- The box that the source gives a glyph. -/
def boxOf (st : TextStyle) (g : Glyph) : GlyphBox :=
  (st.font.sourceOf g).box st.font.toFontRequest (Glyph.index g)

/-- The pixels of a glyph, if its source has some, do not exceed its box. -/
def PixelsFit (st : TextStyle) (g : Glyph) : Prop :=
  ∀ px, (st.font.sourceOf g).pixels? st.font.toFontRequest (Glyph.index g) = some px →
    px.columns ≤ (boxOf st g).w ∧ px.rows ≤ (boxOf st g).h

/-- The ink of a glyph fits, if the rows keep within its lean and its pixels in its box. -/
theorem inkFits_of_within (hlean : 0 ≤ leanWidth st.font (st.font.sourceOf g))
    (hslant : ∀ x y, (plan st g x y).ink.slant.Within (plan st g x y).ink.h
      (leanWidth st.font (st.font.sourceOf g)))
    (hpixels : PixelsFit st g) : InkFits st g := by
  intro x₀ y₀ image himage p hp back x y hout
  have hbox : (boxOf st g).w ≤ (plan st g x₀ y₀).ink.w := by
    simp only [boxOf, plan, TextStyle.place, LogicalFont.boldWidth]
    split <;> omega
  refine get?_drawImage hlean (hslant x₀ y₀) (TextStyle.pictured_of_image? himage) (fun px hpx => ?_) hp
    back rfl fun hin => ?_
  · have hpx := hpixels px hpx
    exact ⟨hpx.1.trans hbox, hpx.2⟩
  · rw [(contains_rc_plan st g x₀ y₀ x y).mpr hin] at hout
    cases hout

theorem inkFits_of_upright (hupright : leanWidth st.font (st.font.sourceOf g) = 0)
    (hpixels : PixelsFit st g) : InkFits st g := by
  refine inkFits_of_within (by omega) (fun x y => ?_) hpixels
  rw [hupright]
  exact Slant.within_of_upright (by simp [plan, hupright]) _

theorem leanWidth_of_ne_zero {f : LogicalFont} {s : GlyphSource} (h : leanWidth f s ≠ 0) :
    leanWidth f s = s.height / 2 := by
  rw [leanWidth] at h ⊢
  split at h
  next hslants => rw [if_pos hslants]
  next => exact absurd rfl h

/-- The rows of the glyph keep within its lean. It is upright, or its box stands on the baseline and is
no higher than the font, or it is mirrored once and its advance keeps its first and its last row
there. -/
def Stands (st : TextStyle) (g : Glyph) : Prop :=
  let s := st.font.sourceOf g
  let box := boxOf st g
  leanWidth st.font s = 0 ∨ 0 ≤ s.height ∧
    if st.font.style.flipsOnce then
      -box.y / 2 ≤ (st.place g 0 0).length ∧
        (st.place g 0 0).length - (-box.y - box.h + 1) / 2 ≤ s.height / 2
    else box.y + box.h ≤ 1 ∧ -box.y ≤ s.height

theorem within_of_stands (hslanted : leanWidth st.font (st.font.sourceOf g) ≠ 0) (h : Stands st g) (x y : Int) :
    (plan st g x y).ink.slant.Within (plan st g x y).ink.h (leanWidth st.font (st.font.sourceOf g)) := by
  obtain ⟨hnonneg, h⟩ := h.resolve_left hslanted
  have hascent : (plan st g x y).ink.slant.ascent = -(boxOf st g).y := by
    simp only [plan, TextStyle.place, boxOf]
    omega
  have hrows : (plan st g x y).ink.h = (boxOf st g).h := rfl
  have hadvance : (plan st g x y).ink.slant.advance = (st.place g 0 0).length := rfl
  rw [leanWidth_of_ne_zero hslanted]
  cases hmirrored : st.font.style.flipsOnce with
  | false =>
    rw [hmirrored, if_neg Bool.false_ne_true] at h
    exact Slant.within_of_ascent hmirrored (by omega) (by omega)
  | true =>
    rw [hmirrored, if_pos rfl] at h
    exact Slant.within_of_advance hmirrored hnonneg (by omega) (by omega)

/-- The ink of a glyph fits, if its rows keep within its lean and its pixels in its box. -/
theorem inkFits_of_stands (h : Stands st g) (hpixels : PixelsFit st g) : InkFits st g := by
  by_cases hupright : leanWidth st.font (st.font.sourceOf g) = 0
  · exact inkFits_of_upright hupright hpixels
  · refine inkFits_of_within ?_ (within_of_stands hupright h) hpixels
    have := (h.resolve_left hupright).1
    rw [leanWidth_of_ne_zero hupright]
    omega

end TextPage

end Rasterizer
