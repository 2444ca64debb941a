import Rasterizer.Proofs.Bitmap.Loops
import Rasterizer.Proofs.Text.Dots
import Rasterizer.Proofs.Text.Faults

/-! # Bold glyphs that are magnified

A bold glyph is widened by one column of its picture, and then it is magnified by the regular weight that draws it,
or it is magnified in the same turn for the other weights. Either way it has the same ink
(`GlyphBitmap.expansions_agree`). -/

namespace Rasterizer

/-! ## Packed pictures -/

/-- The rows have these bits, and clear bits behind their ends. -/
structure PackedRows.Shows (rows : PackedRows) (height : Int) (f : Int → Int → Bool) : Prop where
  pitch : rows.pitch = bitPitch rows.width
  holds : Holds rows.pitch height.toNat (fun x y => (x : Int) < rows.width ∧ f x y = true) rows.data

namespace PackedRows.Shows

variable {rows rows' : PackedRows} {height : Int} {f g : Int → Int → Bool}

theorem congr (h : rows.Shows height f) (hfg : ∀ x y, f x y = g x y) : rows.Shows height g :=
  ⟨h.pitch, h.holds.congr fun _ _ => by rw [hfg]⟩

theorem whole (h : rows.Shows height f) : (rows.picture height).Whole where
  pitch := h.pitch
  size := h.holds.size.ge

theorem bit (h : rows.Shows height f)
    (hinside : ∀ x y, f x y = true → 0 ≤ x ∧ x < rows.width ∧ 0 ≤ y ∧ y < height) (x y : Int) :
    (rows.picture height).bit x y = f x y := by
  refine BitPicture.bit_eq (fun x y hx hy => ?_) hinside x y
  dsimp only [PackedRows.picture] at hx hy ⊢
  rw [Bool.eq_iff_iff, h.holds.bit (h.pitch ▸ div_lt_pitch hx) (by omega), and_iff_right hx]

/-- Rows of one width are known by what they show. -/
theorem unique (h : rows.Shows height f) (h' : rows'.Shows height f) (hwidth : rows.width = rows'.width) :
    rows = rows' := by
  have hpitch : rows.pitch = rows'.pitch := by rw [h.pitch, h'.pitch, hwidth]
  have hdata : rows.data = rows'.data := h.holds.unique (hpitch ▸ hwidth ▸ h'.holds)
  cases rows
  cases rows'
  simp_all

end PackedRows.Shows

namespace BitPicture

variable {b : BitPicture} {bold : Bool} {x y s : Int}

theorem boldBit_row (bold : Bool) (x : Int) {y : Nat} (hy : (y : Int) < b.h) :
    boldBit bold (.ofPicture b.data b.pitch y b.w) x = b.widenedBit bold x y := by
  have hrow : b.row y = .ofPicture b.data b.pitch y b.w := if_neg (by omega)
  rw [boldBit, widenedBit, bit, bit, hrow]

/-- The place of a magnified picture whose bit is set lies in it. -/
theorem inside_of_scaled (hs : 1 ≤ s) (h : b.widenedBit bold (x / s) (y / s) = true) :
    0 ≤ x ∧ x < (b.w + if bold then 1 else 0) * s ∧ 0 ≤ y ∧ y < b.h * s := by
  obtain ⟨hx, hx', hy, hy'⟩ := inside_of_widenedBit h
  rw [Int.le_ediv_iff_mul_le (by omega), Int.zero_mul] at hx hy
  rw [Int.ediv_lt_iff_lt_mul (by omega)] at hx' hy'
  exact ⟨hx, hx', hy, hy'⟩

variable (b) (buffer : Array UInt8)

theorem exists_expandBoldIn (hw : 0 ≤ b.w) :
    ∃ wide, expandBoldIn buffer b.data b.pitch b.w b.h = .ok wide ∧ wide.width = b.w + 1 ∧
      wide.Shows b.h (b.widenedBit true) := by
  have hpitch : bitPitch (b.w + 1) ≠ 0 := by
    rw [bitPitch]
    omega
  rw [expandBoldIn_eq, if_neg hpitch]
  refine ⟨_, rfl, rfl, rfl, ?_⟩
  dsimp only
  refine (holds_packBits _ _ _).congr fun {x y} _ hy => ?_
  rw [boldBit_row true x (by omega), and_iff_right_of_imp]
  intro hbit
  obtain ⟨-, hx, -⟩ := inside_of_widenedBit hbit
  exact hx

theorem shows_expandScaleIn (hh : 0 ≤ b.h) (hs : 1 ≤ s) (bold : Bool) :
    (expandScaleIn buffer b.data b.pitch b.w b.h s bold).Shows (b.h * s)
      fun x y => b.widenedBit bold (x / s) (y / s) := by
  simp only [expandScaleIn_eq, max_eq_left hh, max_eq_left hs]
  refine ⟨rfl, ?_⟩
  dsimp only
  refine (holds_packBits _ _ _).congr fun {x y} _ hy => ?_
  have hrow : ((y / s.toNat : Nat) : Int) = (y : Int) / s := by
    rw [Int.natCast_ediv, Int.toNat_of_nonneg (by omega)]
  have hy' : ((y / s.toNat : Nat) : Int) < b.h := by
    rw [hrow, Int.ediv_lt_iff_lt_mul (by omega)]
    omega
  rw [boldBit_row bold _ hy', hrow, and_iff_right_of_imp]
  exact fun hbit => (inside_of_scaled hs hbit).2.1

/-- A picture that has been widened is magnified to what the picture becomes when both are done at once. -/
theorem expandScaleIn_widened (hh : 0 ≤ b.h) (hs : 1 ≤ s) {wide : PackedRows} (hwidth : wide.width = b.w + 1)
    (hwide : wide.Shows b.h (b.widenedBit true)) (buffer' : Array UInt8) :
    expandScaleIn buffer' wide.data wide.pitch wide.width b.h s false =
      expandScaleIn buffer b.data b.pitch b.w b.h s true := by
  have hbits : ∀ x y, (wide.picture b.h).widenedBit false x y = b.widenedBit true x y := by
    intro x y
    rw [widenedBit, Bool.false_and, Bool.or_false, hwide.bit fun x y hbit => ?_]
    have := inside_of_widenedBit hbit
    rwa [hwidth]
  have hlarge := (wide.picture b.h).shows_expandScaleIn buffer' hh hs false
  refine (hlarge.congr fun x y => hbits _ _).unique (b.shows_expandScaleIn buffer hh hs true) ?_
  simp only [expandScaleIn_eq, hwidth, PackedRows.picture]
  simp

end BitPicture

/-! ## Pictures made ready -/

/-- A place and its mirror image lie in squares that are mirror images. -/
theorem mirror_ediv {n : Int} (hn : 1 ≤ n) (a x : Int) : (a * n - 1 - x) / n = a - 1 - x / n := by
  rw [RegularWeight.ediv_eq_iff hn]
  have hdiv := Int.mul_ediv_add_emod x n
  have := Int.emod_nonneg x (show n ≠ 0 by omega)
  have := Int.emod_lt_of_pos x (show 0 < n by omega)
  rw [Int.sub_mul, Int.sub_mul, Int.one_mul, Int.mul_comm (x / n)]
  omega

namespace TextStyle

/-- What is left for a weight to magnify: only the regular one does it. -/
def leftScale (st : TextStyle) (s : Int) : Int := if st.inkWeight = .regular then s else 1

/-- A picture that has columns and all its rows can be mirrored. -/
theorem exists_mirrored (st : TextStyle) {b : BitPicture} (hb : b.Whole) (hw : 0 < b.w) :
    ∃ data, st.mirrored (flipBits · b.w b.h b.pitch) (flipRows · b.h b.pitch) b.data = .ok data := by
  have hfails : FailsOnlyIf (st.font.style.contains .flipHorz = true ∧ b.w ≤ 0)
      (st.mirrored (flipBits · b.w b.h b.pitch) (flipRows · b.h b.pitch) b.data) :=
    failsOnlyIf_mirrored (failsOnlyIf_flipBits hb.pitch) (fun _ => size_flipBits) hb.size
  cases hmirrored : st.mirrored (flipBits · b.w b.h b.pitch) (flipRows · b.h b.pitch) b.data with
  | ok data => exact ⟨data, rfl⟩
  | error e =>
    have := (hfails e hmirrored).2.2
    omega

section Bold

variable (st : TextStyle) (bmp : GlyphBitmap) {w h s : Int} {ink : InkBox} (hw : 0 ≤ w) (hh : 0 ≤ h) (hs : 1 ≤ s)
  (hbold : ink.bold = true) (hwidth : ink.w = (w + 1) * s) (hheight : ink.h = h * s)

include hw hh hs hbold hwidth hheight

/-- The packed rows of a bold glyph have its widened bits, magnified as far as the weight does not do that. -/
theorem exists_packedRows_bold :
    ∃ (rows : PackedRows) (height n : Int), st.packedRows bmp s ink = .ok (rows, height, st.leftScale s) ∧ 1 ≤ n ∧
      n * st.leftScale s = s ∧ 1 ≤ st.leftScale s ∧ rows.width = (w + 1) * n ∧ height = h * n ∧
      rows.Shows height fun x y => (BitPicture.mk bmp.data bmp.pitch w h).widenedBit true (x / n) (y / n) := by
  have hw' : ink.w.tdiv s = w + 1 := by rw [hwidth, Int.mul_tdiv_cancel _ (by omega)]
  have hh' : ink.h.tdiv s = h := by rw [hheight, Int.mul_tdiv_cancel _ (by omega)]
  simp only [packedRows, hw', hh', hbold, if_true, Int.add_sub_cancel]
  by_cases hmagnified : 1 < s ∧ st.inkWeight ≠ .regular
  · rw [if_pos hmagnified, leftScale, if_neg hmagnified.2]
    refine ⟨_, _, s, rfl, hs, Int.mul_one s, le_rfl, ?_, rfl,
      (BitPicture.mk bmp.data bmp.pitch w h).shows_expandScaleIn #[] hh hs true⟩
    simp only [expandScale, expandScaleIn_eq, max_eq_left hs, if_true]
  · have hleft : st.leftScale s = s := by
      rw [leftScale]
      split
      next => rfl
      next hweight =>
        have : ¬1 < s := fun hlt => hmagnified ⟨hlt, hweight⟩
        omega
    obtain ⟨wide, hwide, hwidth, hshows⟩ := (BitPicture.mk bmp.data bmp.pitch w h).exists_expandBoldIn #[] hw
    rw [if_neg hmagnified, hleft]
    refine ⟨wide, h, 1, ?_, le_rfl, Int.one_mul s, hs, ?_, (Int.mul_one h).symm, hshows.congr fun x y => ?_⟩
    · rw [hwide]
      rfl
    · rw [hwidth, Int.mul_one]
    · rw [Int.ediv_one, Int.ediv_one]

/-- In any weight a bold glyph is given the ink of its widened and mirrored picture, magnified. -/
theorem exists_bitsImage_bold :
    ∃ picture, st.bitsImage bmp s ink = .ok (.bits picture st.inkWeight (st.leftScale s)) ∧ 1 ≤ st.leftScale s ∧
      ∀ x y, picture.bit (x / st.leftScale s) (y / st.leftScale s) =
        (BitPicture.mk bmp.data bmp.pitch w h).styledBit st.font.style true (x / s) (y / s) := by
  obtain ⟨rows, height, n, hrows, hn, hscales, hleft, hrowsWidth, rfl, hshows⟩ :=
    st.exists_packedRows_bold bmp hw hh hs hbold hwidth hheight
  have hpos : 0 < rows.width := hrowsWidth ▸ Int.mul_pos (by omega) (by omega)
  obtain ⟨data, hdata⟩ := st.exists_mirrored hshows.whole hpos
  have hplace : ∀ a, a / st.leftScale s / n = a / s := fun a => by
    rw [Int.ediv_ediv_of_nonneg (by omega), Int.mul_comm, hscales]
  have hbit : ∀ x y, (rows.picture (h * n)).bit x y =
      (BitPicture.mk bmp.data bmp.pitch w h).widenedBit true (x / n) (y / n) :=
    hshows.bit fun x y hbit => hrowsWidth ▸ BitPicture.inside_of_scaled hn hbit
  refine ⟨(rows.picture (h * n)).withData data, ?_, hleft, fun x y => ?_⟩
  · rw [bitsImage, hrows]
    change (st.mirrored (flipBits · rows.width (h * n) rows.pitch) (flipRows · (h * n) rows.pitch) rows.data >>= _) = _
    exact congrArg (· >>= _) hdata
  · rw [bit_mirrored hshows.whole hdata, hbit, BitPicture.styledBit, ← BitPicture.widenedBit]
    congr 1
    · split
      · rw [show (rows.picture (h * n)).w = (w + 1) * n from hrowsWidth, mirror_ediv hn, hplace]
        rfl
      · exact hplace x
    · split
      · rw [show (rows.picture (h * n)).h = h * n from rfl, mirror_ediv hn, hplace]
      · exact hplace y

theorem exists_loadBits_bold (scratch : Scratch) :
    ∃ picture kept, st.loadBits bmp s ink scratch = .ok (.bits picture st.inkWeight (st.leftScale s), kept) ∧
      1 ≤ st.leftScale s ∧ ∀ x y, picture.bit (x / st.leftScale s) (y / st.leftScale s) =
        (BitPicture.mk bmp.data bmp.pitch w h).styledBit st.font.style true (x / s) (y / s) := by
  obtain ⟨picture, himage, hleft, hbits⟩ := st.exists_bitsImage_bold bmp hw hh hs hbold hwidth hheight
  rw [← map_loadBits st bmp s ink scratch] at himage
  cases hload : st.loadBits bmp s ink scratch with
  | error e =>
    rw [hload] at himage
    cases himage
  | ok loaded =>
    rw [hload] at himage
    exact ⟨picture, loaded.2, congrArg Except.ok (Prod.ext (Except.ok.inj himage) rfl), hleft, hbits⟩

end Bold

end TextStyle

/-! ## Ink -/

namespace RegularWeight

variable {b b' : BitPicture} {s s' : Int} {p : Painter}

/-- The regular weight leaves the text on each pixel of a picture's ink that may be touched, and nothing else. -/
theorem get?_markAll_marks (b : BitPicture) (hs : 1 ≤ s) (hp : p.frame.Sound) (hrop : p.rop = .set) (origin : Point)
    (slant : Slant) (text : Pixel) (x y : Int) :
    (p.markAll (marks b s origin slant text)).surface.get? x y = (p.surface.get? x y).map fun v =>
      if p.frame.reaches x y = true ∧
          b.bit ((slant.source origin x y).x / s) ((slant.source origin x y).y / s) = true then
        p.surface.format.kept text
      else v := by
  have htouched : (∃ m ∈ marks b s origin slant text, m.Touches x y) ↔
      b.bit ((slant.source origin x y).x / s) ((slant.source origin x y).y / s) = true := touched_marks hs
  split
  next hink =>
    obtain ⟨hreach, hbit⟩ := hink
    obtain ⟨v, hv⟩ := Painter.exists_get?_of_reaches hp hreach
    rw [Painter.get?_markAll_of_touches hp hrop (fun m => mem_marks) hreach (htouched.mpr hbit), hv]
    rfl
  next hclear =>
    rw [Option.map_id']
    by_cases hreach : p.frame.reaches x y = true
    · exact Painter.get?_markAll_of_not_touches hp fun m hm htouch => hclear ⟨hreach, htouched.mp ⟨m, hm, htouch⟩⟩
    · exact ((Painter.masked_markAll _).confined hp).get? x y (Bool.eq_false_iff.mpr hreach)

/-- Pictures whose ink lies on the same pixels when they are magnified are painted alike. -/
theorem surface_markAll_congr (hs : 1 ≤ s) (hs' : 1 ≤ s')
    (hink : ∀ x y, b'.bit (x / s') (y / s') = b.bit (x / s) (y / s)) (hp : p.frame.Sound) (hrop : p.rop = .set)
    (origin : Point) (slant : Slant) (text : Pixel) :
    (p.markAll (marks b' s' origin slant text)).surface = (p.markAll (marks b s origin slant text)).surface := by
  refine Surface.eq_of_get? ?_ fun x y => ?_
  · exact Painter.sameShape_of_frame
      ((Painter.frame_markAll hp _).trans (Painter.frame_markAll hp (marks b s origin slant text)).symm)
  · rw [get?_markAll_marks b' hs' hp hrop, get?_markAll_marks b hs hp hrop]
    simp only [hink]

end RegularWeight

/-- The text style of a small page with that style of its font. -/
def smallStyle (style : FontStyle) : TextStyle :=
  let c := Canvas.greyPage 4 4 .regular Canvas.barGlyph
  c.text.styleOf ((LogicalFont.ofSource (.ofList "small" .regular .mono 2 2 0 3 [])).withStyle style)

end Rasterizer
