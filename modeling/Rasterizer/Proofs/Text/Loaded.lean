import Rasterizer.Text.Glyph
import Rasterizer.Proofs.Bitmap.Bits

/-! # The pictures of glyphs

A picture is made ready in buffers that still hold earlier ones. Each buffer is filled anew before it is
used, so the picture is the one that the bitmap gives by itself (`TextStyle.map_load`), and the rows of
colours have room for it (`TextStyle.hasRoom_of_load`). -/

namespace Rasterizer

namespace TextStyle

/-! ## Pictures by themselves -/

/-- The packed rows of a glyph, widened and magnified as far as the renderer does not do that,
and the scale that is left. -/
def packedRows (st : TextStyle) (bmp : GlyphBitmap) (scale : Int) (ink : InkBox) :
    Except Fault (PackedRows × Int × Int) :=
  let w := ink.w.tdiv scale
  let h := ink.h.tdiv scale
  if 1 < scale ∧ st.inkWeight ≠ .regular then
    pure (expandScale bmp.data bmp.pitch (w - if ink.bold then 1 else 0) h scale ink.bold,
      h * scale, 1)
  else if ink.bold then do
    return (← expandBoldIn #[] bmp.data bmp.pitch (w - 1) h, h, scale)
  else if st.font.style.flips then
    pure (⟨w, bmp.pitch, bmp.data.extract 0 (bmp.pitch * h.toNat)⟩, h, scale)
  else pure (⟨w, bmp.pitch, bmp.data⟩, h, scale)

def bitsImage (st : TextStyle) (bmp : GlyphBitmap) (scale : Int) (ink : InkBox) :
    Except Fault GlyphImage := do
  let (rows, h, left) ← st.packedRows bmp scale ink
  let data ← st.mirrored (flipBits · rows.width h rows.pitch) (flipRows · h rows.pitch) rows.data
  return .bits ⟨data, rows.pitch, rows.width, h⟩ st.inkWeight left

def greyImage (st : TextStyle) (bmp : GlyphBitmap) (scale : Int) (ink : InkBox) :
    Except Fault GlyphImage := do
  let w := ink.w.tdiv scale
  let h := ink.h.tdiv scale
  let data ← st.mirrored (flipPixels · w h bmp.pitch 1) (flipRows · h bmp.pitch) bmp.data
  return .grey ⟨data, bmp.pitch, w, h⟩ scale

/-- The picture of a glyph made ready, if its source has one. -/
def image? (st : TextStyle) (g : Glyph) (ink : InkBox) : Except Fault (Option GlyphImage) := do
  let s := st.font.sourceOf g
  let request := st.font.toFontRequest
  let i := Glyph.index g
  let scale : Int := max s.scale 1
  match s.kind with
  | .mono =>
    match s.mono? request i with
    | none => return none
    | some bmp => return some (← st.bitsImage bmp scale ink)
  | .grey =>
    match s.grey? request i with
    | none => return none
    | some bmp => return some (← st.greyImage bmp scale ink)
  | .subpixel =>
    match s.grey? request i with
    | none => return none
    | some bmp => return some (.channels ⟨bmp.data, bmp.pitch, ink.w, ink.h⟩)
  | .prerendered =>
    match s.pixels? request i with
    | none => return none
    | some px => return some (.colors (← px.flipped st.font.style))

variable {st : TextStyle} {bmp : GlyphBitmap} {scale : Int} {ink : InkBox} {g : Glyph}

theorem tdiv_mul_le (a : Int) {s : Int} (hs : 1 ≤ s) : a.tdiv s * s ≤ max a 0 := by
  by_cases ha : 0 ≤ a
  · have hself := Int.tdiv_mul_self a s
    have := Int.tmod_nonneg s ha
    omega
  · have hneg := Int.tdiv_nonneg (show 0 ≤ -a by omega) (show 0 ≤ s by omega)
    rw [Int.neg_tdiv] at hneg
    have := Int.mul_le_mul_of_nonneg_right (show a.tdiv s ≤ 0 by omega) (show 0 ≤ s by omega)
    omega

/-- However the rows of a glyph are widened and magnified, they fill its box at most. -/
theorem packedRows_fit {rows : PackedRows} {height left : Int} (hscale : 1 ≤ scale)
    (h : st.packedRows bmp scale ink = .ok (rows, height, left)) :
    1 ≤ left ∧ rows.width * left ≤ max ink.w 0 ∧ height * left ≤ max ink.h 0 ∧
      (st.inkWeight ≠ .regular → left = 1) := by
  have hw := tdiv_mul_le ink.w hscale
  have hh := tdiv_mul_le ink.h hscale
  simp only [packedRows] at h
  split at h
  · cases h
    have hwidth : (ink.w.tdiv scale - (if ink.bold then 1 else 0) + (if ink.bold then 1 else 0)) =
        ink.w.tdiv scale := Int.sub_add_cancel ..
    simp only [expandScale, expandScaleIn, hwidth, Int.mul_one, Int.max_eq_left hscale]
    exact ⟨Int.le_refl 1, hw, hh, fun _ => trivial⟩
  next hregular =>
    have hleft : st.inkWeight ≠ .regular → scale = 1 := fun hweight => by
      by_contra hne
      exact hregular ⟨by omega, hweight⟩
    split at h
    · obtain ⟨wide, hwide, h⟩ := Fault.bind_eq_ok.mp h
      cases h
      simp only [expandBoldIn] at hwide
      split at hwide
      · cases hwide
      · cases hwide
        rw [Int.sub_add_cancel]
        exact ⟨hscale, hw, hh, hleft⟩
    · split at h <;> cases h <;> exact ⟨hscale, hw, hh, hleft⟩

/-! ## Pictures in buffers -/

/-- The rows are in the buffer, if they are not those of the bitmap. -/
def buffers (st : TextStyle) (scale : Int) (ink : InkBox) : Bool :=
  decide (1 < scale ∧ st.inkWeight ≠ .regular) || ink.bold || st.font.style.flips

theorem loadRows_eq (st : TextStyle) (bmp : GlyphBitmap) (scale : Int) (ink : InkBox)
    (buffer : Array UInt8) :
    st.loadRows bmp scale ink buffer =
      (st.packedRows bmp scale ink).map fun rows => (rows.1, rows.2.1, rows.2.2, st.buffers scale ink) := by
  rw [loadRows, packedRows, buffers]
  by_cases hscaled : 1 < scale ∧ st.inkWeight ≠ .regular
  · rw [if_pos hscaled, if_pos hscaled, expandScale, expandScaleIn_eq, expandScaleIn_eq, decide_eq_true hscaled]
    rfl
  · rw [if_neg hscaled, if_neg hscaled, decide_eq_false hscaled, Buffer.load_eq]
    cases ink.bold with
    | true =>
      rw [if_pos rfl, if_pos rfl, expandBoldIn_eq, expandBoldIn_eq]
      split <;> rfl
    | false => cases st.font.style.flips <;> rfl

theorem map_loadBits (st : TextStyle) (bmp : GlyphBitmap) (scale : Int) (ink : InkBox) (scratch : Scratch) :
    (st.loadBits bmp scale ink scratch).map Prod.fst = st.bitsImage bmp scale ink := by
  simp only [loadBits, loadRows_eq, bitsImage]
  cases st.packedRows bmp scale ink with
  | error e => rfl
  | ok rows =>
    obtain ⟨rows, h, left⟩ := rows
    change Except.map Prod.fst (st.mirrored _ _ rows.data >>= _) = st.mirrored _ _ rows.data >>= _
    cases st.mirrored (flipBits · rows.width h rows.pitch) (flipRows · h rows.pitch) rows.data <;> rfl

theorem mirrored_of_not_flips (hflips : st.font.style.flips = false)
    (columns rows : Array UInt8 → Except Fault (Array UInt8)) (data : Array UInt8) :
    st.mirrored columns rows data = pure data := by
  obtain ⟨hhorz, hvert⟩ := FontStyle.intersects_union_eq_false.mp hflips
  rw [mirrored, FontStyle.contains_eq_false hhorz, FontStyle.contains_eq_false hvert]
  rfl

theorem map_loadGrey (st : TextStyle) (bmp : GlyphBitmap) (scale : Int) (ink : InkBox) (scratch : Scratch) :
    (st.loadGrey bmp scale ink scratch).map Prod.fst = st.greyImage bmp scale ink := by
  simp only [loadGrey, greyImage, Buffer.load_eq]
  cases hflips : st.font.style.flips with
  | true =>
    rw [if_pos rfl]
    cases st.mirrored (flipPixels · (ink.w.tdiv scale) (ink.h.tdiv scale) bmp.pitch 1)
      (flipRows · (ink.h.tdiv scale) bmp.pitch) bmp.data <;> rfl
  | false =>
    rw [mirrored_of_not_flips hflips]
    rfl

theorem map_loadColors (st : TextStyle) (px : GlyphPixels) (scratch : Scratch) :
    (st.loadColors px scratch).map Prod.fst = (px.flipped st.font.style).map .colors := by
  simp only [loadColors, Buffer.load_eq]
  cases px.flipped st.font.style <;> rfl

theorem map_bind_some {x : Except Fault (GlyphImage × Scratch)} {y : Except Fault GlyphImage}
    (h : x.map Prod.fst = y) :
    (x >>= fun loaded => (.ok (some loaded.1, loaded.2) : Except Fault (Option GlyphImage × Scratch))).map
      Prod.fst = y >>= fun image => .ok (some image) := by
  subst h
  cases x <;> rfl

/-- The picture made ready is that of the glyph, whatever the buffers held. -/
theorem map_load (st : TextStyle) (g : Glyph) (ink : InkBox) (scratch : Scratch) :
    (st.load g ink scratch).map Prod.fst = st.image? g ink := by
  rw [load, image?]
  cases (st.font.sourceOf g).kind with
  | mono =>
    cases (st.font.sourceOf g).mono? st.font.toFontRequest (Glyph.index g) with
    | none => rfl
    | some bmp => exact map_bind_some (map_loadBits st bmp _ ink scratch)
  | grey =>
    cases (st.font.sourceOf g).grey? st.font.toFontRequest (Glyph.index g) with
    | none => rfl
    | some bmp => exact map_bind_some (map_loadGrey st bmp _ ink scratch)
  | subpixel => cases (st.font.sourceOf g).grey? st.font.toFontRequest (Glyph.index g) <;> rfl
  | prerendered =>
    cases (st.font.sourceOf g).pixels? st.font.toFontRequest (Glyph.index g) with
    | none => rfl
    | some px =>
      refine (map_bind_some (map_loadColors st px scratch)).trans ?_
      change _ = (px.flipped st.font.style >>= fun px =>
        (.ok (some (GlyphImage.colors px)) : Except Fault (Option GlyphImage)))
      cases px.flipped st.font.style <;> rfl

end TextStyle

/-! ## Rows of colours -/

namespace Scratch

theorem le_size_grow (row : Array Color) (n : Nat) : n ≤ (grow row n).size := by
  rw [grow, Array.size_append, Array.size_replicate]
  omega

theorem hasRoom_iff {b : Scratch} {n : Nat} :
    b.hasRoom n = true ↔ n ≤ b.above.size ∧ n ≤ b.here.size ∧ n ≤ b.below.size := by
  simp only [hasRoom, Bool.and_eq_true, decide_eq_true_iff, and_assoc]

theorem hasRoom_prepare (b : Scratch) {n m : Nat} (h : n ≤ m) : (b.prepare m).hasRoom n = true :=
  hasRoom_iff.mpr ⟨Nat.le_trans h (le_size_grow ..), Nat.le_trans h (le_size_grow ..),
    Nat.le_trans h (le_size_grow ..)⟩

end Scratch

/-- The rows of colours have room for the picture, if it is drawn with them. -/
def GlyphImage.HasRoom (scratch : Scratch) : GlyphImage → Prop
  | .bits b .subpixel _ => scratch.hasRoom b.w.toNat = true
  | _ => True

namespace TextStyle

variable {st : TextStyle} {bmp : GlyphBitmap} {scale : Int} {ink : InkBox} {g : Glyph}
  {scratch loaded : Scratch} {image : GlyphImage}

theorem hasRoom_of_loadBits (hscale : 1 ≤ scale)
    (h : st.loadBits bmp scale ink scratch = .ok (image, loaded)) : image.HasRoom loaded := by
  simp only [loadBits, loadRows_eq] at h
  cases hrows : st.packedRows bmp scale ink with
  | error e => rw [hrows] at h; cases h
  | ok rows =>
    obtain ⟨rows, height, left⟩ := rows
    rw [hrows] at h
    obtain ⟨_, ⟨⟩, h⟩ := Fault.bind_eq_ok.mp h
    obtain ⟨data, -, h⟩ := Fault.bind_eq_ok.mp h
    cases h
    cases hweight : st.inkWeight with
    | subpixel =>
      obtain ⟨-, hwidth, -, hone⟩ := packedRows_fit hscale hrows
      have hleft := hone (by rw [hweight]; decide)
      have hroom := scratch.hasRoom_prepare (show rows.width.toNat ≤ ink.w.toNat by
        rw [hleft] at hwidth
        omega)
      rw [if_pos rfl]
      split <;> exact hroom
    | _ => trivial

theorem image?_of_load {image : Option GlyphImage} (h : st.load g ink scratch = .ok (image, loaded)) :
    st.image? g ink = .ok image := by
  rw [← map_load st g ink scratch, h]
  rfl

/-- A picture made ready has room in the rows of colours. -/
theorem hasRoom_of_load (h : st.load g ink scratch = .ok (some image, loaded)) : image.HasRoom loaded := by
  simp only [load] at h
  split at h
  · split at h
    · cases h
    · obtain ⟨_, hbits, h⟩ := Fault.bind_eq_ok.mp h
      cases h
      exact hasRoom_of_loadBits (by omega) hbits
  · split at h
    · cases h
    · obtain ⟨_, hgrey, h⟩ := Fault.bind_eq_ok.mp h
      cases h
      rw [loadGrey] at hgrey
      split at hgrey
      · obtain ⟨_, -, hgrey⟩ := Fault.bind_eq_ok.mp hgrey
        cases hgrey
        trivial
      · cases hgrey
        trivial
  · split at h
    · cases h
    · cases h
      trivial
  · split at h
    · cases h
    · obtain ⟨_, hcolors, h⟩ := Fault.bind_eq_ok.mp h
      cases h
      obtain ⟨_, -, hcolors⟩ := Fault.bind_eq_ok.mp hcolors
      cases hcolors
      trivial

end TextStyle

namespace TextPage

/-- The ink is the picture of the glyph by itself, drawn with buffers that have room for it. -/
theorem exists_drawInk_eq (st : TextStyle) (g : Glyph) (rc : Rect) (ink : InkBox) (p : Painter)
    (scratch : Scratch) :
    ∃ loaded : Scratch, (∀ image, st.image? g ink = .ok (some image) → image.HasRoom loaded) ∧
      drawInk st g rc ink p scratch =
        if (rc.intersect? p.window).isSome then
          match st.image? g ink with
          | .error e => ((p, scratch), .error e)
          | .ok none => ((p, loaded), .ok ())
          | .ok (some image) => (st.drawImage p loaded ink image, .ok ())
        else ((p, scratch), .ok ()) := by
  rw [drawInk]
  cases hload : st.load g ink scratch with
  | error e =>
    have himage : st.image? g ink = .error e := by
      rw [← TextStyle.map_load st g ink scratch, hload]
      rfl
    rw [himage]
    exact ⟨scratch, fun image h => (by cases h), rfl⟩
  | ok result =>
    obtain ⟨image, loaded⟩ := result
    rw [TextStyle.image?_of_load hload]
    refine ⟨loaded, fun image' himage => ?_, ?_⟩
    · cases himage
      exact TextStyle.hasRoom_of_load hload
    · cases image <;> rfl

end TextPage

end Rasterizer
