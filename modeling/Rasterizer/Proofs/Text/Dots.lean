import Rasterizer.Proofs.Text.Regular
import Rasterizer.Proofs.Text.Turned

/-! # Pictures dot by dot

A picture has a dot for each pixel of its place: ink, some coverage, or a colour (`GlyphImage.dotAt`).
Where the picture is drawn upright and unweighted, a pixel becomes what its dot makes of it
(`TextStyle.turns_drawImage`). A dot of bits or of grey coverage covers as many pixels in each direction
as the picture is magnified; coverage by channel and colours are taken one for a pixel. -/

namespace Rasterizer

/-- What a picture has for one pixel. -/
inductive GlyphDot where
  | blank
  | ink
  | grey (coverage : UInt8)
  | channels (r g b : UInt8)
  | color (c : Color)
deriving Repr, DecidableEq

/-- What a pixel becomes by a step of a ramp. -/
def GreyRamp.on (f : PixelFormat) (ramp : GreyRamp) (level : Nat) (v : Pixel) : Pixel :=
  if level = 0 then v
  else
    match ramp with
    | .blended r => Mark.laid f (r.getD level default) v
    | .opaquePixels r => f.kept (r.getD level 0)

/-- What a pixel becomes by a dot in the style of a text. -/
def GlyphDot.on (f : PixelFormat) (st : TextStyle) (v : Pixel) : GlyphDot → Pixel
  | .blank => v
  | .ink => f.kept st.textColor
  | .grey coverage => st.ramps.grey.on f (CoveragePicture.level coverage) v
  | .channels r g b => f.kept (Painter.mixed f (f.getRgb st.textColor) r g b v)
  | .color c => if c.a = 255 then f.kept (f.mapOpaque c) else Mark.laid f c v

/-- The dot of a bit. -/
def GlyphDot.ofBit (set : Bool) : GlyphDot := if set then .ink else .blank

variable {f : PixelFormat} {x y : Int} {origin : Point} {slant : Slant}

/-! ## Coverage -/

namespace CoveragePicture

variable {c : CoveragePicture} {scale row : Int} {ramp : GreyRamp}

/-- The coverage at a place of a picture, none outside of it. -/
def byte (c : CoveragePicture) (X Y : Int) : UInt8 :=
  if 0 ≤ X ∧ X < c.w ∧ 0 ≤ Y ∧ Y < c.h then c.data.getD (Y.toNat * c.pitch + X.toNat) 0 else 0

/-- The three coverages from a place of the data on, as far as it goes. -/
def triple (data : Array UInt8) (pitch X Y : Nat) : GlyphDot :=
  let i := Y * pitch + 3 * X
  if i + 2 < data.size then .channels (data.getD i 0) (data.getD (i + 1) 0) (data.getD (i + 2) 0) else .blank

/-- The coverage by channel at a place of a picture. -/
def dot (c : CoveragePicture) (X Y : Int) : GlyphDot :=
  if 0 ≤ X ∧ X < c.w ∧ 0 ≤ Y ∧ Y < c.h then triple c.data c.pitch X.toNat Y.toNat else .blank

theorem getD_bytesFrom (row : Int) (i : Nat) :
    (c.bytesFrom row).getD i 0 = c.data.getD (row.toNat * c.pitch + i) 0 := by
  by_cases hi : row.toNat * c.pitch + i < c.data.size
  · have hi' : i < c.data.size - row.toNat * c.pitch := by omega
    simp [bytesFrom, Array.getD, hi, hi']
  · have hi' : ¬i < c.data.size - row.toNat * c.pitch := by omega
    simp [bytesFrom, Array.getD, hi, hi']

theorem size_bytesFrom (row : Int) : (c.bytesFrom row).size = c.data.size - row.toNat * c.pitch := by
  simp [bytesFrom]

/-! ### Grey -/

theorem onAll_levelMarks (hscale : 1 ≤ scale) {k : Nat} (hk : k ≠ 0) (left y₀ : Int) (v : Pixel) :
    Mark.onAll f x y (levelMarks ramp k scale left y₀) v =
      if y = y₀ ∧ left ≤ x ∧ x < left + scale then ramp.on f k v else v := by
  split
  next hin =>
    cases ramp with
    | blended r =>
      have hmem : x ∈ irange left (left + scale - 1) := mem_irange.mpr (by omega)
      simp only [GreyRamp.on, if_neg hk, levelMarks]
      rw [List.map_eq_flatMap, Mark.onAll_flatMap (nodup_irange _ _) hmem]
      · exact Mark.on_of_touches (m := .blend ..) ⟨rfl, hin.1⟩ v
      · intro x' _ hne m hm htouch
        cases List.mem_singleton.mp hm
        exact hne htouch.1.symm
    | opaquePixels r =>
      simp only [GreyRamp.on, if_neg hk]
      exact Mark.on_of_touches (m := .span ..) ⟨hin.1, by omega, by omega⟩ v
  next hout =>
    refine Mark.onAll_of_not_touches (fun m hm htouch => hout ?_) v
    have := touches_levelMarks hscale hm htouch
    omega

/-- The marks of one byte fill a square. -/
theorem onAll_square (hscale : 1 ≤ scale) (k : Nat) (col : Int) (v : Pixel) :
    Mark.onAll f x y (if k = 0 then []
      else (irange 0 (scale - 1)).flatMap fun i => levelMarks ramp k scale
        (origin.x + col * scale + slant.shift (row * scale + i)) (origin.y + row * scale + i)) v =
      if (slant.source origin x y).x / scale = col ∧ (slant.source origin x y).y / scale = row then
        ramp.on f k v
      else v := by
  by_cases hk : k = 0
  · simp [hk, GreyRamp.on, Mark.onAll]
  simp only [if_neg hk, RegularWeight.ediv_eq_iff hscale, Slant.source]
  by_cases hrow : row * scale ≤ y - origin.y ∧ y - origin.y < row * scale + scale
  · have hmem : y - origin.y - row * scale ∈ irange 0 (scale - 1) := mem_irange.mpr (by omega)
    rw [Mark.onAll_flatMap (nodup_irange _ _) hmem, onAll_levelMarks hscale hk,
      show row * scale + (y - origin.y - row * scale) = y - origin.y by omega]
    · refine if_congr ?_ rfl rfl
      omega
    · intro i _ hne m hm htouch
      have := touches_levelMarks hscale hm htouch
      omega
  · rw [if_neg fun h => hrow h.2]
    refine Mark.onAll_of_not_touches (fun m hm htouch => hrow ?_) v
    obtain ⟨i, hi, hm⟩ := List.mem_flatMap.mp hm
    rw [mem_irange] at hi
    have := touches_levelMarks hscale hm htouch
    omega

theorem onAll_greyRowMarks (hscale : 1 ≤ scale) (hrow : 0 ≤ row) (hrow' : row < c.h) (v : Pixel) :
    Mark.onAll f x y (c.greyRowMarks scale row origin slant ramp) v =
      if (slant.source origin x y).y / scale = row then
        ramp.on f (level (c.byte ((slant.source origin x y).x / scale) row)) v
      else v := by
  rw [greyRowMarks, Mark.onAll_flatMap_eq_foldl]
  simp only [onAll_square hscale, getD_bytesFrom, size_bytesFrom]
  generalize (slant.source origin x y).x / scale = X
  by_cases hY : (slant.source origin x y).y / scale = row
  · rw [if_pos hY]
    by_cases hX : 0 ≤ X ∧ X < c.w ∧ row.toNat * c.pitch + X.toNat < c.data.size
    · have hmem : X.toNat ∈ List.range (min c.w.toNat (c.data.size - row.toNat * c.pitch)) :=
        List.mem_range.mpr (by omega)
      rw [foldl_of_one List.nodup_range hmem, if_pos ⟨by omega, hY⟩, byte, if_pos (by omega)]
      exact fun n _ hne v => if_neg fun h => hne (by omega)
    · have hnone : level (c.byte X row) = 0 := by
        rw [byte]
        split
        · rw [Array.getD, dif_neg (by omega)]
          rfl
        · rfl
      simp only [hnone, GreyRamp.on, if_true]
      refine foldl_of_none (fun n hn v => if_neg fun h => hX ?_) v
      rw [List.mem_range] at hn
      omega
  · rw [if_neg hY]
    exact foldl_of_none (fun n _ v => if_neg fun h => hY h.2) v

theorem onAll_greyMarks (hscale : 1 ≤ scale) (v : Pixel) :
    Mark.onAll f x y (c.greyMarks scale origin slant ramp) v =
      ramp.on f
        (level (c.byte ((slant.source origin x y).x / scale) ((slant.source origin x y).y / scale))) v := by
  rw [greyMarks, max_eq_left hscale, Mark.onAll_flatMap_eq_foldl]
  generalize hY : (slant.source origin x y).y / scale = Y
  have hrow : ∀ i ∈ irange 0 (c.h - 1), ∀ v,
      Mark.onAll f x y (c.greyRowMarks scale i origin slant ramp) v =
        if Y = i then ramp.on f (level (c.byte ((slant.source origin x y).x / scale) i)) v else v := by
    intro i hi v
    rw [mem_irange] at hi
    rw [onAll_greyRowMarks hscale hi.1 (by omega), hY]
  by_cases hin : Y ∈ irange 0 (c.h - 1)
  · have hothers : ∀ i ∈ irange 0 (c.h - 1), i ≠ Y → ∀ v,
        Mark.onAll f x y (c.greyRowMarks scale i origin slant ramp) v = v :=
      fun i hi hne v => (hrow i hi v).trans (if_neg (Ne.symm hne))
    rw [foldl_of_one (nodup_irange _ _) hin hothers, hrow Y hin, if_pos rfl]
  · have hall : ∀ i ∈ irange 0 (c.h - 1), ∀ v,
        Mark.onAll f x y (c.greyRowMarks scale i origin slant ramp) v = v := fun i hi v =>
      (hrow i hi v).trans (if_neg fun h : Y = i => hin (h ▸ hi))
    rw [foldl_of_none hall, byte, if_neg fun h => hin (mem_irange.mpr (by omega))]
    rfl

/-! ### By channel -/

theorem turns_drawMixed (f : PixelFormat) (x y x' y' : Int) (text : Color) (r g b : UInt8) :
    Painter.Turns f x y (fun p => drawMixed p x' y' text r g b) fun v =>
      if x = x' ∧ y = y' then f.kept (Painter.mixed f text r g b v) else v := by
  refine Painter.turns_of_dot (g := fun f v => if Painter.mixed f text r g b v = v then none
    else some (Painter.mixed f text r g b v)) (fun p hp => Painter.draws_drawMixed hp x' y' text r g b)
    (fun h v hv => ?_) fun h v => if_neg h
  rw [if_pos h]
  by_cases hsame : Painter.mixed f text r g b v = v
  · simp only [if_pos hsame]
    rw [hsame, hv]
  · simp only [if_neg hsame]

theorem turns_drawChannelRow (c : CoveragePicture) (f : PixelFormat) (x y : Int) (st : TextStyle)
    (origin : Point) (hrow : 0 ≤ row) (hrow' : row < c.h) :
    Painter.Turns f x y (fun p => c.drawChannelRow p origin (f.getRgb st.textColor) row) fun v =>
      if y = origin.y + row then (c.dot (x - origin.x) row).on f st v else v := by
  simp only [drawChannelRow]
  refine (Painter.Turns.foldl fun n _ => turns_drawMixed f x y _ _ _ _ _ _).congr fun v => ?_
  simp only [getD_bytesFrom, size_bytesFrom]
  by_cases hY : y = origin.y + row
  · rw [if_pos hY]
    generalize hX : x - origin.x = X
    by_cases hin : 0 ≤ X ∧ X < c.w ∧ row.toNat * c.pitch + 3 * X.toNat + 2 < c.data.size
    · have hmem : X.toNat ∈ List.range (min c.w.toNat ((c.data.size - row.toNat * c.pitch) / 3)) :=
        List.mem_range.mpr (by omega)
      rw [foldl_of_one List.nodup_range hmem, if_pos ⟨by omega, hY⟩, dot, if_pos (by omega), triple,
        if_pos hin.2.2]
      · rfl
      · exact fun n _ hne v => if_neg fun h => hne (by omega)
    · have hblank : c.dot X row = .blank := by
        rw [dot, triple]
        split
        · exact if_neg (by omega)
        · rfl
      rw [hblank, GlyphDot.on]
      refine foldl_of_none (fun n hn v => if_neg fun h => hin ?_) v
      rw [List.mem_range] at hn
      omega
  · rw [if_neg hY]
    exact foldl_of_none (fun n _ v => if_neg fun h => hY h.2) v

theorem turns_drawChannels (c : CoveragePicture) (f : PixelFormat) (x y : Int) (st : TextStyle)
    (origin : Point) :
    Painter.Turns f x y (fun p => c.drawChannels p origin (f.getRgb st.textColor))
      ((c.dot (x - origin.x) (y - origin.y)).on f st ·) := by
  refine (Painter.Turns.foldl fun i hi => turns_drawChannelRow c f x y st origin
    (mem_irange.mp hi).1 (by have := (mem_irange.mp hi).2; omega)).congr fun v => ?_
  by_cases hin : y - origin.y ∈ irange 0 (c.h - 1)
  · rw [foldl_of_one (nodup_irange _ _) hin fun i _ hne v => if_neg fun h => hne (by omega), if_pos (by omega)]
  · rw [foldl_of_none fun i hi v => if_neg fun h => hin (by rwa [h, add_sub_cancel_left]), dot,
      if_neg fun h => hin (mem_irange.mpr (by omega))]
    rfl

end CoveragePicture

/-! ## Colours -/

namespace GlyphPixels

variable {px : GlyphPixels}

/-- The colour at a place of a picture, a clear one where pixels are missing. -/
def dot (px : GlyphPixels) (X Y : Int) : GlyphDot :=
  if 0 ≤ X ∧ X < px.columns ∧ 0 ≤ Y ∧ Y < px.rows then
    .color (px.pixels.getD (Y.toNat * px.columns + X.toNat) default)
  else .blank

theorem onAll_colorMark (f : PixelFormat) (x y x' y' : Int) (st : TextStyle) (c : Color) (v : Pixel) :
    Mark.onAll f x y (colorMark? f x' y' c).toList v =
      if x = x' ∧ y = y' then (GlyphDot.color c).on f st v else v := by
  rw [colorMark?, GlyphDot.on]
  by_cases hclear : c.a = 0
  · have hpart : c.a ≠ 255 := by rw [hclear]; decide
    simp [hclear, Mark.laid, Mark.onAll]
  · rw [if_neg hclear]
    by_cases hopaque : c.a = 255
    · rw [if_pos hopaque, if_pos hopaque]
      rfl
    · rw [if_neg hopaque, if_neg hopaque]
      rfl

/-- The place of the pixel `i` in rows of `n`. -/
theorem place_eq_iff {n i : Nat} {X Y : Int} (hX : 0 ≤ X) (hX' : X < n) (hY : 0 ≤ Y) :
    (X = (i % n : Nat) ∧ Y = (i / n : Nat)) ↔ i = Y.toNat * n + X.toNat := by
  have hunique := Nat.div_mod_unique (a := i) (c := X.toNat) (d := Y.toNat) (show 0 < n by omega)
  rw [Nat.mul_comm n] at hunique
  generalize i % n = r at hunique ⊢
  generalize i / n = q at hunique ⊢
  generalize Y.toNat * n = k at hunique ⊢
  omega

/-- A pixel has its place in the rows that the pixels make up. -/
theorem place_inside {n m i : Nat} (hi : i < n * m) : i % n < n ∧ i / n < m :=
  ⟨Nat.mod_lt i (Nat.pos_of_mul_pos_right (Nat.zero_lt_of_lt hi)), Nat.div_lt_of_lt_mul hi⟩

theorem onAll_marks (px : GlyphPixels) (f : PixelFormat) (x y : Int) (st : TextStyle) (origin : Point)
    (v : Pixel) :
    Mark.onAll f x y (px.marks f origin) v = (px.dot (x - origin.x) (y - origin.y)).on f st v := by
  have hshift (i : Nat) : (x = origin.x + (i % px.columns : Nat) ∧ y = origin.y + (i / px.columns : Nat)) ↔
      (x - origin.x = (i % px.columns : Nat) ∧ y - origin.y = (i / px.columns : Nat)) := by
    generalize i % px.columns = r
    generalize i / px.columns = q
    omega
  rw [marks, List.filterMap_eq_flatMap_toList, Mark.onAll_flatMap_eq_foldl, dot]
  simp only [onAll_colorMark f x y _ _ st, hshift]
  generalize x - origin.x = X
  generalize y - origin.y = Y
  generalize px.columns = n
  generalize px.rows = m
  by_cases hin : 0 ≤ X ∧ X < n ∧ 0 ≤ Y ∧ Y < m
  · rw [if_pos hin]
    simp only [place_eq_iff hin.1 hin.2.1 hin.2.2.1]
    generalize hi : Y.toNat * n + X.toNat = i₀
    have hcount : i₀ < n * m := by
      have := Nat.mul_le_mul_right n (show Y.toNat + 1 ≤ m by omega)
      rw [Nat.succ_mul, Nat.mul_comm m] at this
      omega
    by_cases hsize : i₀ < px.pixels.size
    · have hmem : i₀ ∈ List.range (min (n * m) px.pixels.size) := List.mem_range.mpr (by omega)
      rw [foldl_of_one List.nodup_range hmem fun i _ hne v => if_neg hne, if_pos rfl]
    · rw [Array.getD, dif_neg hsize]
      refine foldl_of_none (fun i hi v => if_neg fun h => hsize ?_) v
      rw [List.mem_range] at hi
      omega
  · rw [if_neg hin]
    refine foldl_of_none (fun i hi v => if_neg fun h => hin ?_) v
    have hplace := place_inside (show i < n * m by rw [List.mem_range] at hi; omega)
    rw [h.1, h.2]
    generalize i % n = r at hplace ⊢
    generalize i / n = q at hplace ⊢
    omega

theorem turns_marks (px : GlyphPixels) (f : PixelFormat) (x y : Int) (st : TextStyle) (origin : Point) :
    Painter.Turns f x y (fun p => p.markAll (px.marks f origin))
      ((px.dot (x - origin.x) (y - origin.y)).on f st ·) :=
  (Painter.turns_markAll f x y _).congr (px.onAll_marks f x y st origin)

end GlyphPixels

/-! ## Pictures -/

namespace GlyphImage

/-- The dot of a picture for the pixel `(X, Y)` of its place. -/
def dotAt : GlyphImage → Int → Int → GlyphDot
  | .bits b _ scale, X, Y => .ofBit (b.bit (X / scale) (Y / scale))
  | .grey c scale, X, Y => .grey (c.byte (X / scale) (Y / scale))
  | .channels c, X, Y => c.dot X Y
  | .colors px, X, Y => px.dot X Y

/-- Bits are drawn in the regular weight, and nothing is made smaller. -/
def Unweighted : GlyphImage → Prop
  | .bits _ weight scale => weight = .regular ∧ 1 ≤ scale
  | .grey _ scale => 1 ≤ scale
  | .channels _ => True
  | .colors _ => True

end GlyphImage

theorem Slant.source_of_upright (h : slant.leans = false) (origin : Point) (x y : Int) :
    slant.source origin x y = ⟨x - origin.x, y - origin.y⟩ := by
  simp [source, shift, h]

theorem RegularWeight.turns_marks (b : BitPicture) {scale : Int} (hscale : 1 ≤ scale) (f : PixelFormat)
    (x y : Int) (st : TextStyle) (origin : Point) (slant : Slant) :
    Painter.Turns f x y (fun p => p.markAll (marks b scale origin slant st.textColor)) fun v =>
      (GlyphDot.ofBit (b.bit ((slant.source origin x y).x / scale) ((slant.source origin x y).y / scale))).on
        f st v := by
  rintro p hp rfl
  refine ⟨Painter.frame_markAll hp.sound _, Painter.tool_markAll hp.sound _, fun v hv => ?_⟩
  have htouched : (∃ m ∈ marks b scale origin slant st.textColor, m.Touches x y) ↔
      b.bit ((slant.source origin x y).x / scale) ((slant.source origin x y).y / scale) = true :=
    touched_marks hscale
  cases hbit : b.bit ((slant.source origin x y).x / scale) ((slant.source origin x y).y / scale) with
  | true =>
    exact Painter.get?_markAll_of_touches hp.sound hp.rop (fun m => mem_marks) hp.reaches (htouched.mpr hbit)
  | false =>
    refine (Painter.get?_markAll_of_not_touches hp.sound fun m hm htouch => ?_).trans hv
    rw [htouched.mp ⟨m, hm, htouch⟩] at hbit
    cases hbit

/-- An upright picture turns a pixel by the dot that it has for it. -/
theorem TextStyle.turns_drawImage (st : TextStyle) (f : PixelFormat) (x y : Int) (back : Scratch)
    {ink : InkBox} (hupright : ink.slant.leans = false) {image : GlyphImage} (himage : image.Unweighted) :
    Painter.Turns f x y (fun p => (st.drawImage p back ink image).1)
      ((image.dotAt (x - ink.origin.x) (y - ink.origin.y)).on f st ·) := by
  have hsource := Slant.source_of_upright hupright ink.origin x y
  cases image with
  | bits b weight scale =>
    obtain ⟨rfl, hscale⟩ := himage
    have h := RegularWeight.turns_marks b hscale f x y st ink.origin ink.slant
    rwa [hsource] at h
  | grey c scale =>
    refine (Painter.turns_markAll f x y _).congr fun v => ?_
    rw [CoveragePicture.onAll_greyMarks himage, hsource]
    rfl
  | channels c =>
    rintro p hp rfl
    exact c.turns_drawChannels p.surface.format x y st ink.origin p hp rfl
  | colors px =>
    rintro p hp rfl
    have h := px.turns_marks p.surface.format x y st ink.origin p hp rfl
    have hdot : (GlyphImage.colors px).dotAt (x - ink.origin.x) (y - ink.origin.y) =
        px.dot (x - ink.origin.x) (y - ink.origin.y) := rfl
    rw [hdot]
    generalize px.dot (x - ink.origin.x) (y - ink.origin.y) = dot at h ⊢
    dsimp only at h ⊢
    rw [TextStyle.drawImage]
    generalize px.marks p.surface.format ink.origin = ms at h ⊢
    exact h

end Rasterizer
