import Rasterizer.Proofs.Canvas.Commands
import Rasterizer.Proofs.Surface.Writes

/-! # Ramps kept up to date

The colours of a ramp are made by carrying each channel on by its step, and no channel leaves its
byte on the way (`Ramps.pixelRamp_eq_walkedRamp`). A canvas keeps the ramps of its text beside the colours
and the mode that they come from. Each call either leaves all of them and the surface's format as
they are or works the ramps out anew, so they are current after any sequence of calls
(`Canvas.ramps_current`). -/

namespace Rasterizer

/-! ## The steps of a ramp -/

namespace Ramps

/-- The step of a channel from the background towards the text. -/
def channelStep (bk text : UInt8) : Int := ((text.toNat : Int) - bk.toNat).tdiv 16

/-- The low byte of a channel. -/
def lowByte (v : Int) : UInt8 := UInt8.ofNat (v % 256).toNat

/-- The pixels of a ramp and the channels that the last of them was made of. -/
abbrev Walked : Type := Array Pixel × Int × Int × Int

/-- Carries the channels on and stores the pixel that they make up. -/
def walkChannels (format : PixelFormat) (t b : Color) (w : Walked) (i : Nat) : Walked :=
  let red := w.2.1 + channelStep b.r t.r
  let green := w.2.2.1 + channelStep b.g t.g
  let blue := w.2.2.2 + channelStep b.b t.b
  (w.1.setIfInBounds i (format.mapRgb (lowByte red) (lowByte green) (lowByte blue)), red, green, blue)

/-- The pixels from background to text, the channels carried on from each to the next. -/
def walkedRamp (format : PixelFormat) (text bk : Pixel) : Array Pixel :=
  let t := format.getRgb text
  let b := format.getRgb bk
  let w := ((List.range 15).map (· + 1)).foldl (walkChannels format t b)
    (Array.replicate rampSize bk, b.r.toNat, b.g.toNat, b.b.toNat)
  w.1.setIfInBounds 16 text

/-- Sixteen steps do not lead beyond the text. -/
theorem channelStep_between (bk text : UInt8) :
    (0 ≤ channelStep bk text ∧ (bk.toNat : Int) + channelStep bk text * 16 ≤ text.toNat) ∨
      (channelStep bk text ≤ 0 ∧ (text.toNat : Int) ≤ bk.toNat + channelStep bk text * 16) := by
  rw [channelStep]
  rcases Int.le_total 0 ((text.toNat : Int) - bk.toNat) with h | h
  · rw [Int.tdiv_eq_ediv_of_nonneg h]
    omega
  · rw [← Int.neg_neg ((text.toNat : Int) - bk.toNat), Int.neg_tdiv, Int.tdiv_eq_ediv_of_nonneg (by omega)]
    omega

theorem channel_in_byte (bk text : UInt8) {i : Nat} (hi : i ≤ 16) :
    0 ≤ (bk.toNat : Int) + channelStep bk text * i ∧ (bk.toNat : Int) + channelStep bk text * i < 256 := by
  have hbk := bk.toNat_lt
  have htext := text.toNat_lt
  have hi' : (i : Int) ≤ 16 := by omega
  rcases channelStep_between bk text with ⟨hsign, hend⟩ | ⟨hsign, hend⟩
  · have hle := Int.mul_le_mul_of_nonneg_left hi' hsign
    have hnonneg := Int.mul_nonneg hsign (Int.natCast_nonneg i)
    omega
  · have hle := Int.mul_le_mul_of_nonneg_left hi' (Int.neg_nonneg.mpr hsign)
    rw [Int.neg_mul, Int.neg_mul] at hle
    have hnonpos := Int.mul_nonpos_of_nonpos_of_nonneg hsign (Int.natCast_nonneg i)
    omega

theorem lowByte_channel (bk text : UInt8) {i : Nat} (hi : i ≤ 16) :
    lowByte (bk.toNat + channelStep bk text * i) = channelAt bk text i := by
  obtain ⟨hlow, hhigh⟩ := channel_in_byte bk text hi
  rw [lowByte, Int.emod_eq_of_lt hlow hhigh]
  rfl

/-- The ramp with its first `m` steps made and the background at the other places. -/
def rampUpTo (format : PixelFormat) (t b : Color) (bk : Pixel) (m : Nat) : Array Pixel :=
  Array.ofFn fun i : Fin rampSize =>
    if i.val = 0 ∨ m < i.val then bk
    else format.mapRgb (channelAt b.r t.r i) (channelAt b.g t.g i) (channelAt b.b t.b i)

theorem foldl_walkChannels (format : PixelFormat) (t b : Color) (bk : Pixel) {m : Nat} (hm : m ≤ 15) :
    ((List.range m).map (· + 1)).foldl (walkChannels format t b)
        (Array.replicate rampSize bk, b.r.toNat, b.g.toNat, b.b.toNat) =
      (rampUpTo format t b bk m, b.r.toNat + channelStep b.r t.r * m, b.g.toNat + channelStep b.g t.g * m,
        b.b.toNat + channelStep b.b t.b * m) := by
  induction m with
  | zero =>
    have hblank : rampUpTo format t b bk 0 = Array.replicate rampSize bk := by
      refine Array.ext (by simp [rampUpTo]) fun i hi hi' => ?_
      simp [rampUpTo, Nat.pos_iff_ne_zero, em]
    simp [hblank]
  | succ m ih =>
    have hcarry : ∀ s : Int, s * m + s = s * (m + 1 : Nat) := fun s => by push_cast; ring
    rw [List.range_succ, List.map_append, List.foldl_append, ih (by omega)]
    simp only [List.map_cons, List.map_nil, List.foldl_cons, List.foldl_nil, walkChannels, Int.add_assoc, hcarry,
      lowByte_channel _ _ (show m + 1 ≤ 16 by omega), Prod.mk.injEq, and_true]
    refine Array.ext (by simp [rampUpTo]) fun i hi hi' => ?_
    rw [Array.getElem_setIfInBounds (by simpa using hi)]
    simp only [rampUpTo, Array.getElem_ofFn]
    by_cases hlast : m + 1 = i
    · subst hlast
      simp
    · rw [if_neg hlast]
      exact if_congr (by omega) rfl rfl

/-- The ramp of a format with steps is the one made by carrying the channels on. -/
theorem pixelRamp_eq_walkedRamp (format : PixelFormat) (text bk : Pixel) :
    pixelRamp format text bk true = walkedRamp format text bk := by
  simp only [walkedRamp, foldl_walkChannels format _ _ bk le_rfl]
  refine Array.ext (by simp [pixelRamp, rampUpTo]) fun i hi hi' => ?_
  have hin : i < 17 := by simpa [pixelRamp, rampSize] using hi
  rw [Array.getElem_setIfInBounds (by simpa using hi')]
  simp only [pixelRamp, rampUpTo, Array.getElem_ofFn]
  by_cases hlast : i = 16
  · simp [hlast]
  · rw [if_neg hlast, if_neg (Ne.symm hlast)]
    exact if_congr (by simp; omega) rfl rfl

end Ramps

/-! ## Calls -/

namespace Canvas

/-- A call that may change a canvas: it sets attributes, draws, or writes to the surface. -/
inductive Action where
  | setMapMode (mode : MapMode)
  | setWindowOrg (p : Point)
  | setViewportOrg (p : Point)
  | setWindowExt (p : Point)
  | setViewportExt (p : Point)
  | setClip (region : Region)
  | resetClip
  | setRop (rop : RasterOp)
  | setPenColor (color : Pixel)
  | setPenWidth (width : Nat)
  | setPenStyle (style : PenStyle)
  | setPenCap (cap : LineCap)
  | setPenJoin (join : LineJoin)
  | setPenDashes (offset : Nat) (dashes : List UInt8)
  | setBrushColor (color : Pixel)
  | setBrushKind (kind : BrushKind)
  | setBrushPatterns (tile : Option Tile) (stipple : Option Stipple)
  | setBrushOrigin (origin : Point)
  | setTextColor (color : Pixel)
  | setBackground (color : Pixel)
  | setBackgroundMode (mode : BackgroundMode)
  | setFont (font : LogicalFont)
  | setTextAlign (align : TextAlign)
  | setCharExtra (extra : Int)
  | setLineExtra (extra : Int)
  | draw (d : Drawing)
  | drawText (x y : Int) (glyphs : List Glyph)
  | drawGlyph (x y : Int) (g : Glyph)
  | write (w : SurfaceWrite)

/-- The canvas after a call. A call that is refused leaves the canvas as it was. -/
def act (c : Canvas) : Action → Canvas
  | .setMapMode mode => c.setMapMode mode
  | .setWindowOrg p => c.setWindowOrg p
  | .setViewportOrg p => c.setViewportOrg p
  | .setWindowExt p => (c.setWindowExt p).toOption.getD c
  | .setViewportExt p => (c.setViewportExt p).toOption.getD c
  | .setClip region => c.setClip region
  | .resetClip => c.resetClip
  | .setRop rop => c.setRop rop
  | .setPenColor color => c.setPenColor color
  | .setPenWidth width => c.setPenWidth width
  | .setPenStyle style => c.setPenStyle style
  | .setPenCap cap => c.setPenCap cap
  | .setPenJoin join => c.setPenJoin join
  | .setPenDashes offset dashes => c.setPenDashes offset dashes
  | .setBrushColor color => c.setBrushColor color
  | .setBrushKind kind => c.setBrushKind kind
  | .setBrushPatterns tile stipple => c.setBrushPatterns tile stipple
  | .setBrushOrigin origin => c.setBrushOrigin origin
  | .setTextColor color => c.setTextColor color
  | .setBackground color => c.setBackground color
  | .setBackgroundMode mode => c.setBackgroundMode mode
  | .setFont font => c.setFont font
  | .setTextAlign align => c.setTextAlign align
  | .setCharExtra extra => c.setCharExtra extra
  | .setLineExtra extra => c.setLineExtra extra
  | .draw d => c.draw d
  | .drawText x y glyphs => (c.drawText x y glyphs).1
  | .drawGlyph x y g => (c.drawGlyph x y g).1
  | .write w => { c with surface := (c.surface.perform w).1 }

/-- The ramps are those of the text's colours and mode in the format of the surface. The clip is
bands of runs, which is what drawing inside it builds on. -/
structure Current (c : Canvas) : Prop where
  banded : c.clip.Banded
  ramps : c.text.ramps = c.text.currentRamps c.surface.format

variable {c c' : Canvas}

theorem current_create (surface : Surface) (space : CoordSpace) : Current (create surface space) where
  banded := banded_wholeClip surface space
  ramps := rfl

/-- What leaves the text and the format alone leaves the ramps current. -/
theorem Current.congr (h : Current c) (hclip : c'.clip.Banded) (htext : c'.text = c.text)
    (hformat : c'.surface.format = c.surface.format) : Current c' where
  banded := hclip
  ramps := by rw [htext, hformat, h.ramps]

theorem Current.withMapping (h : Current c) (m : Mapping) : Current (c.withMapping m) :=
  h.congr h.banded rfl rfl

/-- Whatever the text was like before, its ramps are worked out anew. -/
theorem Current.setText (h : Current c) (t : TextAttributes) : Current (c.setText t) where
  banded := h.banded
  ramps := rfl

/-- A refused mapping is no change. -/
theorem Current.mapped (h : Current c) (mapping : Except RasterError Mapping) :
    Current ((mapping.map c.withMapping).toOption.getD c) := by
  cases mapping with
  | error e => exact h
  | ok m => exact h.withMapping m

theorem Current.draw (h : Current c) (d : Drawing) : Current (c.draw d) := by
  obtain ⟨pos, g, hmaps⟩ := (mapped_draw d).maps h.banded
  exact h.congr (hmaps.clip ▸ h.banded) (by rw [hmaps.kept]) hmaps.shape.format

theorem text_drawText (c : Canvas) (x y : Int) (glyphs : List Glyph) : (c.drawText x y glyphs).1.text = c.text := by
  rw [drawText]
  cases c.text.font with
  | none => rfl
  | some font => cases visibleRect? c.surface c.space <;> rfl

theorem Current.drawText (h : Current c) (x y : Int) (glyphs : List Glyph) : Current (c.drawText x y glyphs).1 := by
  obtain ⟨hclip, -, hshape, -⟩ := kept_drawText h.banded x y glyphs
  exact h.congr (hclip ▸ h.banded) (text_drawText c x y glyphs) hshape.format

theorem Current.act (h : Current c) (action : Action) : Current (c.act action) := by
  cases action with
  | setClip region => exact h.congr (banded_setClip c region) rfl rfl
  | resetClip => exact h.congr (banded_wholeClip c.surface c.space) rfl rfl
  | setMapMode | setWindowOrg | setViewportOrg => exact h.withMapping _
  | setWindowExt p => exact h.mapped (c.space.mapping.withWindowExt p)
  | setViewportExt p => exact h.mapped (c.space.mapping.withViewportExt p)
  | setTextColor | setBackground | setBackgroundMode | setFont => exact h.setText _
  -- alignment and spacing are not among the attributes that the ramps come from
  | setTextAlign | setCharExtra | setLineExtra => exact ⟨h.banded, h.ramps⟩
  | setRop | setPenColor | setPenWidth | setPenStyle | setPenCap | setPenJoin | setPenDashes | setBrushColor
  | setBrushKind | setBrushPatterns | setBrushOrigin => exact h.congr h.banded rfl rfl
  | draw d => exact h.draw d
  | drawText x y glyphs => exact h.drawText x y glyphs
  | drawGlyph x y g => exact h.drawText x y [g]
  | write w => exact h.congr h.banded rfl (Surface.sameShape_perform c.surface w).format

theorem Current.foldl_act (h : Current c) (actions : List Action) : Current (actions.foldl Canvas.act c) := by
  induction actions generalizing c with
  | nil => exact h
  | cons action actions ih => exact ih (h.act action)

/-- Whatever was called before, the ramps belong to the format of the surface, the colours of the text and
its background, and the mode. -/
theorem ramps_current (surface : Surface) (space : CoordSpace) (actions : List Action) :
    let c := actions.foldl act (create surface space)
    c.text.ramps = .compute c.surface.format c.text.color c.text.background (c.text.mode == .transparent) :=
  ((current_create surface space).foldl_act actions).ramps

end Canvas

end Rasterizer
