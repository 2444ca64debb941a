import Rasterizer.Proofs.Canvas.GlyphDots

/-! # The same glyph in another style

A flag that is added to a style or taken from it leaves the tests for other flags as they were
(`FontStyle.Agree`). A source that takes no notice of the style gives a glyph the same box in both, as
long as both widen it or neither does (`TextStyle.box_restyled`). -/

namespace Rasterizer

namespace FontStyle

/-- The two styles have the same flags of a set. -/
def Agree (flags s s' : FontStyle) : Prop := s'.bits &&& flags.bits = s.bits &&& flags.bits

variable {flags s s' a b : FontStyle}

theorem Agree.contains (h : Agree flags s s') : s'.contains flags = s.contains flags := by
  rw [FontStyle.contains, FontStyle.contains, h]

theorem Agree.intersects (h : Agree flags s s') : s'.intersects flags = s.intersects flags := by
  rw [FontStyle.intersects, FontStyle.intersects, h]

/-- Adding flags does not show in others. -/
theorem agree_union (h : b.bits &&& flags.bits = 0) (s : FontStyle) : Agree flags s (s.union b) := by
  simp only [Agree, union, ← UInt32.toBitVec_inj, UInt32.toBitVec_and, UInt32.toBitVec_or] at h ⊢
  rw [BitVec.and_comm, BitVec.and_or_distrib_left, BitVec.and_comm _ b.bits.toBitVec, h]
  simp [BitVec.and_comm]

/-- Taking flags away does not show in others. -/
theorem agree_remove (h : b.bits &&& flags.bits = 0) (s : FontStyle) : Agree flags s (s.remove b) := by
  simp only [Agree, remove, ← UInt32.toBitVec_inj, UInt32.toBitVec_and, UInt32.toBitVec_not] at h ⊢
  ext i hi
  have hi := congrArg (·[i]) h
  simp only [BitVec.getElem_and, BitVec.getElem_not] at hi ⊢
  cases hb : b.bits.toBitVec[i] <;> cases hf : flags.bits.toBitVec[i] <;> simp_all

theorem contains_union (h : b.bits ≠ 0) (s : FontStyle) : (s.union b).contains b = true := by
  simp only [contains, union, Bool.and_eq_true, beq_iff_eq, bne_iff_ne]
  refine ⟨?_, h⟩
  simp only [← UInt32.toBitVec_inj, UInt32.toBitVec_and, UInt32.toBitVec_or]
  ext i hi
  rw [BitVec.getElem_and, BitVec.getElem_or]
  cases s.bits.toBitVec[i] <;> cases b.bits.toBitVec[i] <;> rfl

end FontStyle

/-- The source takes no notice of the style that is asked for. -/
structure GlyphSource.Unstyled (s : GlyphSource) : Prop where
  advance : ∀ (r : FontRequest) (style : FontStyle) (i : UInt32),
    s.advance { r with style := style } i = s.advance r i
  box : ∀ (r : FontRequest) (style : FontStyle) (i : UInt32), s.box { r with style := style } i = s.box r i
  mono? : ∀ (r : FontRequest) (style : FontStyle) (i : UInt32),
    s.mono? { r with style := style } i = s.mono? r i

theorem GlyphSource.BuiltIn.unstyled {s : GlyphSource} (h : s.BuiltIn) : s.Unstyled := by
  cases h <;> exact ⟨fun _ _ _ => rfl, fun _ _ _ => rfl, fun _ _ _ => rfl⟩

section Widths

variable {f : LogicalFont} {style : FontStyle}

theorem LogicalFont.boldWidth_withStyle (h : FontStyle.Agree .bold f.style style) (s : GlyphSource) :
    (f.withStyle style).boldWidth s = f.boldWidth s := by
  simp only [boldWidth, withStyle, h.contains]

theorem TextPage.leanWidth_withStyle (h : FontStyle.Agree .italic f.style style) (s : GlyphSource) :
    leanWidth (f.withStyle style) s = leanWidth f s := by
  simp only [leanWidth, LogicalFont.withStyle, h.contains]

end Widths

namespace TextStyle

/-- The text in the same font with another style. -/
def restyled (st : TextStyle) (style : FontStyle) : TextStyle := { st with font := st.font.withStyle style }

variable {style : FontStyle} {g : Glyph} {x y : Int}

theorem box_restyled (st : TextStyle) (hs : (st.font.sourceOf g).Unstyled)
    (hbold : FontStyle.Agree .bold st.font.style style) :
    ((st.restyled style).place g x y).box = (st.place g x y).box := by
  have hwidth : (st.font.withStyle style).boldWidth (st.font.sourceOf g) =
      st.font.boldWidth (st.font.sourceOf g) := LogicalFont.boldWidth_withStyle hbold _
  have hsource : (st.font.withStyle style).sourceOf g = st.font.sourceOf g := rfl
  have hrequest : (st.font.withStyle style).toFontRequest = { st.font.toFontRequest with style := style } := rfl
  simp only [place, restyled, runsRight, hsource, hrequest, hs.box, hs.advance, hwidth]

end TextStyle

end Rasterizer
