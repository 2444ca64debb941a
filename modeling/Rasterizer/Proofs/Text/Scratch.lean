import Rasterizer.Proofs.Text.Subpixel

/-! # Buffers kept between glyphs

What a text draws and how far it goes depends neither on what the buffers hold nor on how large they are
(`TextPage.drawText_sameButScratch`). A picture is made ready as in empty buffers. The rows of colours are
read as far as a row of the picture goes, and so far they are written before: row after row of a picture,
two sets of them agree on what the filter has read ahead (`SubpixelWeight.Agree`). -/

namespace Rasterizer

namespace SubpixelWeight

/-- Rows with room for `n` colours that hold the same before the row `i` of a picture is drawn. Before the
first row nothing has been read, and the row above is never read again. -/
structure Agree (n : Nat) (i : Int) (b b' : Scratch) : Prop where
  room : b.hasRoom n = true
  room' : b'.hasRoom n = true
  here : 0 < i → b'.here.take n = b.here.take n
  below : 0 < i → b'.below.take n = b.below.take n

variable {n : Nat} {i : Int} {b b' : Scratch}

theorem agree_zero (hroom : b.hasRoom n = true) (hroom' : b'.hasRoom n = true) : Agree n 0 b b' :=
  ⟨hroom, hroom', fun h => by omega, fun h => by omega⟩

theorem hasRoom_moveOn (hroom : b.hasRoom n = true) (s : Surface) (i x y : Int) (outside : Color) :
    (moveOn s n i x y outside b).hasRoom n = true := by
  rw [Scratch.hasRoom_iff] at hroom ⊢
  obtain ⟨habove, hhere, hbelow⟩ := hroom
  rw [moveOn]
  split
  · simpa using ⟨habove, hhere, hbelow⟩
  · exact ⟨hhere, hbelow, habove⟩

theorem hasRoom_readAround (hroom : b.hasRoom n = true) (s : Surface) (h i x y : Int) (outside : Color) :
    (readAround s n h i x y outside b).hasRoom n = true := by
  have hmoved := hasRoom_moveOn hroom s i x y outside
  rw [Scratch.hasRoom_iff] at hmoved ⊢
  simp only [readAround]
  split <;> simpa using hmoved

theorem Agree.moveOn (hagree : Agree n i b b') (hi : 0 ≤ i) (s : Surface) (x y : Int) (outside : Color) :
    (moveOn s n i x y outside b').above.take n = (moveOn s n i x y outside b).above.take n ∧
      (moveOn s n i x y outside b').here.take n = (moveOn s n i x y outside b).here.take n := by
  obtain ⟨habove, hhere, -⟩ := Scratch.hasRoom_iff.mp hagree.room
  obtain ⟨habove', hhere', -⟩ := Scratch.hasRoom_iff.mp hagree.room'
  by_cases hfirst : i = 0
  · have hread : (Scratch.readRow s n x y outside b'.here).take n =
        (Scratch.readRow s n x y outside b.here).take n := by
      rw [Scratch.take_readRow hhere' rfl fun _ => rfl, Scratch.take_readRow hhere rfl fun _ => rfl]
    simp only [SubpixelWeight.moveOn, if_pos hfirst]
    refine ⟨?_, hread⟩
    rw [Scratch.take_copyRow habove' (by simpa using hhere'),
      Scratch.take_copyRow habove (by simpa using hhere), hread]
  · simp only [SubpixelWeight.moveOn, if_neg hfirst]
    exact ⟨hagree.here (by omega), hagree.below (by omega)⟩

/-- The rows around a row of the picture are the same, and so are those read ahead for the next one. -/
theorem Agree.readAround (hagree : Agree n i b b') (hi : 0 ≤ i) (s : Surface) (h x y : Int)
    (outside : Color) :
    (readAround s n h i x y outside b').above.take n = (readAround s n h i x y outside b).above.take n ∧
      Agree n (i + 1) (readAround s n h i x y outside b) (readAround s n h i x y outside b') := by
  obtain ⟨habove, hhere⟩ := hagree.moveOn hi s x y outside
  have hmoved := hasRoom_moveOn hagree.room s i x y outside
  have hmoved' := hasRoom_moveOn hagree.room' s i x y outside
  have hroom := hasRoom_readAround hagree.room s h i x y outside
  have hroom' := hasRoom_readAround hagree.room' s h i x y outside
  simp only [SubpixelWeight.readAround] at hroom hroom' ⊢
  generalize SubpixelWeight.moveOn s n i x y outside b = m at *
  generalize SubpixelWeight.moveOn s n i x y outside b' = m' at *
  obtain ⟨-, hsize, hsizeBelow⟩ := Scratch.hasRoom_iff.mp hmoved
  obtain ⟨-, hsize', hsizeBelow'⟩ := Scratch.hasRoom_iff.mp hmoved'
  by_cases hlast : i = h - 1
  · simp only [if_pos hlast] at hroom hroom' ⊢
    refine ⟨habove, hroom, hroom', fun _ => hhere, fun _ => ?_⟩
    rw [Scratch.take_copyRow hsizeBelow' hsize', Scratch.take_copyRow hsizeBelow hsize, hhere]
  · simp only [if_neg hlast] at hroom hroom' ⊢
    refine ⟨habove, hroom, hroom', fun _ => hhere, fun _ => ?_⟩
    rw [Scratch.take_readRow hsizeBelow' rfl fun _ => rfl,
      Scratch.take_readRow hsizeBelow rfl fun _ => rfl]

variable (pic : BitPicture) (origin : Point) (slant : Slant) (text outside : Color) (p : Painter)

theorem Agree.drawRow (hagree : Agree pic.w.toNat i b b') (hi : 0 ≤ i) :
    (drawRow pic origin slant text outside (p, b') i).1 = (drawRow pic origin slant text outside (p, b) i).1 ∧
      Agree pic.w.toNat (i + 1) (drawRow pic origin slant text outside (p, b) i).2
        (drawRow pic origin slant text outside (p, b') i).2 := by
  obtain ⟨habove, hread⟩ :=
    hagree.readAround hi p.surface pic.h (origin.x + slant.shift i) (origin.y + i) outside
  refine ⟨?_, hread⟩
  simp only [SubpixelWeight.drawRow, habove, hread.here (by omega), hread.below (by omega)]

theorem Agree.foldl_drawRow (hagree : Agree pic.w.toNat i b b') (hi : 0 ≤ i) :
    ((irange i (pic.h - 1)).foldl (SubpixelWeight.drawRow pic origin slant text outside) (p, b')).1 =
      ((irange i (pic.h - 1)).foldl (SubpixelWeight.drawRow pic origin slant text outside) (p, b)).1 := by
  induction hn : (pic.h - i).toNat generalizing i p b b' with
  | zero => rw [irange_eq_nil (by omega), List.foldl_nil, List.foldl_nil]
  | succ m ih =>
    obtain ⟨hpainter, hnext⟩ := hagree.drawRow pic origin slant text outside p hi
    rw [irange_cons (by omega), List.foldl_cons, List.foldl_cons,
      ← Prod.mk.eta (p := SubpixelWeight.drawRow pic origin slant text outside (p, b') i), hpainter]
    exact ih _ hnext (by omega) (by omega)

/-- Rows that have room draw the same. -/
theorem draw_of_hasRoom (hroom : b.hasRoom pic.w.toNat = true) (hroom' : b'.hasRoom pic.w.toNat = true) :
    (draw pic origin slant text outside p b').1 = (draw pic origin slant text outside p b).1 := by
  rw [draw, draw, if_pos hroom, if_pos hroom']
  exact (agree_zero hroom hroom').foldl_drawRow pic origin slant text outside p (by omega)

end SubpixelWeight

theorem TextStyle.drawImage_of_hasRoom (st : TextStyle) (p : Painter) (ink : InkBox) {image : GlyphImage}
    {b b' : Scratch} (hroom : image.HasRoom b) (hroom' : image.HasRoom b') :
    (st.drawImage p b' ink image).1 = (st.drawImage p b ink image).1 := by
  cases image with
  | bits pic weight scale =>
    cases weight with
    | regular | light => rfl
    | book =>
      simp only [drawImage]
      split <;> rfl
    | subpixel => exact SubpixelWeight.draw_of_hasRoom pic _ _ _ _ p hroom hroom'
  | grey | channels | colors => rfl

namespace TextPage

variable {st : TextStyle} {g : Glyph} {x y : Int}

/-! ## Glyphs -/

theorem drawInk_scratch (st : TextStyle) (g : Glyph) (rc : Rect) (ink : InkBox) (p : Painter) (b b' : Scratch) :
    (drawInk st g rc ink p b').1.1 = (drawInk st g rc ink p b).1.1 ∧
      (drawInk st g rc ink p b').2 = (drawInk st g rc ink p b).2 := by
  obtain ⟨loaded, hroom, hdraw⟩ := exists_drawInk_eq st g rc ink p b
  obtain ⟨loaded', hroom', hdraw'⟩ := exists_drawInk_eq st g rc ink p b'
  rw [hdraw, hdraw']
  split
  case isFalse => exact ⟨rfl, rfl⟩
  case isTrue =>
    rcases himage : st.image? g ink with e | (_ | image)
    · exact ⟨rfl, rfl⟩
    · exact ⟨rfl, rfl⟩
    · exact ⟨st.drawImage_of_hasRoom p ink (hroom image himage) (hroom' image himage), rfl⟩

theorem drawPlanned_scratch (st : TextStyle) (g : Glyph) (pl : GlyphPlan) (p : Painter) (b b' : Scratch) :
    (drawPlanned st g pl p b').1.1 = (drawPlanned st g pl p b).1.1 ∧
      (drawPlanned st g pl p b').2 = (drawPlanned st g pl p b).2 := by
  obtain ⟨hpainter, hresult⟩ := drawInk_scratch st g pl.rc pl.ink (drawGround st pl.area p) b b'
  rw [drawPlanned, drawPlanned]
  rcases hdraw : drawInk st g pl.rc pl.ink (drawGround st pl.area p) b with ⟨⟨q, c⟩, result⟩
  rcases hdraw' : drawInk st g pl.rc pl.ink (drawGround st pl.area p) b' with ⟨⟨q', c'⟩, result'⟩
  rw [hdraw, hdraw'] at hpainter hresult
  cases hpainter
  cases hresult
  cases result <;> exact ⟨rfl, rfl⟩

/-! ## Pages -/

/-- The pages differ in their buffers at most. -/
def SameButScratch (page page' : TextPage) : Prop := ∃ scratch, page' = { page with scratch := scratch }

variable {page page' : TextPage}

theorem drawGlyph_sameButScratch (h : SameButScratch page page') (st : TextStyle) (g : Glyph) (x y : Int) :
    SameButScratch (page.drawGlyph st g x y).1 (page'.drawGlyph st g x y).1 ∧
      (page'.drawGlyph st g x y).2 = (page.drawGlyph st g x y).2 := by
  obtain ⟨scratch, rfl⟩ := h
  rw [drawGlyph, drawGlyph]
  by_cases hg : g = Glyph.invalid
  · rw [if_pos hg, if_pos hg]
    exact ⟨⟨scratch, rfl⟩, rfl⟩
  rw [if_neg hg, if_neg hg]
  dsimp only
  generalize plan st g x (y + st.lineExtra) = pl
  cases (pl.window.intersect? page.bound).bind (Painter.open? page.surface page.clip) with
  | none => exact ⟨⟨scratch, rfl⟩, rfl⟩
  | some p =>
    obtain ⟨hpainter, hresult⟩ := drawPlanned_scratch st g pl p page.scratch scratch
    dsimp only
    rw [hpainter]
    exact ⟨⟨_, rfl⟩, hresult⟩

theorem drawFrom_sameButScratch (h : SameButScratch page page') (st : TextStyle) (x y : Int)
    (glyphs : List Glyph) (total : Advance) :
    SameButScratch (drawFrom st x y glyphs total page).1 (drawFrom st x y glyphs total page').1 ∧
      (drawFrom st x y glyphs total page').2 = (drawFrom st x y glyphs total page).2 := by
  induction glyphs generalizing page page' total with
  | nil => exact ⟨h, rfl⟩
  | cons g gs ih =>
    obtain ⟨hpage, hresult⟩ := drawGlyph_sameButScratch h st g (x + total.dx) (y + total.dy)
    rw [drawFrom, drawFrom]
    rcases hdraw : page.drawGlyph st g (x + total.dx) (y + total.dy) with ⟨next, result⟩
    rcases hdraw' : page'.drawGlyph st g (x + total.dx) (y + total.dy) with ⟨next', result'⟩
    rw [hdraw, hdraw'] at hpage hresult
    cases hresult
    cases result with
    | error e => exact ⟨hpage, rfl⟩
    | ok a => exact ih hpage (addAdvance total a)

/-- A text draws the same and goes as far, whatever the buffers are. -/
theorem drawText_sameButScratch (h : SameButScratch page page') (st : TextStyle) (glyphs : List Glyph)
    (x y : Int) :
    SameButScratch (page.drawText st glyphs x y).1 (page'.drawText st glyphs x y).1 ∧
      (page'.drawText st glyphs x y).2 = (page.drawText st glyphs x y).2 :=
  drawFrom_sameButScratch h st x y glyphs {}

end TextPage

end Rasterizer
