import Rasterizer.Proofs.Text.Agreement

/-! # The advance of a text

A text that is drawn to its end advances by what its glyphs advance one by one, whatever of it is seen
(`TextPage.advance_drawText`), and measuring adds up the same advances (`TextStyle.extent_eq`). The metrics
of a glyph count for a weight what a font asks for, and not what the weight takes on the page; the length of
a text differs from its metrics by that (`TextStyle.length_totalAdvance`). -/

namespace Rasterizer

namespace TextStyle

/-- What a glyph advances; the invalid one stays where it is. -/
def advanceOf (st : TextStyle) (g : Glyph) : Advance :=
  if g = Glyph.invalid then {}
  else
    let placed := st.place g 0 0
    ⟨placed.length, placed.move.x, placed.move.y⟩

/-- What the glyphs of a text advance together. -/
def totalAdvance (st : TextStyle) : List Glyph → Advance
  | [] => {}
  | g :: gs => TextPage.addAdvance (st.advanceOf g) (st.totalAdvance gs)

end TextStyle

namespace TextPage

variable {st : TextStyle} {g : Glyph} {a : Advance}

theorem addAdvance_zero (a : Advance) : addAdvance a {} = a := by
  simp only [addAdvance, Int.add_zero]

theorem zero_addAdvance (a : Advance) : addAdvance {} a = a := by
  simp only [addAdvance, Int.zero_add]

theorem addAdvance_assoc (a b c : Advance) :
    addAdvance (addAdvance a b) c = addAdvance a (addAdvance b c) := by
  simp only [addAdvance, Int.add_assoc]

/-! ## Drawing -/

/-- A glyph that nothing is seen of advances like any other. -/
theorem advance_drawGlyph (page : TextPage) (x y : Int) (hok : (page.drawGlyph st g x y).2 = .ok a) :
    a = st.advanceOf g := by
  have hdrawn := drawn_drawGlyph page st g x y
  generalize page.drawGlyph st g x y = result at hdrawn hok
  rw [TextStyle.advanceOf]
  -- the length and the move of a place do not depend on the pen
  cases hdrawn with
  | invalid hg =>
    cases hok
    rw [if_pos hg]
  | hidden hg =>
    cases hok
    rw [if_neg hg]
    rfl
  | seen hg =>
    rw [if_neg hg]
    exact advance_drawPlanned hok

theorem advance_drawFrom (x y : Int) (glyphs : List Glyph) (total : Advance) (page : TextPage)
    (hok : (drawFrom st x y glyphs total page).2 = .ok a) :
    a = addAdvance total (st.totalAdvance glyphs) := by
  induction glyphs generalizing total page with
  | nil =>
    rw [TextStyle.totalAdvance, addAdvance_zero]
    cases hok
    rfl
  | cons g gs ih =>
    rw [drawFrom] at hok
    rcases hg : page.drawGlyph st g (x + total.dx) (y + total.dy) with ⟨page', e | b⟩
    · rw [hg] at hok
      cases hok
    · rw [hg] at hok
      have hb : b = st.advanceOf g := advance_drawGlyph page _ _ (congrArg Prod.snd hg)
      rw [ih (addAdvance total b) page' hok, hb, addAdvance_assoc, TextStyle.totalAdvance]

theorem advance_drawText (page : TextPage) (glyphs : List Glyph) (x y : Int)
    (hok : (page.drawText st glyphs x y).2 = .ok a) : a = st.totalAdvance glyphs :=
  (advance_drawFrom x y glyphs {} page hok).trans (zero_addAdvance _)

end TextPage

/-! ## Measuring -/

namespace TextStyle

/-- The places of the glyphs that are measured. -/
def measured (st : TextStyle) (glyphs : List Glyph) : List Placement :=
  (glyphs.filter (· ≠ Glyph.invalid)).map fun g => st.place g 0 0

theorem length_measured (st : TextStyle) (glyphs : List Glyph) :
    (st.measured glyphs).foldr (fun pl len => pl.length + len) 0 = (st.totalAdvance glyphs).length := by
  induction glyphs with
  | nil => rfl
  | cons g gs ih =>
    rw [totalAdvance, TextPage.addAdvance, ← ih, advanceOf]
    by_cases hg : g = Glyph.invalid
    · simp [measured, hg]
    · simp [measured, hg]

theorem stop_measured (st : TextStyle) (glyphs : List Glyph) (o : Point) :
    (st.measured glyphs).foldl (fun (q : Point) pl => q.shift pl.move) o =
      o.shift ⟨(st.totalAdvance glyphs).dx, (st.totalAdvance glyphs).dy⟩ := by
  induction glyphs generalizing o with
  | nil => simp [measured, totalAdvance, Point.shift]
  | cons g gs ih =>
    rw [totalAdvance, TextPage.addAdvance, advanceOf]
    by_cases hg : g = Glyph.invalid
    · simpa [measured, hg] using ih o
    · have hstep := ih (o.shift (st.place g 0 0).move)
      simpa [measured, hg, Point.shift, Int.add_assoc] using hstep

/-- A text measures what its glyphs advance, and the box behind a baseline of that displacement. -/
theorem extent_eq (st : TextStyle) (glyphs : List Glyph) :
    let a := st.totalAdvance glyphs
    let rc := (BackArea.behind st.font ⟨0, 0⟩ ⟨a.dx, a.dy⟩ false).bound.normalized
    st.extent glyphs = (a.length, rc.width, rc.height) := by
  have hstop := st.stop_measured glyphs ⟨0, 0⟩
  simp only [Point.shift, Int.zero_add] at hstop
  intro a rc
  simp only [rc, a, ← hstop, ← length_measured]
  rfl

end TextStyle

/-! ## Metrics -/

namespace LogicalFont

/-- The sources that glyphs are taken from. -/
def sources (f : LogicalFont) : List GlyphSource := f.main :: f.second.toList

/-- What the weight of a font takes beyond the advance of a glyph from a source. -/
def weightWidth (f : LogicalFont) (s : GlyphSource) : Int :=
  f.boldWidth s + if f.hasHalo s then 1 else 0

/-- What the metrics of any glyph count for the weight of a font. -/
def countedWidth (f : LogicalFont) : Int := if f.style.contains .bold then 1 else 0

/-- What the metrics of a glyph miss of the weight of a font. -/
def missed (f : LogicalFont) (g : Glyph) : Int := f.weightWidth (f.sourceOf g) - f.countedWidth

/-- A font that asks for no weight takes nothing for it, as the metrics count. -/
theorem weightWidth_of_unweighted {f : LogicalFont}
    (h : f.style.intersects (.union .bold (.union .book .light)) = false) (s : GlyphSource) :
    f.weightWidth s = f.countedWidth := by
  obtain ⟨hbold, hhalo⟩ := FontStyle.intersects_union_eq_false.mp h
  simp [weightWidth, countedWidth, boldWidth, hasHalo, FontStyle.contains_eq_false hbold, hhalo]

theorem sourceOf_mem_sources (f : LogicalFont) (g : Glyph) : f.sourceOf g ∈ f.sources := by
  rw [sourceOf, sources]
  cases f.second with
  | none => simp
  | some s => cases Glyph.asksSecond g <;> simp

/-- There are glyphs in each source. -/
theorem exists_sourceOf (f : LogicalFont) {s : GlyphSource} (hs : s ∈ f.sources) :
    ∃ g, g ≠ Glyph.invalid ∧ f.sourceOf g = s := by
  rw [sources] at hs
  cases hs with
  | head => exact ⟨0, by decide, rfl⟩
  | tail _ hs =>
    have hsecond : f.second = some s := Option.mem_toList.mp hs
    refine ⟨Glyph.secondSourceBit, by decide, ?_⟩
    rw [sourceOf, if_pos (by decide), hsecond, Option.getD_some]

end LogicalFont

namespace TextStyle

theorem length_advanceOf {st : TextStyle} {g : Glyph} {info : GlyphInfo}
    (hinfo : st.font.glyphInfo? g = some info) :
    (st.advanceOf g).length = info.advance.length + (st.font.missed g + st.charExtra) := by
  rw [LogicalFont.glyphInfo?] at hinfo
  by_cases hg : g = Glyph.invalid
  · rw [if_pos hg] at hinfo
    cases hinfo
  · rw [if_neg hg] at hinfo
    cases hinfo
    simp only [advanceOf, if_neg hg, place, LogicalFont.missed, LogicalFont.weightWidth,
      LogicalFont.countedWidth]
    omega

/-- The length of a text by the metrics of its glyphs. -/
theorem length_totalAdvance (st : TextStyle) (glyphs : List Glyph) :
    (st.totalAdvance glyphs).length =
      ((glyphs.filterMap st.font.glyphInfo?).map (·.advance.length)).sum +
        ((glyphs.filter (· ≠ Glyph.invalid)).map fun g => st.font.missed g + st.charExtra).sum := by
  induction glyphs with
  | nil => rfl
  | cons g gs ih =>
    change (st.advanceOf g).length + (st.totalAdvance gs).length = _
    by_cases hg : g = Glyph.invalid
    · simp [advanceOf, LogicalFont.glyphInfo?, hg, ih]
    · obtain ⟨info, hinfo⟩ : ∃ info, st.font.glyphInfo? g = some info := by
        rw [LogicalFont.glyphInfo?, if_neg hg]
        exact ⟨_, rfl⟩
      rw [ih, length_advanceOf hinfo, List.filterMap_cons_some hinfo,
        List.filter_cons_of_pos (by simpa using hg), List.map_cons, List.map_cons, List.sum_cons,
        List.sum_cons]
      omega

end TextStyle

end Rasterizer
