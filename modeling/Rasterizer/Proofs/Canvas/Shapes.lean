import Rasterizer.Proofs.Canvas.Masked
import Rasterizer.Proofs.CoordSpace
import Rasterizer.Proofs.Line.Wrapped

/-! # Lines and boxes under a clip

Each of these calls paints a shape that is known from its arguments and the attributes of the
canvas, so it is masked. A thin line is, as far as its numbers fit in 32 bits; others map the pixels of
each canvas too (`Mapped`), but not the same way under each clip. -/

namespace Rasterizer

namespace Painter

variable {p : Painter} {a b : Point}

theorem line32_eq (hab : LineWalk.Narrow a b) (p : Painter) : p.line32 a b = p.line a b := by
  rw [line32, line]
  rcases hab.clipped32?_cases p.window with ⟨h, h'⟩ | ⟨w, v, h, h', hpoints⟩
  · simp only [h, h']
  · simp only [h, h', hpoints]

theorem masked_segment (hab : LineWalk.Fits a b) : Masked fun p => p.segment a b := by
  simp only [segment]
  by_cases hrow : a.y = b.y
  · simp only [hrow, if_true]
    exact .ite _ (masked_pixel a.x b.y) (masked_row a.x b.x b.y)
  by_cases hcolumn : a.x = b.x
  · simp only [hrow, hcolumn, if_false, if_true]
    exact .ite _ (masked_pixel b.x a.y) (masked_column a.y b.y b.x)
  simp only [hrow, hcolumn, if_false, line32_eq (hab.narrow hcolumn hrow)]
  exact .ite _ (masked_pixel a.x a.y) (masked_line a b)

theorem exists_maps_line32 (hp : p.frame.Sound) (a b : Point) : ∃ g, Maps g p (p.line32 a b) := by
  rw [line32]
  cases LineWalk.clipped32? a b p.window with
  | none => exact masked_id.maps hp
  | some walk => exact (Masked.foldl (fun q : Point => masked_pixel q.x q.y) walk.points32).maps hp

theorem exists_maps_segment (hp : p.frame.Sound) (a b : Point) : ∃ g, Maps g p (p.segment a b) := by
  rw [segment]
  split_ifs
  · exact (masked_pixel a.x a.y).maps hp
  · exact (masked_row a.x b.x a.y).maps hp
  · exact (masked_column a.y b.y a.x).maps hp
  · exact exists_maps_line32 hp a b

theorem masked_edges (rc : Rect) : Masked fun p => p.edges rc := by
  have hlower := Masked.ite (rc.top = rc.bottom) masked_id (masked_row rc.left rc.right rc.bottom)
  have hright := Masked.ite (rc.left = rc.right) masked_id
    (masked_column (rc.top + 1) (rc.bottom - 1) rc.right)
  have hsides := (masked_column (rc.top + 1) (rc.bottom - 1) rc.left).comp hright
  have hrest := hlower.comp (Masked.ite (rc.bottom - rc.top ≤ 1) masked_id hsides)
  exact Masked.ite _ (masked_pixel rc.left rc.top)
    ((masked_row rc.left rc.right rc.top).comp hrest)

/-- The rows of a box are looked at only as far as the window reaches. -/
theorem draws_brushRows {p : Painter} (hp : p.frame.Sound) (rc : Rect) (brush : Brush) (background : Pixel) :
    Draws (fun x y _ => if rc.top ≤ y ∧ y < rc.bottom then
        stretch rc.left (rc.right - 1) (fun x => brush.pixelAt background x y) x else none) p
      ((irange (max rc.top p.window.top) (min (rc.bottom - 1) (p.window.bottom - 1))).foldl
        (fun p y => p.brushRow rc.left (rc.right - 1) y brush background) p) := by
  have hstep : ∀ q : Painter, q.frame = p.frame → q.tool = p.tool →
      ∀ y' ∈ irange (max rc.top p.window.top) (min (rc.bottom - 1) (p.window.bottom - 1)),
        Draws (fun x y _ => if y = y' then
            stretch rc.left (rc.right - 1) (fun x => brush.pixelAt background x y) x else none) q
          (q.brushRow rc.left (rc.right - 1) y' brush background) := by
    intro q hframe _ y' _
    refine (draws_brushRow (hframe ▸ hp) _ _ y' brush background).congr fun x y v _ => ?_
    rw [Layer.row]
    by_cases hy : y = y'
    · rw [if_pos hy, if_pos hy, hy]
    · rw [if_neg hy, if_neg hy]
  refine Draws.foldl_shapes hstep ((pairwise_irange _ _).imp fun hlt x y h h' => by omega) fun x y hreach => ?_
  have hwindow := Rect.contains_iff.mp (Frame.reaches_iff.mp hreach).1
  simp only [frame, mem_irange, exists_eq_right'] at hwindow ⊢
  omega

theorem masked_brushRows (rc : Rect) (brush : Brush) (background : Pixel) :
    Masked fun p => (irange (max rc.top p.window.top) (min (rc.bottom - 1) (p.window.bottom - 1))).foldl
      (fun p y => p.brushRow rc.left (rc.right - 1) y brush background) p :=
  masked_of_draws (fun _ _ x y _ => if rc.top ≤ y ∧ y < rc.bottom then
      stretch rc.left (rc.right - 1) (fun x => brush.pixelAt background x y) x else none)
    fun _ hp => draws_brushRows hp rc brush background

theorem masked_brushBox (rc : Rect) (brush : Brush) (background : Pixel) :
    Masked fun p => p.brushBox rc brush background :=
  .ite (brush.kind = .solid) ((masked_withInk brush.color).comp (masked_box rc))
    (masked_brushRows rc brush background)

end Painter

namespace Canvas

open Painter (masked_withInk masked_withStep)

theorem masked_setPixel (x y : Int) (color : Pixel) : Masked fun c => c.setPixel x y color := by
  intro c
  have hdraw := Painter.masked_pixelOf (c.toScreen x y).x (c.toScreen x y).y color
  exact (maskedAt_paint hdraw (.ofSize (c.toScreen x y).x (c.toScreen x y).y 1 1) c.rop).congr
    fun _ _ _ _ => rfl

/-! ## Lines -/

theorem maskedTo_thinLine {a b : Point} (hab : LineWalk.Fits a b) (c : Canvas) :
    MaskedTo c.penPos (fun c => c.thinLine a b) c := by
  have hpaint {a b : Point} (hab : LineWalk.Fits a b) : MaskedTo c.penPos (fun c' =>
      c'.paint ((⟨a.x, a.y, b.x, b.y⟩ : Rect).normalized.inflate 1 1).wrap c.rop fun p =>
        (p.withInk c.penColor).segment a b) c :=
    maskedTo_paint ((masked_withInk c.penColor).comp (Painter.masked_segment hab)) _ _
  by_cases hbefore : pointBefore a b = true
  · exact (hpaint hab).congr fun _ _ _ _ => by simp only [thinLine, hbefore]; rfl
  · exact (hpaint hab.symm).congr fun _ _ _ _ => by simp only [thinLine, hbefore]; rfl

theorem mapped_thinLine (a b : Point) : Mapped fun c => c.thinLine a b := by
  intro c hclip
  have hpaint (a b : Point) : ∃ g, ∀ back, Maps c.penPos g { c with scratch := back }
      (paint { c with scratch := back } ((⟨a.x, a.y, b.x, b.y⟩ : Rect).normalized.inflate 1 1).wrap c.rop
        fun p => (p.withInk c.penColor).segment a b) := by
    refine exists_maps_paint hclip _ _ fun p hp => ?_
    obtain ⟨g, hg⟩ := Painter.exists_maps_segment (p := p.withInk c.penColor) hp a b
    exact ⟨g, hg.frame, hg.get?⟩
  refine ⟨c.penPos, ?_⟩
  by_cases hbefore : pointBefore a b = true
  · simpa only [thinLine, hbefore, if_true] using hpaint a b
  · simpa only [thinLine, Bool.eq_false_iff.mpr hbefore, Bool.false_eq_true, if_false] using hpaint b a

/-- On the screen the numbers of a line between logical points fit in 32 bits. -/
def LineFits (c : Canvas) (a b : Point) : Prop := LineWalk.Fits (c.toScreen a.x a.y) (c.toScreen b.x b.y)

variable {c : Canvas}

theorem maskedTo_lineTo {x y : Int} (h : c.LineFits c.penPos ⟨x, y⟩) :
    MaskedTo ⟨x, y⟩ (fun c => c.lineTo x y) c :=
  ((maskedTo_moveTo x y c).trans (maskedTo_thinLine h _)).congr fun _ _ _ _ => rfl

theorem mapped_lineTo (x y : Int) : Mapped fun c => c.lineTo x y := fun c =>
  (masked_moveTo x y).mapped.comp (mapped_thinLine (c.toScreen c.penPos.x c.penPos.y) (c.toScreen x y)) c

theorem maskedAt_line {x1 y1 x2 y2 : Int} (h : c.LineFits ⟨x1, y1⟩ ⟨x2, y2⟩) :
    MaskedAt (fun c => c.line x1 y1 x2 y2) c :=
  (maskedTo_moveTo x1 y1 c).comp ⟨_, maskedTo_lineTo h⟩

theorem mapped_line (x1 y1 x2 y2 : Int) : Mapped fun c => c.line x1 y1 x2 y2 :=
  (masked_moveTo x1 y1).mapped.comp (mapped_lineTo x2 y2)

/-- Each line begins where the one before has moved the pen. -/
theorem maskedAt_lines {rest : List Point} (h : (c.penPos :: rest).IsChain c.LineFits) :
    MaskedAt (fun c => rest.foldl (fun c q => c.lineTo q.x q.y) c) c := by
  induction rest generalizing c with
  | nil => exact masked_id c
  | cons q rest ih =>
    obtain ⟨hfirst, hrest⟩ := List.isChain_cons_cons.mp h
    exact (maskedTo_lineTo hfirst).comp (ih (c := { c with penPos := q }) hrest)

theorem maskedAt_polyline {pts : List Point} (h : pts.IsChain c.LineFits) :
    MaskedAt (fun c => c.polyline pts) c := by
  cases pts with
  | nil => exact masked_id c
  | cons p rest => exact (maskedTo_moveTo p.x p.y c).comp (maskedAt_lines (c := { c with penPos := p }) h)

theorem mapped_polyline (pts : List Point) : Mapped fun c => c.polyline pts := by
  cases pts with
  | nil => exact masked_id.mapped
  | cons p rest =>
    exact (masked_moveTo p.x p.y).mapped.comp (Mapped.foldl (fun q : Point => mapped_lineTo q.x q.y) rest)

theorem masked_outline (a b : Point) (step : Int) (rop : RasterOp) :
    Masked fun c => c.outline a b step rop := by
  intro c
  generalize hrc : c.screenBox a b = rc
  have hdraw := (masked_withInk c.penColor).comp ((masked_withStep step).comp (Painter.masked_edges rc))
  refine (maskedAt_paint hdraw { rc with right := wrap32 (rc.right + 1), bottom := wrap32 (rc.bottom + 1) }
    rop).congr fun _ _ _ _ => ?_
  subst hrc
  rfl

theorem masked_dottedLine (x y length : Int) (horizontal : Bool) :
    Masked fun c => c.dottedLine x y length horizontal := by
  refine .ite _ masked_id fun c => ?_
  generalize ho : c.toScreen x y = o
  have hdraw := (masked_withInk c.penColor).comp ((masked_withStep 2).comp (.ite (horizontal = true)
    (Painter.masked_row o.x (o.x + length - 1) o.y) (Painter.masked_column o.y (o.y + length - 1) o.x)))
  refine (maskedAt_paint hdraw
    (if horizontal then Rect.ofSize o.x o.y length 1 else Rect.ofSize o.x o.y 1 length) c.rop).congr
      fun _ _ _ _ => ?_
  subst ho
  rfl

theorem masked_dashes (pts : List Point) : Masked fun c =>
    let spans := Stroke.polyline (pts.map fun p => c.toScreen p.x p.y) c.screenPen
    (c.paintSpans spans.off c.text.background).paintSpans spans.on c.penColor := by
  intro c
  generalize hspans : Stroke.polyline (pts.map fun p => c.toScreen p.x p.y) c.screenPen = spans
  refine ((masked_paintSpans spans.off c.text.background).comp
    (masked_paintSpans spans.on c.penColor) c).congr fun _ _ _ _ => ?_
  subst hspans
  rfl

/-- The lines of a thin pen fit. -/
def StrokeFits (c : Canvas) (pts : List Point) : Prop := c.pen.isThin = true → pts.IsChain c.LineFits

theorem maskedAt_stroke {pts : List Point} (h : c.StrokeFits pts) : MaskedAt (fun c => c.stroke pts) c := by
  by_cases hshort : pts.length < 2
  · exact (masked_id c).congr fun _ _ _ _ => if_pos hshort
  · by_cases hthin : c.pen.isThin = true
    · exact (maskedAt_polyline (h hthin)).congr fun _ _ _ _ => (if_neg hshort).trans (if_pos hthin)
    · exact (masked_dashes pts c).congr fun _ _ _ _ => (if_neg hshort).trans (if_neg hthin)

theorem mapped_stroke (pts : List Point) : Mapped fun c => c.stroke pts :=
  .ite (fun _ => pts.length < 2) (fun _ _ => Iff.rfl) masked_id.mapped
    (.ite (fun c => c.pen.isThin = true) (fun _ _ => Iff.rfl) (mapped_polyline pts) (masked_dashes pts).mapped)

/-- Lines along rows and columns always fit. -/
theorem masked_stroke {pts : List Point} (h : pts.IsChain fun p q => p.x = q.x ∨ p.y = q.y) :
    Masked fun c => c.stroke pts := by
  refine fun c => maskedAt_stroke fun _ => h.imp fun p q hpq => ?_
  rcases hpq with hx | hy
  · exact .inl (by rw [toScreen, toScreen, CoordSpace.logicalToScreen_eq, CoordSpace.logicalToScreen_eq, hx])
  · exact .inr (.inl (by rw [toScreen, toScreen, CoordSpace.logicalToScreen_eq, CoordSpace.logicalToScreen_eq, hy]))

theorem masked_strokeLine {p q : Point} (h : p.x = q.x ∨ p.y = q.y) : Masked fun c => c.stroke [p, q] :=
  masked_stroke (by simpa using h)

theorem maskedAt_splineTo {s : Spline} (h : c.StrokeFits s.points) : MaskedAt (fun c => c.splineTo s) c := by
  cases hlast : s.points.getLast? with
  | none => simpa only [splineTo, hlast] using maskedAt_stroke h
  | some p =>
    obtain ⟨pos, hstroke⟩ := maskedAt_stroke h
    simpa only [splineTo, hlast] using hstroke.comp (masked_moveTo p.x p.y _)

theorem mapped_splineTo (s : Spline) : Mapped fun c => c.splineTo s := by
  cases hlast : s.points.getLast? with
  | none => simpa only [splineTo, hlast] using mapped_stroke s.points
  | some p =>
    simpa only [splineTo, hlast] using (mapped_stroke s.points).comp (masked_moveTo p.x p.y).mapped

/-! ## Boxes -/

theorem masked_fillBox (x y w h : Int) : Masked fun c => c.fillBox x y w h := by
  refine .ite _ masked_id fun c => ?_
  generalize hrc : (⟨(c.toScreen x y).x, (c.toScreen x y).y, (c.toScreen (x + w) (y + h)).x,
    (c.toScreen (x + w) (y + h)).y⟩ : Rect).normalized = rc
  have hdraw := Painter.masked_brushBox rc c.screenBrush c.text.background
  refine (maskedAt_paint hdraw rc c.rop).congr fun _ _ _ _ => ?_
  subst hrc
  rfl

theorem masked_fillPolygon (pts : List Point) : Masked fun c => c.fillPolygon pts := by
  refine .ite _ masked_id fun c => ?_
  generalize hspans : polygonSpans (pts.map fun p => c.toScreen p.x p.y) (Polygon.isMonotone pts) = spans
  refine (masked_brushSpans spans c).congr fun _ _ _ _ => ?_
  subst hspans
  rfl

/-! ## Whole curves -/

theorem masked_circle (x y r : Int) : Masked fun c => c.circle x y r := fun c =>
  (masked_paintSpans (.ofEnds (c.circleRuns x y r)) c.penColor c).congr fun _ _ _ _ => rfl

theorem masked_fillCircle (x y r : Int) : Masked fun c => c.fillCircle x y r := fun c =>
  (masked_brushSpans (.covering (c.circleRuns x y r)) c).congr fun _ _ _ _ => rfl

theorem masked_ellipse (x y rx ry : Int) : Masked fun c => c.ellipse x y rx ry := fun c =>
  (masked_paintSpans (.ofEnds (c.ellipseRuns x y rx ry)) c.penColor c).congr fun _ _ _ _ => rfl

theorem masked_fillEllipse (x y rx ry : Int) : Masked fun c => c.fillEllipse x y rx ry := fun c =>
  (masked_brushSpans (.covering (c.ellipseRuns x y rx ry)) c).congr fun _ _ _ _ => rfl

theorem masked_circleArc (x y r angle extent : Int) :
    Masked fun c => c.circleArc x y r angle extent := by
  intro c
  generalize hpts : (if c.space.widthToScreen r < 1 then [c.toScreen x y]
    else CircleArc.points (c.toScreen x y) (c.space.widthToScreen r) angle extent) = pts
  refine (masked_paintSpans (.ofPoints pts) c.penColor c).congr fun _ _ _ _ => ?_
  subst hpts
  rfl

end Canvas

end Rasterizer
