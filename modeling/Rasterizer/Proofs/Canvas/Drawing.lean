import Rasterizer.Proofs.Arc.Clip
import Rasterizer.Proofs.Canvas.Clip
import Rasterizer.Proofs.Canvas.Shapes
import Rasterizer.Proofs.Flood.Painted

/-! # Clipping only masks geometry

Arcs collect their pixels inside the clip only, and a flood looks for its area on the surface;
still every drawing call whose thin lines fit in 32 bits leaves, inside the clip, what it leaves there
without a clip (`draw_under_clip`). -/

namespace Rasterizer.Canvas

variable {c : Canvas}

/-! ## Arcs -/

/-- Runs that stand apart, painted under a clip. -/
theorem maps_spans (hclip : c.clip.Banded) (rs : List Run) {paint : Painter → Run → Painter}
    {value : Int → Int → Option Pixel}
    (hpaint : ∀ q : Painter, q.frame.Sound → ∀ r,
      Painter.Draws (.row r.y (stretch r.x1 r.x2 fun x => value x r.y)) q (paint q r))
    {covered : Int → Int → Prop} [∀ x y, Decidable (covered x y)]
    (hcovered : ∀ x y, covered x y ↔ (RowSpans.covering rs).Covers ⟨x, y⟩) :
    Maps c.penPos (Layer.on (fun x y _ => if covered x y then value x y else none) c.rop c.surface.format) c
      (match (RowSpans.covering rs).bound? with
        | none => c
        | some rc => c.paint rc c.rop fun p => (RowSpans.covering rs).toList.foldl paint p) := by
  have hbounded : ∀ x y, covered x y →
      ∃ rc, (RowSpans.covering rs).bound? = some rc ∧ rc.normalized.contains x y = true := by
    intro x y hxy
    obtain ⟨rc, hrc, hin⟩ := RowSpans.contains_bound ((hcovered x y).mp hxy)
    exact ⟨rc, hrc, Rect.contains_normalized hin⟩
  have hdraw : ∀ p : Painter, p.surface = c.surface → p.frame.Sound → p.tool = ⟨0, c.rop, 1⟩ →
      Painter.Maps (Layer.on (fun x y _ => if covered x y then value x y else none) c.rop
        c.surface.format) p ((RowSpans.covering rs).toList.foldl paint p) := by
    intro p hsurface hp htool
    have hrop : p.rop = c.rop := congrArg Painter.Tool.rop htool
    rw [← hsurface, ← hrop]
    refine (Painter.draws_runs (fun q hq _ r _ => hpaint q (hq ▸ hp) r)
      (fun r hr => RowSpans.nonempty_covering rs r (RowSpans.mem_toList.mp hr))
      (RowSpans.apart_toList (RowSpans.apart_covering rs)) fun x y => ?_).maps
    rw [hcovered]
    simp only [RowSpans.Covers, RowSpans.mem_toList]
  cases hbound : (RowSpans.covering rs).bound? with
  | none =>
    refine (maps_id c).congr fun x y v _ => ?_
    have hnot : ¬covered x y := fun hxy => by
      obtain ⟨rc, hrc, -⟩ := hbounded x y hxy
      rw [hbound] at hrc
      cases hrc
    simp [Layer.on, hnot]
  | some rc =>
    refine (maps_paint hclip rc hdraw).congr fun x y v _ => ?_
    by_cases hxy : covered x y
    · obtain ⟨rc', hrc', hin⟩ := hbounded x y hxy
      rw [hbound, Option.some.injEq] at hrc'
      rw [hrc', if_pos hin]
    · simp [Layer.on, hxy]

open Classical in
/-- Spans that are cut out of one set by the bound of the clip show, under the clip, the set. -/
theorem maskedAt_cut {runs : Rect → List Run} {S : Point → Prop} (hcut : CutBy runs S)
    (paint : Painter → Run → Painter) (value : Int → Int → Option Pixel)
    (hpaint : ∀ q : Painter, q.frame.Sound → ∀ r,
      Painter.Draws (.row r.y (stretch r.x1 r.x2 fun x => value x r.y)) q (paint q r)) (c : Canvas) :
    MaskedAt (fun c' => match (RowSpans.covering (runs c'.clip.bound)).bound? with
      | none => c'
      | some rc => c'.paint rc c'.rop fun p =>
        (RowSpans.covering (runs c'.clip.bound)).toList.foldl paint p) c := by
  refine ⟨c.penPos, Layer.on (fun x y _ => if S ⟨x, y⟩ then value x y else none) c.rop c.surface.format, ?_⟩
  intro s clip back hs hclip
  have hcovered : ∀ x y, (clip.bound.contains x y = true ∧ S ⟨x, y⟩) ↔
      (RowSpans.covering (runs clip.bound)).Covers ⟨x, y⟩ := fun x y => by
    rw [RowSpans.covers_covering (hcut.nonempty clip.bound), hcut.covers]
  refine (maps_spans (c := c.onto s clip back) hclip (runs clip.bound) hpaint hcovered).congr ?_
  intro x y v hxy
  have hin : clip.bound.contains x y = true := hclip.contains_bound hxy
  simp only [Layer.on, hin, true_and, onto, hs.format]

theorem masked_arcs (as : List EllipseArc) : Masked fun c => c.arcs as := by
  intro c
  have hcut : ∀ a : EllipseArc, ∃ S, CutBy (fun rc =>
      if c.screenPen.width = 0 then ((c.screenArc a).outline rc).map fun p => (⟨p.x, p.x, p.y⟩ : Run)
      else (c.screenArc a).ring c.screenPen.width rc) S := by
    intro a
    by_cases hthin : c.screenPen.width = 0
    · simp only [hthin, if_true]
      exact ⟨_, (c.screenArc a).cutBy_outline⟩
    · simp only [hthin, if_false]
      exact ⟨_, (c.screenArc a).cutBy_ring c.screenPen.width⟩
  choose S hS using hcut
  exact (maskedAt_cut (cutBy_flatMap hS as) (fun p r => p.spanOf r.x1 r.x2 r.y c.penColor)
    (fun _ _ => some c.penColor) (fun q hq r => Painter.draws_spanOf hq r.x1 r.x2 r.y c.penColor)
    c).congr fun _ _ _ _ => rfl

theorem masked_fillArcs (as : List EllipseArc) : Masked fun c => c.fillArcs as := by
  intro c
  have hcut := cutBy_flatMap (fun a => (c.screenArc a).cutBy_pie) as
  exact (maskedAt_cut hcut
    (fun p r => p.brushRow r.x1 r.x2 r.y c.screenBrush c.text.background)
    (c.screenBrush.pixelAt c.text.background)
    (fun q hq r => Painter.draws_brushRow hq r.x1 r.x2 r.y c.screenBrush c.text.background)
    c).congr fun _ _ _ _ => rfl

theorem masked_roundRect (x0 y0 x1 y1 rw rh : Int) :
    Masked fun c => (c.roundRect x0 y0 x1 y1 rw rh).1 := by
  simp only [roundRect, apply_ite Prod.fst]
  refine .ite _ masked_id (.ite _ ?_ ?_)
  · exact (masked_fillBox x0 y0 (x1 - x0) (y1 - y0)).comp (masked_stroke (by simp))
  · have hlines := ((masked_strokeLine (p := ⟨x0 + rw, y0⟩) (q := ⟨x1 - rw, y0⟩) (.inr rfl)).comp
      (masked_strokeLine (p := ⟨x0 + rw, y1⟩) (q := ⟨x1 - rw, y1⟩) (.inr rfl))).comp
      ((masked_strokeLine (p := ⟨x0, y0 + rh⟩) (q := ⟨x0, y1 - rh⟩) (.inl rfl)).comp
        (masked_strokeLine (p := ⟨x1, y0 + rh⟩) (q := ⟨x1, y1 - rh⟩) (.inl rfl)))
    have hboxes := ((masked_fillBox (x0 + rw) y0 (x1 - x0 - rw * 2) rh).comp
      (masked_fillBox x0 (y0 + rh) (x1 - x0) (y1 - y0 - rh * 2))).comp
      (masked_fillBox (x0 + rw) (y1 - rh) (x1 - x0 - rw * 2) rh)
    exact ((masked_fillArcs _).comp hboxes).comp ((masked_arcs _).comp hlines)

/-! ## Flood fill -/

open Classical in
/-- A fill finds the same area under each clip of one picture. -/
theorem maps_floodFill (c : Canvas) (x y : Int) :
    ∃ g, ∀ clip back, clip.Banded →
      Maps c.penPos g (c.onto c.surface clip back) ((c.onto c.surface clip back).floodFill x y) := by
  have hnothing : ∃ g, ∀ clip back, clip.Banded →
      Maps c.penPos g (c.onto c.surface clip back) (c.onto c.surface clip back) :=
    ⟨fun _ _ v => v, fun clip back _ => maps_id (c.onto c.surface clip back)⟩
  have hscreen : ∀ clip back, (c.onto c.surface clip back).toScreen x y = c.toScreen x y := fun _ _ => rfl
  simp only [floodFill, hscreen]
  simp only [onto] at hnothing ⊢
  cases visibleRect? c.surface c.space with
  | none => exact hnothing
  | some dst =>
    cases c.surface.get? (c.toScreen x y).x (c.toScreen x y).y with
    | none => exact hnothing
    | some old =>
      by_cases hstop : dst.contains (c.toScreen x y).x (c.toScreen x y).y = false ∨ old = c.brush.color
      · simpa only [hstop, if_true] using hnothing
      · simp only [hstop, if_false]
        refine ⟨fun x' y' v => if dst.normalized.contains x' y' then
            Layer.on (fun x' y' _ =>
              if Flood.Area (fun x y => c.surface.get? x y == some old) dst.normalized (c.toScreen x y)
                ⟨x', y'⟩
              then c.screenBrush.pixelAt c.text.background x' y' else none)
              c.rop c.surface.format x' y' v
          else v, fun clip back hclip => ?_⟩
        refine maps_paint (c := c.onto c.surface clip back) hclip dst fun p hsurface hp htool => ?_
        have hmaps := (draws_fill old c.screenBrush c.text.background hp dst (c.toScreen x y).x
          (c.toScreen x y).y).maps
        have hrop : p.rop = c.rop := congrArg Painter.Tool.rop htool
        rw [hsurface, hrop] at hmaps
        exact hmaps

theorem mapped_floodFill (x y : Int) : Mapped fun c => c.floodFill x y := by
  intro c hclip
  obtain ⟨g, hg⟩ := maps_floodFill c x y
  exact ⟨c.penPos, g, fun back => hg c.clip back hclip⟩

/-! ## Every drawing call -/

/-- A call that draws anything but text. -/
inductive Drawing where
  | setPixel (x y : Int) (color : Pixel)
  | moveTo (x y : Int)
  | lineTo (x y : Int)
  | line (x1 y1 x2 y2 : Int)
  | polyline (pts : List Point)
  | rectangle (x0 y0 x1 y1 : Int)
  | focusRect (x0 y0 x1 y1 : Int)
  | dottedLine (x y length : Int) (horizontal : Bool)
  | stroke (pts : List Point)
  | splineTo (s : Spline)
  | fillBox (x y w h : Int)
  | fillPolygon (pts : List Point)
  | floodFill (x y : Int)
  | circle (x y r : Int)
  | fillCircle (x y r : Int)
  | ellipse (x y rx ry : Int)
  | fillEllipse (x y rx ry : Int)
  | circleArc (x y r angle extent : Int)
  | arcs (as : List EllipseArc)
  | fillArcs (as : List EllipseArc)
  | roundRect (x0 y0 x1 y1 rw rh : Int)

def draw (c : Canvas) : Drawing → Canvas
  | .setPixel x y color => c.setPixel x y color
  | .moveTo x y => c.moveTo x y
  | .lineTo x y => c.lineTo x y
  | .line x1 y1 x2 y2 => c.line x1 y1 x2 y2
  | .polyline pts => c.polyline pts
  | .rectangle x0 y0 x1 y1 => c.rectangle x0 y0 x1 y1
  | .focusRect x0 y0 x1 y1 => c.focusRect x0 y0 x1 y1
  | .dottedLine x y length horizontal => c.dottedLine x y length horizontal
  | .stroke pts => c.stroke pts
  | .splineTo s => c.splineTo s
  | .fillBox x y w h => c.fillBox x y w h
  | .fillPolygon pts => c.fillPolygon pts
  | .floodFill x y => c.floodFill x y
  | .circle x y r => c.circle x y r
  | .fillCircle x y r => c.fillCircle x y r
  | .ellipse x y rx ry => c.ellipse x y rx ry
  | .fillEllipse x y rx ry => c.fillEllipse x y rx ry
  | .circleArc x y r angle extent => c.circleArc x y r angle extent
  | .arcs as => c.arcs as
  | .fillArcs as => c.fillArcs as
  | .roundRect x0 y0 x1 y1 rw rh => (c.roundRect x0 y0 x1 y1 rw rh).1

theorem masked_rectangle (x0 y0 x1 y1 : Int) : Masked fun c => c.rectangle x0 y0 x1 y1 := fun c =>
  (masked_outline ⟨x0, y0⟩ ⟨x1, y1⟩ 1 c.rop c).congr fun _ _ _ _ => rfl

/-- The call neither draws thin lines nor reads the surface. -/
def Drawing.isPlain : Drawing → Bool
  | .lineTo .. | .line .. | .polyline _ | .stroke _ | .splineTo _ | .floodFill .. => false
  | _ => true

theorem masked_draw {d : Drawing} (hplain : d.isPlain = true) : Masked fun c => c.draw d := by
  cases d with
  | lineTo | line | polyline | stroke | splineTo | floodFill => cases hplain
  | setPixel x y color => exact masked_setPixel x y color
  | moveTo x y => exact masked_moveTo x y
  | rectangle x0 y0 x1 y1 => exact masked_rectangle x0 y0 x1 y1
  | focusRect x0 y0 x1 y1 => exact masked_outline ⟨x0, y0⟩ ⟨x1, y1⟩ 2 .xor
  | dottedLine x y length horizontal => exact masked_dottedLine x y length horizontal
  | fillBox x y w h => exact masked_fillBox x y w h
  | fillPolygon pts => exact masked_fillPolygon pts
  | circle x y r => exact masked_circle x y r
  | fillCircle x y r => exact masked_fillCircle x y r
  | ellipse x y rx ry => exact masked_ellipse x y rx ry
  | fillEllipse x y rx ry => exact masked_fillEllipse x y rx ry
  | circleArc x y r angle extent => exact masked_circleArc x y r angle extent
  | arcs as => exact masked_arcs as
  | fillArcs as => exact masked_fillArcs as
  | roundRect x0 y0 x1 y1 rw rh => exact masked_roundRect x0 y0 x1 y1 rw rh

/-- The thin lines of the call fit in 32 bits. -/
def DrawingFits (c : Canvas) : Drawing → Prop
  | .lineTo x y => c.LineFits c.penPos ⟨x, y⟩
  | .line x1 y1 x2 y2 => c.LineFits ⟨x1, y1⟩ ⟨x2, y2⟩
  | .polyline pts => pts.IsChain c.LineFits
  | .stroke pts => c.StrokeFits pts
  | .splineTo s => c.StrokeFits s.points
  | _ => True

/-- The picture of the call is the same under each clip. A flood reads the surface, so its picture is the same
for one surface only. -/
def MapsUnderClips (f : Canvas → Canvas) (c : Canvas) : Prop := ∃ pos g, ∀ clip : Region, clip.Banded →
  Maps pos g { c with clip := clip } (f { c with clip := clip })

theorem MaskedAt.maps {f : Canvas → Canvas} (h : MaskedAt f c) : MapsUnderClips f c := by
  obtain ⟨pos, g, hg⟩ := h
  exact ⟨pos, g, fun clip hclip => hg c.surface clip c.scratch (.refl _) hclip⟩

theorem draw_maps {d : Drawing} (hfits : c.DrawingFits d) : MapsUnderClips (fun c => c.draw d) c := by
  cases d with
  | lineTo x y => exact MaskedAt.maps ⟨_, maskedTo_lineTo hfits⟩
  | line x1 y1 x2 y2 => exact (maskedAt_line hfits).maps
  | polyline pts => exact (maskedAt_polyline hfits).maps
  | stroke pts => exact (maskedAt_stroke hfits).maps
  | splineTo s => exact (maskedAt_splineTo hfits).maps
  | floodFill x y =>
    obtain ⟨g, hg⟩ := maps_floodFill c x y
    exact ⟨c.penPos, g, fun clip hclip => hg clip c.scratch hclip⟩
  | _ => exact (masked_draw rfl c).maps

/-- Each call on a canvas maps the pixels of its clip, whatever its numbers are. -/
theorem mapped_draw (d : Drawing) : Mapped fun c => c.draw d := by
  cases d with
  | lineTo x y => exact mapped_lineTo x y
  | line x1 y1 x2 y2 => exact mapped_line x1 y1 x2 y2
  | polyline pts => exact mapped_polyline pts
  | stroke pts => exact mapped_stroke pts
  | splineTo s => exact mapped_splineTo s
  | floodFill x y => exact mapped_floodFill x y
  | _ => exact (masked_draw rfl).mapped

end Rasterizer.Canvas
