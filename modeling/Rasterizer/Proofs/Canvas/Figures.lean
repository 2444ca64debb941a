import Rasterizer.Proofs.Canvas.Commands
import Rasterizer.Proofs.Canvas.Touched

/-! # Figures

Curves, arcs, polygons, outlines of rectangles and strokes of a pen that is not thin are figures: the
values of their pixels follow from the arguments of the call and the attributes of the canvas
(`Canvas.figure?`), however often the parts that make them up cover one pixel. Each such call touches
its figure once (`Canvas.touches_draw`, `Canvas.draw_figure_once`). -/

namespace Rasterizer

/-- The pixel lies on an edge, a whole number of steps from its begin. The edges to the sides lie
between the other two. -/
def Rect.OnEdges (rc : Rect) (step x y : Int) : Prop :=
  ((y = rc.top ∨ y = rc.bottom) ∧ rc.left ≤ x ∧ x ≤ rc.right ∧ (x - rc.left) % step = 0) ∨
    ((x = rc.left ∨ x = rc.right) ∧ rc.top < y ∧ y < rc.bottom ∧ (y - (rc.top + 1)) % step = 0)

instance (rc : Rect) (step x y : Int) : Decidable (rc.OnEdges step x y) := by
  unfold Rect.OnEdges; infer_instance

/-! ## Outlines -/

namespace Painter

variable {p q r : Painter} {value : Pixel} {P Q : Int → Int → Prop} [∀ x y, Decidable (P x y)]
  [∀ x y, Decidable (Q x y)]

/-- Two shapes of one value without a common pixel. -/
theorem Draws.union (h : Draws (fun x y _ => if P x y then some value else none) p q)
    (h' : Draws (fun x y _ => if Q x y then some value else none) q r)
    (hapart : ∀ x y, P x y → ¬Q x y) :
    Draws (fun x y _ => if P x y ∨ Q x y then some value else none) p r := by
  refine (h.trans h' fun x y v w hP => ?_).congr fun x y v _ => ?_
  · by_cases hx : P x y
    · exact if_neg (hapart x y hx)
    · exact absurd (if_neg hx) hP
  · by_cases hx : P x y <;> simp [hx]

theorem draws_row_dots (hp : p.frame.Sound) (hframe : q.frame = p.frame) (htool : q.tool = p.tool) {x1 x2 : Int}
    (h : x1 ≤ x2) (y : Int) :
    Draws (fun x y' _ => if y' = y ∧ x1 ≤ x ∧ x ≤ x2 ∧ (x - x1) % p.step = 0 then some p.ink else none) q
      (q.row x1 x2 y) := by
  have hink : q.ink = p.ink := congrArg Tool.ink htool
  have hstep : q.step = p.step := congrArg Tool.step htool
  refine (draws_row (hframe ▸ hp) x1 x2 y).congr fun x y' v _ => ?_
  simp only [Layer.row, stretch, dotted, Int.min_eq_left h, Int.max_eq_right h, ← ite_and, and_assoc, hink,
    hstep]

theorem draws_column_dots (hp : p.frame.Sound) (hframe : q.frame = p.frame) (htool : q.tool = p.tool)
    {y1 y2 : Int} (h : y1 ≤ y2) (x : Int) :
    Draws (fun x' y _ => if x' = x ∧ y1 ≤ y ∧ y ≤ y2 ∧ (y - y1) % p.step = 0 then some p.ink else none) q
      (q.column y1 y2 x) := by
  have hink : q.ink = p.ink := congrArg Tool.ink htool
  have hstep : q.step = p.step := congrArg Tool.step htool
  refine (draws_column (hframe ▸ hp) y1 y2 x).congr fun x' y v _ => ?_
  simp only [Layer.column, stretch, dotted, Int.min_eq_left h, Int.max_eq_right h, ← ite_and, and_assoc, hink,
    hstep]

/-- An operation that is left out draws the shape that then has no pixels. -/
theorem Draws.unless {C : Prop} [Decidable C]
    (h : ¬C → Draws (fun x y _ => if P x y then some value else none) p q) :
    Draws (fun x y _ => if ¬C ∧ P x y then some value else none) p (if C then p else q) := by
  by_cases hC : C
  · rw [if_pos hC]
    exact (draws_blank p).congr fun x y v _ => by simp [Layer.blank, hC]
  · rw [if_neg hC]
    exact (h hC).congr fun x y v _ => by simp [hC]

theorem draws_ends (hp : p.frame.Sound) {rc : Rect} (hx : rc.left ≤ rc.right) :
    Draws (fun x y _ => if (y = rc.top ∨ y = rc.bottom) ∧ rc.left ≤ x ∧ x ≤ rc.right ∧
        (x - rc.left) % p.step = 0 then some p.ink else none) p
      (if rc.top = rc.bottom then p.row rc.left rc.right rc.top
      else (p.row rc.left rc.right rc.top).row rc.left rc.right rc.bottom) := by
  have htop := draws_row_dots hp rfl rfl hx rc.top
  have hbottom := Draws.unless (C := rc.top = rc.bottom) fun _ =>
    draws_row_dots hp htop.frame htop.tool hx rc.bottom
  refine (htop.union hbottom fun x y h h' => by omega).congr fun x y v _ => if_congr ?_ rfl rfl
  by_cases hdots : (x - rc.left) % p.step = 0
  · simp only [hdots, and_true]
    omega
  · simp [hdots]

theorem draws_sides (hp : p.frame.Sound) (hframe : q.frame = p.frame) (htool : q.tool = p.tool) {rc : Rect}
    (hy : rc.top + 1 ≤ rc.bottom - 1) :
    Draws (fun x y _ => if (x = rc.left ∨ x = rc.right) ∧ rc.top < y ∧ y < rc.bottom ∧
        (y - (rc.top + 1)) % p.step = 0 then some p.ink else none) q
      (if rc.left = rc.right then q.column (rc.top + 1) (rc.bottom - 1) rc.left
      else (q.column (rc.top + 1) (rc.bottom - 1) rc.left).column (rc.top + 1) (rc.bottom - 1) rc.right) := by
  have hleft := draws_column_dots hp hframe htool hy rc.left
  have hright := Draws.unless (C := rc.left = rc.right) fun _ =>
    draws_column_dots hp (hleft.frame.trans hframe) (hleft.tool.trans htool) hy rc.right
  refine (hleft.union hright fun x y h h' => by omega).congr fun x y v _ => if_congr ?_ rfl rfl
  by_cases hdots : (y - (rc.top + 1)) % p.step = 0
  · simp only [hdots, and_true]
    omega
  · simp [hdots]

theorem draws_edges (hp : p.frame.Sound) {rc : Rect} (hx : rc.left ≤ rc.right) (hy : rc.top ≤ rc.bottom) :
    Draws (fun x y _ => if rc.OnEdges p.step x y then some p.ink else none) p (p.edges rc) := by
  rw [edges]
  split
  next hone =>
    refine (draws_pixel hp rc.left rc.top).congr fun x y v _ => if_congr ?_ rfl rfl
    rw [Rect.OnEdges]
    constructor
    · rintro ⟨rfl, rfl⟩
      exact .inl ⟨.inl rfl, Int.le_refl _, by omega, by rw [Int.sub_self, Int.zero_emod]⟩
    · omega
  next =>
    have hends := draws_ends hp hx
    dsimp only
    generalize (if rc.top = rc.bottom then p.row rc.left rc.right rc.top
      else (p.row rc.left rc.right rc.top).row rc.left rc.right rc.bottom) = q at hends ⊢
    have hsides := Draws.unless (C := rc.bottom - rc.top ≤ 1) fun hlow =>
      draws_sides hp hends.frame hends.tool (show rc.top + 1 ≤ rc.bottom - 1 by omega)
    refine (hends.union hsides fun x y h h' => by omega).congr fun x y v _ => if_congr ?_ rfl rfl
    exact or_congr_right (and_iff_right_of_imp fun h => by omega)

end Painter

namespace Canvas

/-- The pixel lies between the ends of one of the runs, whichever end comes first. -/
def Spanned (rs : List Run) (x y : Int) : Prop := ∃ r ∈ rs, r.ordered.Covers ⟨x, y⟩

instance (rs : List Run) (x y : Int) : Decidable (Spanned rs x y) := by
  unfold Spanned; infer_instance

/-- What a call combines with the pixels of the clip, each by itself. -/
structure Figure where
  rop : RasterOp
  value : Values

variable {c : Canvas}

/-! ## What the figures are made of -/

def inkedPoints (c : Canvas) (pts : List Point) : Figure :=
  ⟨c.rop, fun x y => if ⟨x, y⟩ ∈ pts then some c.penColor else none⟩

def inkedRuns (c : Canvas) (rs : List Run) : Figure :=
  ⟨c.rop, fun x y => if Spanned rs x y then some c.penColor else none⟩

def brushed (c : Canvas) (rs : List Run) : Figure :=
  ⟨c.rop, fun x y => if Spanned rs x y then c.screenBrush.pixelAt c.text.background x y else none⟩

/-- The runs of a polygon of screen points, as they come. -/
def polygonRuns (pts : List Point) (monotone : Bool) : List Run :=
  let rc := Rect.ofPoints pts
  if rc.width = 1 ∨ rc.height = 1 then
    ⟨rc.left, rc.right - 1, rc.top⟩ ::
      (irange (rc.top + 1) (rc.bottom - 1)).map fun y => ⟨rc.left, rc.left, y⟩
  else if monotone then Polygon.monotoneRuns pts
  else Polygon.evenOddRuns pts (some (rc.top, rc.bottom - 1))

theorem polygonSpans_eq (pts : List Point) (monotone : Bool) :
    polygonSpans pts monotone = .covering (polygonRuns pts monotone) := by
  simp only [polygonSpans, polygonRuns]
  split
  · rfl
  · split <;> rfl

def arcPoints (c : Canvas) (x y r angle extent : Int) : List Point :=
  if c.space.widthToScreen r < 1 then [c.toScreen x y]
  else CircleArc.points (c.toScreen x y) (c.space.widthToScreen r) angle extent

def arcRuns (c : Canvas) (as : List EllipseArc) : List Run :=
  as.flatMap fun a =>
    if c.screenPen.width = 0 then ((c.screenArc a).outline c.clip.bound).map fun p => ⟨p.x, p.x, p.y⟩
    else (c.screenArc a).ring c.screenPen.width c.clip.bound

def sliceRuns (c : Canvas) (as : List EllipseArc) : List Run :=
  as.flatMap fun a => (c.screenArc a).pie c.clip.bound

/-- Each `step`th pixel of the edges between two logical points. -/
def outlined (c : Canvas) (a b : Point) (step : Int) (rop : RasterOp) : Figure :=
  ⟨rop, fun x y => if (c.screenBox a b).OnEdges step x y then some c.penColor else none⟩

/-- The pixels after the last column and the last row of the box still fit in 32 bits. -/
def OutlineFits (c : Canvas) (a b : Point) : Prop :=
  Fits32 ((c.screenBox a b).right + 1) ∧ Fits32 ((c.screenBox a b).bottom + 1)

/-- What a call draws an outline of can be opened for drawing. -/
def FigureFits (c : Canvas) : Drawing → Prop
  | .rectangle x0 y0 x1 y1 | .focusRect x0 y0 x1 y1 => c.OutlineFits ⟨x0, y0⟩ ⟨x1, y1⟩
  | _ => True

/-- The runs of the dashes and those of the gaps, as they come. -/
def strokeRuns (c : Canvas) (pts : List Point) : List Run × List Run :=
  Stroke.rawRuns (pts.map fun p => c.toScreen p.x p.y) c.screenPen

/-- The dashes in the colour of the pen, what only gaps cover in that of the background. -/
def stroked (c : Canvas) (pts : List Point) : Figure :=
  ⟨c.rop, fun x y =>
    if ∃ r ∈ (c.strokeRuns pts).1, r.Covers ⟨x, y⟩ then some c.penColor
    else if ∃ r ∈ (c.strokeRuns pts).2, r.Covers ⟨x, y⟩ then some c.text.background
    else none⟩

/-- The figure of a call, if it draws one: lines of a thin pen and boxes are left out. -/
def figure? (c : Canvas) : Drawing → Option Figure
  | .circle x y r => some (c.inkedPoints ((c.circleRuns x y r).flatMap Run.ends))
  | .fillCircle x y r => some (c.brushed (c.circleRuns x y r))
  | .ellipse x y rx ry => some (c.inkedPoints ((c.ellipseRuns x y rx ry).flatMap Run.ends))
  | .fillEllipse x y rx ry => some (c.brushed (c.ellipseRuns x y rx ry))
  | .circleArc x y r angle extent => some (c.inkedPoints (c.arcPoints x y r angle extent))
  | .arcs as => some (c.inkedRuns (c.arcRuns as))
  | .fillArcs as => some (c.brushed (c.sliceRuns as))
  | .fillPolygon pts =>
    if pts.length < 3 then some (c.brushed [])
    else some (c.brushed (polygonRuns (pts.map fun p => c.toScreen p.x p.y) (Polygon.isMonotone pts)))
  | .rectangle x0 y0 x1 y1 => some (c.outlined ⟨x0, y0⟩ ⟨x1, y1⟩ 1 c.rop)
  | .focusRect x0 y0 x1 y1 => some (c.outlined ⟨x0, y0⟩ ⟨x1, y1⟩ 2 .xor)
  | .stroke pts =>
    if c.pen.isThin then none
    else if pts.length < 2 then some (c.inkedPoints [])
    else some (c.stroked pts)
  | _ => none

/-! ## Each kind of figure is touched once -/

theorem touches_inkedPoints (hclip : c.clip.Banded) {rs : List Run} {pts : List Point}
    (hpts : ∀ p, (RowSpans.covering rs).Covers p ↔ p ∈ pts) :
    Touches (c.inkedPoints pts).rop (c.inkedPoints pts).value c (c.paintSpans (.covering rs) c.penColor) :=
  touches_paintSpans hclip (RowSpans.nonempty_covering _) (RowSpans.apart_covering _) c.penColor
    fun x y => hpts ⟨x, y⟩

theorem touches_inkedRuns (hclip : c.clip.Banded) (rs : List Run) :
    Touches (c.inkedRuns rs).rop (c.inkedRuns rs).value c (c.paintSpans (.covering rs) c.penColor) :=
  touches_paintSpans hclip (RowSpans.nonempty_covering _) (RowSpans.apart_covering _) c.penColor
    fun _ _ => RowSpans.covers_covering_ordered

theorem touches_brushed (hclip : c.clip.Banded) (rs : List Run) :
    Touches (c.brushed rs).rop (c.brushed rs).value c (c.brushSpans (.covering rs)) :=
  touches_brushSpans hclip (RowSpans.nonempty_covering _) (RowSpans.apart_covering _)
    fun _ _ => RowSpans.covers_covering_ordered

theorem touches_outlined (hclip : c.clip.Banded) {a b : Point} (hfits : c.OutlineFits a b) {step : Int}
    (hstep : 0 < step) (rop : RasterOp) :
    Touches (c.outlined a b step rop).rop (c.outlined a b step rop).value c (c.outline a b step rop) := by
  have hx : (c.screenBox a b).left ≤ (c.screenBox a b).right :=
    Int.le_trans (Int.min_le_left ..) (Int.le_max_left ..)
  have hy : (c.screenBox a b).top ≤ (c.screenBox a b).bottom :=
    Int.le_trans (Int.min_le_left ..) (Int.le_max_left ..)
  rw [outline]
  dsimp only [outlined]
  rw [hfits.1.wrap, hfits.2.wrap]
  generalize c.screenBox a b = rc at hx hy ⊢
  refine touches_paint hclip _ (fun x y hxy => ?_) fun p _ hp _ => ?_
  · refine Rect.contains_normalized (Rect.contains_iff.mpr ?_)
    have hedges : rc.OnEdges step x y := by
      by_contra hnot
      exact hxy (if_neg hnot)
    rw [Rect.OnEdges] at hedges
    dsimp only
    omega
  · obtain ⟨ds, hds, hs⟩ := (Painter.draws_edges (p := (p.withInk c.penColor).withStep step) hp hx hy).plots
    have hsteps : (((p.withInk c.penColor).withStep step).step : Int) = step := by
      simp only [Painter.withStep]
      omega
    rw [hsteps] at hds
    refine ⟨ds, ⟨hds.nodup, hds.mem_iff⟩, hs.trans ?_⟩
    exact Painter.surface_plotAll_congr (p := p) (q := (p.withInk c.penColor).withStep step) rfl rfl ds

theorem touches_stroked (hclip : c.clip.Banded) (pts : List Point) :
    let spans := Stroke.polyline (pts.map fun p => c.toScreen p.x p.y) c.screenPen
    Touches (c.stroked pts).rop (c.stroked pts).value c
      ((c.paintSpans spans.off c.text.background).paintSpans spans.on c.penColor) := by
  intro spans
  have hon : ∀ x y, spans.on.Covers ⟨x, y⟩ ↔ ∃ r ∈ (c.strokeRuns pts).1, r.Covers ⟨x, y⟩ := fun x y =>
    (RowSpans.covers_normalize _).trans RowSpans.covers_ofRuns
  have hne : ∀ r ∈ spans.on.runs, r.x1 ≤ r.x2 := RowSpans.nonempty_normalize (RowSpans.nonempty_ofRuns _)
  have hoff : ∀ x y, spans.off.Covers ⟨x, y⟩ ↔
      (∃ r ∈ (c.strokeRuns pts).2, r.Covers ⟨x, y⟩) ∧ ¬∃ r ∈ (c.strokeRuns pts).1, r.Covers ⟨x, y⟩ := by
    intro x y
    rw [← hon]
    refine (RowSpans.covers_subtract hne (RowSpans.before_normalize _)).trans (and_congr_left' ?_)
    exact (RowSpans.covers_normalize _).trans RowSpans.covers_ofRuns
  have hgaps : Touches c.rop (fun x y => if (∃ r ∈ (c.strokeRuns pts).2, r.Covers ⟨x, y⟩) ∧
      ¬∃ r ∈ (c.strokeRuns pts).1, r.Covers ⟨x, y⟩ then some c.text.background else none) c
      (c.paintSpans spans.off c.text.background) :=
    touches_paintSpans hclip (RowSpans.nonempty_subtract _ _)
      ((RowSpans.gapped_subtract hne (RowSpans.gapped_normalize _)).imp fun h => h.before.apart)
      c.text.background hoff
  have hkept := hgaps.kept
  generalize c.paintSpans spans.off c.text.background = c' at hgaps hkept ⊢
  have hdashes := touches_paintSpans (c := c') (hgaps.clip ▸ hclip) hne (RowSpans.apart_normalize _)
    c.penColor hon
  rw [show c'.rop = c.rop by rw [hkept]] at hdashes
  refine (hgaps.trans hdashes fun x y hgap => ?_).congr fun x y _ _ => ?_
  · by_cases h : ∃ r ∈ (c.strokeRuns pts).1, r.Covers ⟨x, y⟩
    · exact absurd (if_neg fun hgap => hgap.2 h) hgap
    · exact if_neg h
  · by_cases h : ∃ r ∈ (c.strokeRuns pts).1, r.Covers ⟨x, y⟩ <;>
      by_cases h' : ∃ r ∈ (c.strokeRuns pts).2, r.Covers ⟨x, y⟩ <;> simp [stroked, h, h']

theorem touches_draw (hclip : c.clip.Banded) {d : Drawing} (hfits : c.FigureFits d) {fig : Figure}
    (hfig : c.figure? d = some fig) :
    Touches fig.rop fig.value c (c.draw d) := by
  cases d with
  | circle => cases hfig; exact touches_inkedPoints hclip fun _ => RowSpans.covers_ofEnds
  | fillCircle => cases hfig; exact touches_brushed hclip _
  | ellipse => cases hfig; exact touches_inkedPoints hclip fun _ => RowSpans.covers_ofEnds
  | fillEllipse => cases hfig; exact touches_brushed hclip _
  | circleArc => cases hfig; exact touches_inkedPoints hclip fun _ => RowSpans.covers_ofPoints
  | arcs as => cases hfig; exact touches_inkedRuns hclip (c.arcRuns as)
  | fillArcs as => cases hfig; exact touches_brushed hclip (c.sliceRuns as)
  | rectangle => cases hfig; exact touches_outlined hclip hfits (by decide) c.rop
  | focusRect => cases hfig; exact touches_outlined hclip hfits (by decide) .xor
  | fillPolygon pts =>
    simp only [figure?] at hfig
    simp only [draw, fillPolygon, polygonSpans_eq]
    split at hfig
    next hshort =>
      cases hfig
      rw [if_pos hshort]
      exact touches_none fun x y => by simp [brushed, Spanned]
    next hlong =>
      cases hfig
      rw [if_neg hlong]
      exact touches_brushed hclip _
  | stroke pts =>
    simp only [figure?] at hfig
    simp only [draw, stroke]
    split at hfig
    next => cases hfig
    next hthick =>
      split at hfig
      next hshort =>
        cases hfig
        rw [if_pos hshort]
        exact touches_none fun x y => by simp [inkedPoints]
      next hlong =>
        cases hfig
        rw [if_neg hlong, if_neg hthick]
        exact touches_stroked hclip pts
  | _ => cases hfig

/-- The surface is not looked at. -/
theorem figure?_congr (c : Canvas) (s : Surface) (d : Drawing) :
    figure? { c with surface := s } d = c.figure? d := by
  cases d <;> rfl

theorem figureFits_congr (c : Canvas) (s : Surface) (d : Drawing) :
    FigureFits { c with surface := s } d ↔ c.FigureFits d := by
  cases d <;> exact Iff.rfl

end Canvas

end Rasterizer
