import Rasterizer.Proofs.Line.Clip
import Rasterizer.Proofs.Painter.Primitives
import Rasterizer.Proofs.RowSpans
import Rasterizer.Text.Background
import Rasterizer.Text.Glyph

/-! # Masked drawing

Most drawing maps pixels one by one: what becomes of a pixel that may be touched is settled by
its place, by what it holds and by what the painter draws with. The clip only says where. Such
drawing is called masked; each operation is, and what is put together from masked steps is. -/

namespace Rasterizer.Painter

/-- The pixels that may be touched are mapped, each by itself, and the others stay. -/
structure Maps (g : Int → Int → Pixel → Pixel) (p q : Painter) : Prop where
  frame : q.frame = p.frame
  get? : ∀ x y, q.surface.get? x y = (p.surface.get? x y).map fun v =>
    if p.frame.reaches x y then g x y v else v

variable {p q r : Painter} {g h : Int → Int → Pixel → Pixel}

theorem Maps.trans (hpq : Maps g p q) (hqr : Maps h q r) : Maps (fun x y v => h x y (g x y v)) p r where
  frame := hqr.frame.trans hpq.frame
  get? x y := by
    rw [hqr.get?, hpq.get?, hpq.frame, Option.map_map]
    congr 1
    funext v
    by_cases hreach : p.frame.reaches x y = true <;> simp [hreach]

theorem Maps.get?_of_not_reaches (hpq : Maps g p q) {x y : Int} (hxy : p.frame.reaches x y = false) :
    q.surface.get? x y = p.surface.get? x y := by
  rw [hpq.get?, hxy]
  exact congrFun Option.map_id _

theorem Draws.maps {L : Layer} (hpq : Draws L p q) : Maps (L.on p.rop p.surface.format) p q :=
  ⟨hpq.frame, hpq.get?⟩

/-- What becomes of a pixel depends on the tool and the format alone. -/
def Masked (f : Painter → Painter) : Prop :=
  ∀ t fmt, ∃ g u, ∀ p : Painter, p.frame.Sound → p.tool = t → p.surface.format = fmt →
    Maps g p (f p) ∧ (f p).tool = u

variable {f f' : Painter → Painter}

theorem masked_id : Masked fun p => p := fun t _ =>
  ⟨fun _ _ v => v, t, fun p _ ht _ => ⟨⟨rfl, fun x y => by simp⟩, ht⟩⟩

theorem Masked.comp (hf : Masked f) (hf' : Masked f') : Masked fun p => f' (f p) := by
  intro t fmt
  obtain ⟨g, u, hg⟩ := hf t fmt
  obtain ⟨h, w, hh⟩ := hf' u fmt
  refine ⟨fun x y v => h x y (g x y v), w, fun p hp ht hfmt => ?_⟩
  obtain ⟨hmaps, hu⟩ := hg p hp ht hfmt
  obtain ⟨hmaps', hw⟩ := hh (f p) (hmaps.frame ▸ hp) hu
    ((sameShape_of_frame hmaps.frame).format.trans hfmt)
  exact ⟨hmaps.trans hmaps', hw⟩

theorem Masked.foldl {α : Type} {f : Painter → α → Painter} (hf : ∀ a, Masked fun p => f p a)
    (as : List α) : Masked fun p => as.foldl f p := by
  induction as with
  | nil => exact masked_id
  | cons a as ih => exact (hf a).comp ih

theorem Masked.ite (P : Prop) [Decidable P] (hf : Masked f) (hf' : Masked f') :
    Masked fun p => if P then f p else f' p := by
  by_cases h : P
  · simpa [h] using hf
  · simpa [h] using hf'

theorem Masked.maps (hf : Masked f) (hp : p.frame.Sound) : ∃ g, Maps g p (f p) := by
  obtain ⟨g, _, hg⟩ := hf p.tool p.surface.format
  exact ⟨g, (hg p hp rfl rfl).1⟩

theorem masked_of_draws (L : Tool → PixelFormat → Layer)
    (hf : ∀ p : Painter, p.frame.Sound → Draws (L p.tool p.surface.format) p (f p)) : Masked f := by
  intro t fmt
  refine ⟨(L t fmt).on t.rop fmt, t, fun p hp ht hfmt => ?_⟩
  have hdraws := hf p hp
  subst ht hfmt
  exact ⟨hdraws.maps, hdraws.tool⟩

/-! ## Settings -/

theorem masked_withInk (ink : Pixel) : Masked fun p => p.withInk ink := fun t _ =>
  ⟨fun _ _ v => v, { t with ink := ink }, fun p _ ht _ => ⟨⟨rfl, fun x y => by simp [withInk]⟩, ht ▸ rfl⟩⟩

theorem masked_withStep (step : Int) : Masked fun p => p.withStep step := fun t _ =>
  ⟨fun _ _ v => v, { t with step := max step.toNat 1 },
    fun p _ ht _ => ⟨⟨rfl, fun x y => by simp [withStep]⟩, ht ▸ rfl⟩⟩

/-! ## Operations -/

theorem masked_pixel (x y : Int) : Masked fun p => p.pixel x y :=
  masked_of_draws (fun t _ => .dot x y fun _ => some t.ink) fun _ hp => draws_pixel hp x y

theorem masked_pixelOf (x y : Int) (value : Pixel) : Masked fun p => p.pixelOf x y value :=
  masked_of_draws (fun _ _ => .dot x y fun _ => some value) fun _ hp => draws_pixelOf hp x y value

theorem masked_row (x1 x2 y : Int) : Masked fun p => p.row x1 x2 y :=
  masked_of_draws (fun t _ => .row y (stretch x1 x2 (dotted t.step (min x1 x2) t.ink)))
    fun _ hp => draws_row hp x1 x2 y

theorem masked_column (y1 y2 x : Int) : Masked fun p => p.column y1 y2 x :=
  masked_of_draws (fun t _ => .column x (stretch y1 y2 (dotted t.step (min y1 y2) t.ink)))
    fun _ hp => draws_column hp y1 y2 x

theorem masked_spanOf (x1 x2 y : Int) (value : Pixel) : Masked fun p => p.spanOf x1 x2 y value :=
  masked_of_draws (fun _ _ => .row y (stretch x1 x2 fun _ => some value))
    fun _ hp => draws_spanOf hp x1 x2 y value

theorem masked_brushRow (x1 x2 y : Int) (brush : Brush) (background : Pixel) :
    Masked fun p => p.brushRow x1 x2 y brush background :=
  masked_of_draws (fun _ _ => .row y (stretch x1 x2 fun x => brush.pixelAt background x y))
    fun _ hp => draws_brushRow hp x1 x2 y brush background

theorem masked_box (rc : Rect) : Masked fun p => p.box rc :=
  masked_of_draws (fun t _ => .box rc.normalized t.ink) fun _ hp => draws_box hp rc

theorem masked_blend (x y : Int) (c : Color) : Masked fun p => p.blend x y c :=
  masked_of_draws (fun _ fmt => .dot x y fun v => if c.a = 0 then none else some (fmt.overlaid c v))
    fun _ hp => draws_blend hp x y c

/-- Pixels one after another, none of them twice. -/
theorem draws_pixels (hp : p.frame.Sound) {pts : List Point} (hpts : pts.Nodup) :
    Draws (fun x y _ => if (⟨x, y⟩ : Point) ∈ pts then some p.ink else none) p
      (pts.foldl (fun p a => p.pixel a.x a.y) p) := by
  have hstep : ∀ q : Painter, q.frame = p.frame → q.tool = p.tool → ∀ a ∈ pts,
      Draws (fun x y _ => if (⟨x, y⟩ : Point) = a then some p.ink else none) q (q.pixel a.x a.y) := by
    intro q hframe htool a _
    have hink : q.ink = p.ink := congrArg Tool.ink htool
    refine (draws_pixel (hframe ▸ hp) a.x a.y).congr fun x y v _ => ?_
    rw [Layer.dot, hink]
    exact if_congr (by cases a; simp) rfl rfl
  exact Draws.foldl_shapes hstep (hpts.imp fun hab x y h h' => hab (h.symm.trans h')) fun x y _ => by simp

/-- Runs that stand apart, each painted with the values of its pixels. -/
theorem draws_runs {paint : Painter → Run → Painter}
    {value : Int → Int → Option Pixel} {runs : List Run}
    (hpaint : ∀ q : Painter, q.frame = p.frame → q.tool = p.tool → ∀ r ∈ runs,
      Draws (.row r.y (stretch r.x1 r.x2 fun x => value x r.y)) q (paint q r))
    (hne : ∀ r ∈ runs, r.x1 ≤ r.x2) (hapart : runs.Pairwise Run.Apart) {covered : Int → Int → Prop}
    [∀ x y, Decidable (covered x y)] (hcovered : ∀ x y, covered x y ↔ ∃ r ∈ runs, r.Covers ⟨x, y⟩) :
    Draws (fun x y _ => if covered x y then value x y else none) p (runs.foldl paint p) := by
  have hstep : ∀ q : Painter, q.frame = p.frame → q.tool = p.tool → ∀ r ∈ runs,
      Draws (fun x y _ => if r.Covers ⟨x, y⟩ then value x y else none) q (paint q r) := by
    intro q hframe htool r hr
    refine (hpaint q hframe htool r hr).congr fun x y v _ => ?_
    rw [Layer.row, stretch, Int.min_eq_left (hne r hr), Int.max_eq_right (hne r hr)]
    by_cases hy : y = r.y
    · simp [Run.Covers, hy]
    · simp [Run.Covers, hy]
  exact Draws.foldl_shapes hstep (hapart.imp fun hrs x y => hrs ⟨x, y⟩) fun x y _ => hcovered x y

/-- Lines along rows, with all their dots and without a common pixel, whichever ends of them come first. -/
theorem draws_rows (hp : p.frame.Sound) (hstep : p.step = 1) {runs : List Run}
    (hapart : runs.Pairwise fun r s => r.ordered.Apart s.ordered) {covered : Int → Int → Prop}
    [∀ x y, Decidable (covered x y)]
    (hcovered : ∀ x y, covered x y ↔ ∃ r ∈ runs, r.ordered.Covers ⟨x, y⟩) :
    Draws (fun x y _ => if covered x y then some p.ink else none) p
      (runs.foldl (fun p r => p.row r.x1 r.x2 r.y) p) := by
  have hordered : ∀ (q : Painter) (r : Run), q.row r.ordered.x1 r.ordered.x2 r.ordered.y = q.row r.x1 r.x2 r.y := by
    intro q r
    simp only [Run.ordered]
    rcases Int.le_total r.x1 r.x2 with h | h
    · rw [Int.min_eq_left h, Int.max_eq_right h]
    · rw [Int.min_eq_right h, Int.max_eq_left h, row_comm]
  have hrow : ∀ q : Painter, q.frame = p.frame → q.tool = p.tool → ∀ r ∈ runs.map Run.ordered,
      Draws (.row r.y (stretch r.x1 r.x2 fun _ => some p.ink)) q (q.row r.x1 r.x2 r.y) := by
    intro q hframe htool r _
    have hink : q.ink = p.ink := congrArg Tool.ink htool
    have hone : q.step = 1 := (congrArg Tool.step htool).trans hstep
    refine (draws_row (hframe ▸ hp) r.x1 r.x2 r.y).congr fun x y v _ => ?_
    simp only [Layer.row, stretch, hone, dotted_one, hink]
  have hne : ∀ r ∈ runs.map Run.ordered, r.x1 ≤ r.x2 := by
    intro r hr
    obtain ⟨s, -, rfl⟩ := List.mem_map.mp hr
    exact Int.le_trans (Int.min_le_left ..) (Int.le_max_left ..)
  have hdraws : Draws (fun x y _ => if covered x y then some p.ink else none) p
      ((runs.map Run.ordered).foldl (fun p r => p.row r.x1 r.x2 r.y) p) :=
    draws_runs hrow hne (List.pairwise_map.mpr hapart) fun x y => by simp [hcovered]
  rw [List.foldl_map] at hdraws
  simpa only [hordered] using hdraws

/-- Where the window cuts a line does not show. -/
theorem draws_line (hp : p.frame.Sound) (a b : Point) :
    Draws (fun x y _ => if (⟨x, y⟩ : Point) ∈ (LineWalk.between a b).points then some p.ink else none) p
      (p.line a b) := by
  have hwindow : ∀ x y, p.frame.reaches x y = true → p.window.contains x y = true := fun x y h =>
    (Frame.reaches_iff.mp h).1
  rw [line]
  rcases LineWalk.clipped?_cases a b p.window with ⟨hnone, hout⟩ | ⟨w, hsome, hpoints⟩
  · rw [hnone]
    refine (draws_blank p).congr fun x y v hreach => (if_neg fun hmem => ?_).symm
    have := hout _ hmem
    rw [hwindow x y hreach] at this
    cases this
  · simp only [hsome, hpoints]
    refine (draws_pixels hp ((LineWalk.nodup_points a b).filter _)).congr fun x y v hreach => ?_
    simp [List.mem_filter, hwindow x y hreach]

theorem masked_line (a b : Point) : Masked fun p => p.line a b :=
  masked_of_draws (fun t _ x y _ =>
    if (⟨x, y⟩ : Point) ∈ (LineWalk.between a b).points then some t.ink else none)
    fun _ hp => draws_line hp a b

/-! ## Larger steps -/

theorem masked_mark (m : Mark) : Masked fun p => p.mark m := by
  cases m with
  | span x1 x2 y value => exact masked_spanOf x1 x2 y value
  | pixel x y value => exact masked_pixelOf x y value
  | blend x y c => exact masked_blend x y c

theorem masked_markAll (ms : List Mark) : Masked fun p => p.markAll ms := .foldl masked_mark ms

theorem masked_fill (area : BackArea) : Masked area.fill := by
  cases area with
  | upright rc => exact masked_box rc
  | leaning rc reversed => exact .foldl (fun r : Run => masked_row r.x1 r.x2 r.y) _
  | turned a b c d => exact .foldl (fun r : Run => masked_row r.x1 r.x2 r.y) _

end Rasterizer.Painter
