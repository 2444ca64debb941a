import Rasterizer.Proofs.Painter.Primitives

/-! # Calls on a painter

What a call writes is said by its layers, which know nothing of the clip: one for most calls, one
for each span of a list. Whatever has been drawn before, a call plots the visible pixels of its
layers, each of them once a layer, and no others (`Call.plots_visible`). -/

namespace Rasterizer

/-- Whether the layer has a value for a pixel does not depend on what the pixel holds. -/
def Layer.Steady (L : Layer) : Prop := ∀ x y v w, L x y v = none → L x y w = none

namespace Painter

inductive Call where
  | withInk (ink : Pixel)
  | withRop (rop : RasterOp)
  | withStep (step : Int)
  | pixel (x y : Int)
  | runEnds (r : Run)
  | row (x1 x2 y : Int)
  | column (y1 y2 x : Int)
  | box (rc : Rect)
  | pixelOf (x y : Int) (value : Pixel)
  | spanOf (x1 x2 y : Int) (value : Pixel)
  | blend (x y : Int) (c : Color)
  | source (x y : Int) (src : Array Pixel) (transparent : Option Pixel)
  | brushRow (x1 x2 y : Int) (brush : Brush) (background : Pixel)
  | brushSpans (spans : List Span) (brush : Brush) (background : Pixel)

namespace Call

def run (p : Painter) : Call → Painter
  | withInk ink => p.withInk ink
  | withRop rop => p.withRop rop
  | withStep step => p.withStep step
  | pixel x y => p.pixel x y
  | runEnds r => p.runEnds r
  | row x1 x2 y => p.row x1 x2 y
  | column y1 y2 x => p.column y1 y2 x
  | box rc => p.box rc
  | pixelOf x y value => p.pixelOf x y value
  | spanOf x1 x2 y value => p.spanOf x1 x2 y value
  | blend x y c => p.blend x y c
  | source x y src transparent => p.source x y src transparent
  | brushRow x1 x2 y brush background => p.brushRow x1 x2 y brush background
  | brushSpans spans brush background => p.brushSpans spans brush background

/-- What a brush has for a row between two columns given in any order. -/
def brushLayer (brush : Brush) (background : Pixel) (x1 x2 y : Int) : Layer :=
  .row y (stretch x1 x2 fun x => brush.pixelAt background x y)

/-- The shapes of a call with their values, whatever may be touched of them. -/
def layers (t : Tool) (f : PixelFormat) : Call → List Layer
  | withInk _ | withRop _ | withStep _ => []
  | pixel x y => [.dot x y fun _ => some t.ink]
  | runEnds r => [.row r.y fun x => if x = r.x1 ∨ x = r.x2 then some t.ink else none]
  | row x1 x2 y => [.row y (stretch x1 x2 (dotted t.step (min x1 x2) t.ink))]
  | column y1 y2 x => [.column x (stretch y1 y2 (dotted t.step (min y1 y2) t.ink))]
  | box rc => [.box rc.normalized t.ink]
  | pixelOf x y value => [.dot x y fun _ => some value]
  | spanOf x1 x2 y value => [.row y (stretch x1 x2 fun _ => some value)]
  | blend x y c => [.dot x y fun v => if c.a = 0 then none else some (f.overlaid c v)]
  | source x y src transparent =>
    [.row y (stretch x (x + src.size - 1) fun cx => sourceAt? src transparent (cx - x).toNat)]
  | brushRow x1 x2 y brush background => [brushLayer brush background x1 x2 y]
  | brushSpans spans brush background =>
    (spans.filter fun s => 0 < s.width).map fun s =>
      brushLayer brush background s.x (s.x + s.width - 1) s.y

/-- The last columns of the spans that have pixels fit in 32 bits. -/
def Fits : Call → Prop
  | brushSpans spans _ _ => ∀ s ∈ spans, 0 < s.width → Fits32 (s.x + s.width - 1)
  | _ => True

end Call

/-! ## Several layers -/

/-- The first painter becomes the second by drawing the layers one after another. -/
inductive DrawsAll : List Layer → Painter → Painter → Prop where
  | done {p q : Painter} (frame : q.frame = p.frame) (surface : q.surface = p.surface) : DrawsAll [] p q
  | layer {L : Layer} {Ls : List Layer} {p q r : Painter} (first : Draws L p q) (rest : DrawsAll Ls q r) :
    DrawsAll (L :: Ls) p r

variable {p q : Painter} {L : Layer} {Ls : List Layer}

theorem Draws.drawsAll (h : Draws L p q) : DrawsAll [L] p q := .layer h (.done rfl rfl)

theorem DrawsAll.frame (h : DrawsAll Ls p q) : q.frame = p.frame := by
  induction h with
  | done hframe _ => exact hframe
  | layer hfirst _ ih => exact ih.trans hfirst.frame

theorem DrawsAll.get? (h : DrawsAll Ls p q) (x y : Int) :
    q.surface.get? x y = (p.surface.get? x y).map fun v =>
      if p.frame.reaches x y then
        Ls.foldl (fun v L => L.on p.rop p.surface.format x y v) v
      else v := by
  induction h with
  | done _ hs => simp [hs]
  | @layer L Ls p q r hfirst _ ih =>
    have hrop : q.rop = p.rop := congrArg Tool.rop hfirst.tool
    rw [ih, hfirst.get?, hfirst.frame, hrop, (sameShape_of_frame hfirst.frame).format, Option.map_map]
    congr 1
    funext v
    by_cases hreach : p.frame.reaches x y = true <;> simp [hreach]

/-- The plots of a layer: each visible pixel of its shape, once. -/
structure PlotsVisible (visible : Int → Int → Bool) (L : Layer) (ds : List Plot) : Prop where
  nodup : (ds.map Plot.pos).Nodup
  mem_iff : ∀ x y, ⟨x, y⟩ ∈ ds.map Plot.pos ↔ visible x y = true ∧ ∃ v, L x y v ≠ none

theorem Lists.plotsVisible (hp : p.frame.Sound) (hL : L.Steady) {ds : List Plot} (h : Lists L p ds) :
    PlotsVisible p.frame.reaches L ds where
  nodup := h.nodup
  mem_iff x y := by
    rw [List.mem_map]
    constructor
    · rintro ⟨d, hd, hpos⟩
      obtain ⟨hreach, v, -, hv⟩ := (h.mem_iff d).mp hd
      injection hpos with hx hy
      rw [hx, hy] at hreach hv
      exact ⟨hreach, v, by simp [hv]⟩
    · rintro ⟨hreach, v, hv⟩
      obtain ⟨w, hw⟩ := exists_get?_of_reaches hp hreach
      obtain ⟨c, hc⟩ := Option.ne_none_iff_exists'.mp fun hnone => hv (hL x y w v hnone)
      exact ⟨⟨x, y, c⟩, (h.mem_iff _).mpr ⟨hreach, w, hw, hc⟩, rfl⟩

theorem DrawsAll.plots (hp : p.frame.Sound) (hsteady : ∀ L ∈ Ls, L.Steady) (h : DrawsAll Ls p q) :
    ∃ plots : List (List Plot), q.surface = (p.plotAll plots.flatten).surface ∧
      List.Forall₂ (PlotsVisible p.frame.reaches) Ls plots := by
  induction h with
  | done _ hs => exact ⟨[], hs, .nil⟩
  | @layer L Ls p q r hfirst _ ih =>
    obtain ⟨ds, hds, hs⟩ := hfirst.plots
    obtain ⟨plots, ht, hplots⟩ := ih (hfirst.frame ▸ hp) fun M hM => hsteady M (List.mem_cons_of_mem L hM)
    rw [hfirst.frame] at hplots
    refine ⟨ds :: plots, ?_, .cons (hds.plotsVisible hp (hsteady L List.mem_cons_self)) hplots⟩
    have hrop : q.rop = (p.plotAll ds).rop :=
      congrArg Tool.rop (hfirst.tool.trans (tool_plotAll p ds).symm)
    rw [ht, List.flatten_cons, surface_plotAll_append]
    exact surface_plotAll_congr hs hrop _

/-! ## Every call draws its layers -/

theorem Call.steady {t : Tool} {f : PixelFormat} {c : Call} (h : L ∈ c.layers t f) : L.Steady := by
  intro x y v w hnone
  cases c <;> simp only [Call.layers, List.mem_singleton, List.not_mem_nil] at h
  case brushSpans =>
    obtain ⟨s, -, rfl⟩ := List.mem_map.mp h
    exact hnone
  case blend =>
    subst h
    simp only [Layer.dot] at hnone ⊢
    split at hnone <;> simp_all
  all_goals subst h; exact hnone

theorem drawsAll_brushSpans (hp : p.frame.Sound) (spans : List Span) (brush : Brush) (background : Pixel) :
    DrawsAll ((spans.filter fun s => 0 < s.width).map fun s =>
      Call.brushLayer brush background s.x (lastOf s) s.y) p (p.brushSpans spans brush background) := by
  have hspans : p.brushSpans spans brush background = (spans.filter fun s => 0 < s.width).foldl
      (fun p s => p.brushRow s.x (lastOf s) s.y brush background) p := by
    simp [brushSpans, List.foldl_filter]
  rw [hspans]
  generalize spans.filter (fun s => 0 < s.width) = spans
  clear hspans
  induction spans generalizing p with
  | nil => exact .done rfl rfl
  | cons s spans ih =>
    have hfirst := draws_brushRow hp s.x (lastOf s) s.y brush background
    exact .layer hfirst (ih (hfirst.frame ▸ hp))

theorem Call.drawsAll (hp : p.frame.Sound) (c : Call) (hfits : c.Fits) :
    DrawsAll (c.layers p.tool p.surface.format) p (c.run p) := by
  cases c with
  | withInk | withRop | withStep => exact .done rfl rfl
  | pixel x y => exact (draws_pixel hp x y).drawsAll
  | runEnds r => exact (draws_runEnds hp r).drawsAll
  | row x1 x2 y => exact (draws_row hp x1 x2 y).drawsAll
  | column y1 y2 x => exact (draws_column hp y1 y2 x).drawsAll
  | box rc => exact (draws_box hp rc).drawsAll
  | pixelOf x y value => exact (draws_pixelOf hp x y value).drawsAll
  | spanOf x1 x2 y value => exact (draws_spanOf hp x1 x2 y value).drawsAll
  | blend x y c => exact (draws_blend hp x y c).drawsAll
  | source x y src transparent => exact (draws_source hp x y src transparent).drawsAll
  | brushRow x1 x2 y brush background => exact (draws_brushRow hp x1 x2 y brush background).drawsAll
  | brushSpans spans brush background =>
    have hlayers : (brushSpans spans brush background).layers p.tool p.surface.format =
        (spans.filter fun s => 0 < s.width).map fun s =>
          Call.brushLayer brush background s.x (lastOf s) s.y := by
      refine List.map_congr_left fun s hs => ?_
      obtain ⟨hmem, hwidth⟩ := List.mem_filter.mp hs
      rw [lastOf, (hfits s hmem (of_decide_eq_true hwidth)).wrap]
    rw [hlayers]
    exact drawsAll_brushSpans hp spans brush background

theorem frame_run (hp : p.frame.Sound) (c : Call) : (c.run p).frame = p.frame := by
  cases c
  case brushSpans spans brush background => exact (drawsAll_brushSpans hp spans brush background).frame
  all_goals exact (Call.drawsAll hp _ (by trivial)).frame

theorem frame_foldl_run (hp : p.frame.Sound) (calls : List Call) :
    (calls.foldl Call.run p).frame = p.frame := by
  induction calls generalizing p with
  | nil => rfl
  | cons c calls ih =>
    have hframe := frame_run hp c
    exact (ih (hframe ▸ hp)).trans hframe

end Painter

end Rasterizer
