import Rasterizer.Painter
import Rasterizer.Proofs.Surface.Cells
import Rasterizer.Proofs.Region.Lookup

/-! # Layers

A layer says what a drawing has for each pixel of the plane, whatever may be touched of it. A
painter draws a layer when it plots, in some order, each pixel of the layer that may be touched
and no other, and none of them twice (`Painter.Draws`). What that leaves on the surface does not
depend on the order (`Painter.Draws.get?`). -/

namespace Rasterizer

/-- The value to be combined with a pixel, given its place and what it holds, if any. -/
abbrev Layer := Int → Int → Pixel → Option Pixel

/-- What a pixel holds after a layer has been drawn on it. -/
def Layer.on (L : Layer) (rop : RasterOp) (f : PixelFormat) (x y : Int) (v : Pixel) : Pixel :=
  match L x y v with
  | some c => f.kept (rop.apply v c)
  | none => v

/-- The layer with nothing on it. -/
def Layer.blank : Layer := fun _ _ _ => none

def Plot.pos (d : Plot) : Point := ⟨d.x, d.y⟩

namespace Painter

/-- The painter that remembers another band. -/
def withBand (p : Painter) (b : Option Nat) : Painter := { p with lastBand := b }

/-! ## What drawing keeps -/

/-- What no drawing changes: where a painter may draw, and the shape of its surface. -/
structure Frame where
  clip : Region
  window : Rect
  unclipped : Bool
  width : Nat
  height : Nat
  format : PixelFormat

/-- What a painter draws with. -/
structure Tool where
  ink : Pixel
  rop : RasterOp
  step : Nat

def frame (p : Painter) : Frame :=
  ⟨p.clip, p.window, p.unclipped, p.surface.width, p.surface.height, p.surface.format⟩

def tool (p : Painter) : Tool := ⟨p.ink, p.rop, p.step⟩

/-- The pixel lies in the window and in the clip region. -/
def Frame.reaches (f : Frame) (x y : Int) : Bool := f.window.contains x y && f.clip.contains x y

/-- The frame of a painter that has been opened. -/
structure Frame.Sound (f : Frame) : Prop where
  banded : f.clip.Banded
  onSurface : ∀ x y, f.window.contains x y = true → 0 ≤ x ∧ x < f.width ∧ 0 ≤ y ∧ y < f.height
  unclipped : f.unclipped = true → ∀ x y, f.window.contains x y = true → f.clip.contains x y = true

theorem Frame.reaches_iff {f : Frame} {x y : Int} :
    f.reaches x y = true ↔ f.window.contains x y = true ∧ f.clip.contains x y = true := by
  rw [reaches, Bool.and_eq_true]

variable {p q r : Painter} {L M : Layer} {ds es : List Plot}

theorem sameShape_of_frame (h : q.frame = p.frame) : p.surface.SameShape q.surface := by
  injection h with _ _ _ hwidth hheight hformat
  exact ⟨hwidth, hheight, hformat⟩

/-- What may be touched lies on the surface. -/
theorem exists_get?_of_reaches (hp : p.frame.Sound) {x y : Int} (h : p.frame.reaches x y = true) :
    ∃ v, p.surface.get? x y = some v :=
  ⟨_, Surface.get?_eq_some (Surface.inside_iff.mpr (hp.onSurface x y (Frame.reaches_iff.mp h).1))⟩

/-! ## Plots -/

@[simp] theorem frame_plotAll (p : Painter) (ds : List Plot) : (p.plotAll ds).frame = p.frame := by
  induction ds generalizing p with
  | nil => rfl
  | cons d ds ih =>
    have hshape := Surface.sameShape_put p.surface d.x d.y
      (p.rop.apply ((p.surface.get? d.x d.y).getD 0) d.value)
    rw [plotAll, List.foldl_cons, ← plotAll, ih, plot, frame, frame]
    simp only [hshape.width, hshape.height, hshape.format]

@[simp] theorem tool_plotAll (p : Painter) (ds : List Plot) : (p.plotAll ds).tool = p.tool := by
  induction ds generalizing p with
  | nil => rfl
  | cons d ds ih => rw [plotAll, List.foldl_cons, ← plotAll, ih]; rfl

/-- Plotting asks only for the surface and the raster operation. -/
theorem surface_plotAll_congr (hs : q.surface = p.surface) (hrop : q.rop = p.rop) (ds : List Plot) :
    (q.plotAll ds).surface = (p.plotAll ds).surface := by
  induction ds generalizing p q with
  | nil => exact hs
  | cons d ds ih => exact ih (by simp only [plot, hs, hrop]) hrop

theorem get?_plot (p : Painter) (d : Plot) (x y : Int) :
    (p.plot d).surface.get? x y =
      if x = d.x ∧ y = d.y then
        (p.surface.get? x y).map fun v => p.surface.format.kept (p.rop.apply v d.value)
      else p.surface.get? x y := by
  rw [plot, Surface.get?_put]
  split
  next h => rw [h.1, h.2]; cases p.surface.get? d.x d.y <;> rfl
  next => rfl

theorem get?_plotAll_of_not_mem {x y : Int} (h : ⟨x, y⟩ ∉ ds.map Plot.pos) :
    (p.plotAll ds).surface.get? x y = p.surface.get? x y := by
  induction ds generalizing p with
  | nil => rfl
  | cons d ds ih =>
    rw [List.map_cons, List.mem_cons, not_or] at h
    rw [plotAll, List.foldl_cons, ← plotAll, ih h.2, get?_plot, if_neg]
    rintro ⟨rfl, rfl⟩
    exact h.1 rfl

/-- A pixel that is plotted once is combined once. -/
theorem get?_plotAll_of_mem (hnodup : (ds.map Plot.pos).Nodup) {d : Plot} (hd : d ∈ ds) :
    (p.plotAll ds).surface.get? d.x d.y =
      (p.surface.get? d.x d.y).map fun v => p.surface.format.kept (p.rop.apply v d.value) := by
  induction ds generalizing p with
  | nil => cases hd
  | cons e ds ih =>
    obtain ⟨hnot, hnodup⟩ := List.nodup_cons.mp hnodup
    rw [plotAll, List.foldl_cons, ← plotAll]
    rcases List.mem_cons.mp hd with rfl | hd
    · rw [get?_plotAll_of_not_mem hnot, get?_plot, if_pos ⟨rfl, rfl⟩]
    · have hne : ¬(d.x = e.x ∧ d.y = e.y) := fun h =>
        hnot (List.mem_map.mpr ⟨d, hd, by simp only [Plot.pos, h.1, h.2]⟩)
      have hformat := (Surface.sameShape_put p.surface e.x e.y
        (p.rop.apply ((p.surface.get? e.x e.y).getD 0) e.value)).format
      rw [ih hnodup hd, get?_plot, if_neg hne]
      exact congrArg (fun f : PixelFormat =>
        (p.surface.get? d.x d.y).map fun v => f.kept (p.rop.apply v d.value)) hformat

/-! ## Drawing a layer -/

/-- The plots of a layer: each pixel of it that may be touched, once. -/
structure Lists (L : Layer) (p : Painter) (ds : List Plot) : Prop where
  nodup : (ds.map Plot.pos).Nodup
  mem_iff : ∀ d, d ∈ ds ↔ p.frame.reaches d.x d.y = true ∧
    ∃ v, p.surface.get? d.x d.y = some v ∧ L d.x d.y v = some d.value

/-- The first painter becomes the second by plotting the layer. -/
structure Draws (L : Layer) (p q : Painter) : Prop where
  frame : q.frame = p.frame
  tool : q.tool = p.tool
  plots : ∃ ds, Lists L p ds ∧ q.surface = (p.plotAll ds).surface

theorem Draws.get? (h : Draws L p q) (x y : Int) :
    q.surface.get? x y = (p.surface.get? x y).map fun v =>
      if p.frame.reaches x y then L.on p.rop p.surface.format x y v else v := by
  obtain ⟨ds, hds, hs⟩ := h.plots
  rw [hs]
  cases hv : p.surface.get? x y with
  | none =>
    rw [get?_plotAll_of_not_mem, hv]
    · rfl
    · intro hmem
      obtain ⟨d, hd, hpos⟩ := List.mem_map.mp hmem
      obtain ⟨-, v, hget, -⟩ := (hds.mem_iff d).mp hd
      injection hpos with hx hy
      rw [hx, hy, hv] at hget
      cases hget
  | some v =>
    by_cases hplot : p.frame.reaches x y = true ∧ ∃ c, L x y v = some c
    · obtain ⟨hreach, c, hc⟩ := hplot
      have hd : (⟨x, y, c⟩ : Plot) ∈ ds := (hds.mem_iff _).mpr ⟨hreach, v, hv, hc⟩
      rw [get?_plotAll_of_mem hds.nodup hd, hv, Option.map_some, Option.map_some, if_pos hreach,
        Layer.on, hc]
    · have hnot : (⟨x, y⟩ : Point) ∉ ds.map Plot.pos := by
        intro hmem
        obtain ⟨d, hd, hpos⟩ := List.mem_map.mp hmem
        obtain ⟨hreach, w, hget, hc⟩ := (hds.mem_iff d).mp hd
        injection hpos with hx hy
        rw [hx, hy] at hreach hget hc
        rw [hv, Option.some.injEq] at hget
        exact hplot ⟨hreach, _, hget ▸ hc⟩
      rw [get?_plotAll_of_not_mem hnot, hv, Option.map_some]
      split
      next hreach =>
        cases hc : L x y v with
        | none => rw [Layer.on, hc]
        | some c => exact absurd ⟨hreach, c, hc⟩ hplot
      next => rfl

/-- Where the painter may not draw, nothing changes. -/
theorem Draws.get?_of_not_reaches (h : Draws L p q) {x y : Int} (hxy : p.frame.reaches x y = false) :
    q.surface.get? x y = p.surface.get? x y := by
  rw [h.get?, hxy]
  exact congrFun Option.map_id _

/-- Where the layer has nothing, nothing changes. -/
theorem Draws.get?_of_none (h : Draws L p q) {x y : Int} (hL : ∀ v, L x y v = none) :
    q.surface.get? x y = p.surface.get? x y := by
  rw [h.get?]
  simp [Layer.on, hL]

theorem Draws.of_lists (hds : Lists L p ds) (b : Option Nat) :
    Draws L p ((p.withBand b).plotAll ds) where
  frame := frame_plotAll _ _
  tool := tool_plotAll _ _
  plots := ⟨ds, hds, surface_plotAll_congr (p := p) (q := p.withBand b) rfl rfl ds⟩

/-- Layers that agree on what may be touched, and for what it holds, are drawn alike. -/
theorem Draws.congr_of_get? (h : Draws L p q) (hLM : ∀ x y v, p.frame.reaches x y = true →
    p.surface.get? x y = some v → L x y v = M x y v) : Draws M p q := by
  obtain ⟨ds, hds, hs⟩ := h.plots
  refine ⟨h.frame, h.tool, ds, ⟨hds.nodup, fun d => ?_⟩, hs⟩
  rw [hds.mem_iff]
  refine and_congr_right fun hreach => exists_congr fun v => and_congr_right fun hv => ?_
  rw [hLM _ _ _ hreach hv]

theorem Draws.congr (h : Draws L p q)
    (hLM : ∀ x y v, p.frame.reaches x y = true → L x y v = M x y v) : Draws M p q :=
  h.congr_of_get? fun x y v hreach _ => hLM x y v hreach

theorem draws_blank (p : Painter) : Draws .blank p p :=
  ⟨rfl, rfl, [], ⟨List.nodup_nil, fun d => by simp [Layer.blank]⟩, rfl⟩

theorem surface_plotAll_append (p : Painter) (ds es : List Plot) :
    (p.plotAll (ds ++ es)).surface = ((p.plotAll ds).plotAll es).surface := by
  rw [plotAll, plotAll, plotAll, List.foldl_append]

/-- Two layers one after another, of which no pixel has both, are drawn like one. -/
theorem Draws.trans (h : Draws L p q) (h' : Draws M q r)
    (hdisjoint : ∀ x y v w, L x y v ≠ none → M x y w = none) :
    Draws (fun x y v => (L x y v).or (M x y v)) p r := by
  obtain ⟨ds, hds, hs⟩ := h.plots
  obtain ⟨es, hes, ht⟩ := h'.plots
  have hrop : q.rop = p.rop := congrArg Tool.rop h.tool
  have hkept : ∀ x y v, p.surface.get? x y = some v → L x y v = none →
      q.surface.get? x y = some v := fun x y v hv hL => by
    rw [h.get?, hv, Option.map_some, Layer.on, hL, ite_self]
  refine ⟨h'.frame.trans h.frame, h'.tool.trans h.tool, ds ++ es, ⟨?_, fun d => ?_⟩, ?_⟩
  · rw [List.map_append, List.nodup_append]
    refine ⟨hds.nodup, hes.nodup, fun a ha b hb hab => ?_⟩
    obtain ⟨d, hd, rfl⟩ := List.mem_map.mp ha
    obtain ⟨e, he, rfl⟩ := List.mem_map.mp hb
    obtain ⟨-, v, -, hL⟩ := (hds.mem_iff d).mp hd
    obtain ⟨-, w, -, hM⟩ := (hes.mem_iff e).mp he
    injection hab with hx hy
    rw [← hx, ← hy, hdisjoint _ _ v w (by rw [hL]; exact Option.some_ne_none _)] at hM
    cases hM
  · rw [List.mem_append, hds.mem_iff, hes.mem_iff, h.frame, ← and_or_left]
    refine and_congr_right fun _ => ⟨?_, ?_⟩
    · rintro (⟨v, hv, hL⟩ | ⟨w, hw, hM⟩)
      · exact ⟨v, hv, by rw [hL]; rfl⟩
      · have hshape := sameShape_of_frame h.frame
        cases hv : p.surface.get? d.x d.y with
        | none =>
          rw [Surface.get?_eq_none_iff, ← hshape.inside, ← Surface.get?_eq_none_iff, hw] at hv
          cases hv
        | some v =>
          cases hL : L d.x d.y v with
          | some c =>
            rw [hdisjoint _ _ v w (by rw [hL]; exact Option.some_ne_none _)] at hM
            cases hM
          | none =>
            rw [hkept _ _ _ hv hL, Option.some.injEq] at hw
            subst hw
            exact ⟨v, rfl, by rw [hL, hM]; rfl⟩
    · rintro ⟨v, hv, hor⟩
      cases hL : L d.x d.y v with
      | some c => rw [hL, Option.some_or] at hor; exact .inl ⟨v, hv, hL.trans hor⟩
      | none =>
        rw [hL, Option.none_or] at hor
        exact .inr ⟨v, hkept _ _ _ hv hL, hor⟩
  · rw [ht, surface_plotAll_append]
    refine surface_plotAll_congr hs ?_ es
    rw [hrop]
    exact (congrArg Tool.rop (tool_plotAll p ds)).symm

/-- A search that can only find one thing finds it if it is anywhere. -/
theorem findSome?_ite {α β : Type} {P : α → Prop} [DecidablePred P] (as : List α) (found : Option β) :
    (as.findSome? fun a => if P a then found else none) = if ∃ a ∈ as, P a then found else none := by
  induction as with
  | nil => simp
  | cons a as ih => cases found <;> by_cases h : P a <;> simp_all

theorem Draws.foldl {α : Type} {f : Painter → α → Painter} {layer : α → Layer} {as : List α}
    (hstep : ∀ q, q.frame = p.frame → q.tool = p.tool → ∀ a ∈ as, Draws (layer a) q (f q a))
    (hdisjoint : as.Pairwise fun a b => ∀ x y v w, layer a x y v ≠ none → layer b x y w = none) :
    Draws (fun x y v => as.findSome? fun a => layer a x y v) p (as.foldl f p) := by
  induction as generalizing p with
  | nil => exact draws_blank p
  | cons a as ih =>
    obtain ⟨ha, has⟩ := List.pairwise_cons.mp hdisjoint
    have hfirst := hstep p rfl rfl a List.mem_cons_self
    have hrest := ih (p := f p a) (fun q hf ht b hb => hstep q (hf.trans hfirst.frame)
      (ht.trans hfirst.tool) b (List.mem_cons_of_mem a hb)) has
    refine (hfirst.trans hrest ?_).congr ?_
    · intro x y v w h
      rw [List.findSome?_eq_none_iff]
      exact fun b hb => ha b hb x y v w h
    · intro x y v _
      rw [List.findSome?_cons]
      cases layer a x y v <;> rfl

/-- Shapes without a common pixel one after another, each with the values of its pixels. -/
theorem Draws.foldl_shapes {α : Type} {f : Painter → α → Painter} {as : List α} {shape : α → Int → Int → Prop}
    [∀ a x y, Decidable (shape a x y)] {value : Int → Int → Option Pixel}
    (hstep : ∀ q, q.frame = p.frame → q.tool = p.tool → ∀ a ∈ as,
      Draws (fun x y _ => if shape a x y then value x y else none) q (f q a))
    (hapart : as.Pairwise fun a b => ∀ x y, shape a x y → ¬shape b x y) {covered : Int → Int → Prop}
    [∀ x y, Decidable (covered x y)]
    (hcovered : ∀ x y, p.frame.reaches x y = true → (covered x y ↔ ∃ a ∈ as, shape a x y)) :
    Draws (fun x y _ => if covered x y then value x y else none) p (as.foldl f p) := by
  refine (Draws.foldl hstep (hapart.imp fun {a b} hab x y v w ha => if_neg ?_)).congr fun x y v hreach => ?_
  · exact hab x y (Decidable.byContradiction fun hnot => ha (if_neg hnot))
  · rw [findSome?_ite]
    exact if_congr (hcovered x y hreach).symm rfl rfl

end Painter

end Rasterizer
