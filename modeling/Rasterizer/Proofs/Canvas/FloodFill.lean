import Rasterizer.Proofs.Canvas.Commands
import Rasterizer.Proofs.Canvas.Touched

/-! # Flood fill

A fill touches the area around its start once, as far as it lies in the clip
(`Canvas.touches_floodFill`). The area is that of the surface before the fill: what the clip hides
belongs to it, and what a brush or a raster operation leaves as it was is still not filled twice.

A second fill with one colour starts from what the first one has left there. If that is not the colour,
the clip hides the start, and all that the second fill finds belongs to the area of the first and is
hidden as well. So it changes nothing (`Canvas.floodFill_floodFill`). -/

namespace Rasterizer.Canvas

open Flood

variable {c : Canvas} {x y : Int} {old : Pixel}

open Classical in
/-- The brush's values for the pixels of one value that hang together around a screen point, in the
device rectangle and on the surface. -/
noncomputable def flooded (c : Canvas) (o : Point) (old : Pixel) : Values := fun x y =>
  if Area (fun x y => c.surface.get? x y == some old) c.space.device o ⟨x, y⟩ then
    c.screenBrush.pixelAt c.text.background x y
  else none

theorem flooded_of_area {o : Point}
    (h : Area (fun x y => c.surface.get? x y == some old) c.space.device o ⟨x, y⟩) :
    c.flooded o old x y = c.screenBrush.pixelAt c.text.background x y := if_pos h

theorem flooded_of_not_area {o : Point}
    (h : ¬Area (fun x y => c.surface.get? x y == some old) c.space.device o ⟨x, y⟩) :
    c.flooded o old x y = none := if_neg h

/-- The pixels of one value lie on the surface. -/
theorem inside_visibleRect_iff {dst : Rect} (hdst : visibleRect? c.surface c.space = some dst) (old : Pixel)
    (p : Point) :
    Inside (fun x y => c.surface.get? x y == some old) dst p ↔
      Inside (fun x y => c.surface.get? x y == some old) c.space.device p := by
  have hmeet := c.space.device.contains_intersect? c.surface.rect p.x p.y
  rw [visibleRect?] at hdst
  rw [hdst, Option.any_some, Surface.rect_contains] at hmeet
  refine and_congr_left fun hvalue => ?_
  rw [hmeet, Surface.inside_of_get? (eq_of_beq hvalue), Bool.and_true]

theorem touches_floodFill (hclip : c.clip.Banded)
    (hdevice : c.space.device.contains (c.toScreen x y).x (c.toScreen x y).y = true)
    (hold : c.surface.get? (c.toScreen x y).x (c.toScreen x y).y = some old) (hne : old ≠ c.brush.color) :
    Touches c.rop (c.flooded (c.toScreen x y) old) c (c.floodFill x y) := by
  rw [floodFill]
  generalize c.toScreen x y = o at hdevice hold ⊢
  have hmeet := c.space.device.contains_intersect? c.surface.rect o.x o.y
  rw [Surface.rect_contains, Surface.inside_of_get? hold, hdevice] at hmeet
  cases hdst : visibleRect? c.surface c.space with
  | none =>
    rw [visibleRect?] at hdst
    rw [hdst] at hmeet
    cases hmeet
  | some dst =>
    have hinside := inside_visibleRect_iff hdst old
    rw [visibleRect?] at hdst
    have hnormal := Rect.normalized_of_nonempty (Rect.isEmpty_of_intersect? hdst)
    rw [hdst, Option.any_some, Bool.and_self] at hmeet
    simp only [hold, hmeet, hne, Bool.true_eq_false, or_self, if_false]
    refine touches_paint hclip dst (fun x' y' hxy => ?_) fun p hsurface hp _ => ?_
    · have harea : Area (fun x y => c.surface.get? x y == some old) c.space.device o ⟨x', y'⟩ := by
        by_contra hnot
        exact hxy (flooded_of_not_area hnot)
      rw [hnormal]
      exact ((hinside _).mpr harea.inside).1
    · have hdraws := draws_fill old c.screenBrush c.text.background hp dst o.x o.y
      refine (hdraws.congr fun x' y' v _ => ?_).plots
      have harea : Area (fun x y => p.surface.get? x y == some old) dst.normalized o ⟨x', y'⟩ ↔
          Area (fun x y => c.surface.get? x y == some old) c.space.device o ⟨x', y'⟩ := by
        rw [hsurface, hnormal]
        exact ⟨Area.mono fun p => (hinside p).mp, Area.mono fun p => (hinside p).mpr⟩
      by_cases h : Area (fun x y => c.surface.get? x y == some old) c.space.device o ⟨x', y'⟩
      · rw [flooded_of_area h]
        exact if_pos (harea.mpr h)
      · rw [flooded_of_not_area h]
        exact if_neg fun h' => h (harea.mp h')

theorem floodFill_of_stop
    (h : c.space.device.contains (c.toScreen x y).x (c.toScreen x y).y = false ∨
      c.surface.get? (c.toScreen x y).x (c.toScreen x y).y = none ∨
      c.surface.get? (c.toScreen x y).x (c.toScreen x y).y = some c.brush.color) :
    c.floodFill x y = c := by
  rw [floodFill]
  generalize c.toScreen x y = o at h ⊢
  have hmeet := c.space.device.contains_intersect? c.surface.rect o.x o.y
  cases hdst : visibleRect? c.surface c.space with
  | none => rfl
  | some dst =>
    rw [visibleRect?] at hdst
    rw [hdst, Option.any_some] at hmeet
    cases hget : c.surface.get? o.x o.y with
    | none => rfl
    | some old =>
      refine if_pos ?_
      rcases h with hdevice | hnone | hcolor
      · rw [hmeet, hdevice]
        exact .inl rfl
      · rw [hget] at hnone
        cases hnone
      · rw [hget, Option.some.injEq] at hcolor
        exact .inr hcolor

section Solid

variable {c' : Canvas} {o : Point} (hkind : c.brush.kind = .solid)
  (hfill : Touches .set (c.flooded o old) c c')

include hkind in
theorem pixelAt_screenBrush (background : Pixel) (x y : Int) :
    c.screenBrush.pixelAt background x y = some c.brush.color := by
  rw [Brush.pixelAt, show c.screenBrush.kind = .solid from hkind]
  rfl

include hkind hfill in
/-- In the clip the area has the colour of the brush, as far as a pixel can hold it. -/
theorem get?_of_area (hclip : c.clip.contains x y = true)
    (harea : Area (fun x y => c.surface.get? x y == some old) c.space.device o ⟨x, y⟩) :
    c'.surface.get? x y = some (c.surface.format.kept c.brush.color) := by
  have hheld : c.surface.get? x y = some old := eq_of_beq harea.inside.2
  rw [hfill.get?, hheld, Option.map_some, if_pos hclip, Layer.on, flooded_of_area harea,
    pixelAt_screenBrush hkind]
  rfl

include hkind hfill in
/-- What has another value had it before. -/
theorem get?_of_ne {v : Pixel} (hv : c'.surface.get? x y = some v)
    (hne : c.surface.format.kept c.brush.color ≠ v) : c.surface.get? x y = some v := by
  by_cases hpainted : c.clip.contains x y = true ∧
      Area (fun x y => c.surface.get? x y == some old) c.space.device o ⟨x, y⟩
  · rw [get?_of_area hkind hfill hpainted.1 hpainted.2, Option.some.injEq] at hv
    exact absurd hv hne
  · rw [hfill.get?, Option.map_eq_some_iff] at hv
    obtain ⟨w, hw, hv⟩ := hv
    by_cases hclip : c.clip.contains x y = true
    · rw [if_pos hclip, Layer.on, flooded_of_not_area fun harea => hpainted ⟨hclip, harea⟩] at hv
      exact hw.trans (congrArg some hv)
    · rw [if_neg hclip] at hv
      exact hw.trans (congrArg some hv)

include hkind hfill in
/-- All that a second fill finds and may touch has the colour already. -/
theorem eq_kept_of_area {old' : Pixel} (hstart : c.surface.get? o.x o.y = some old)
    (hdevice : c'.space.device = c.space.device) (hclip : c.clip.contains x y = true)
    (harea : Area (fun x y => c'.surface.get? x y == some old') c'.space.device o ⟨x, y⟩) :
    old' = c.surface.format.kept c.brush.color := by
  by_contra hne
  have hheld : c'.surface.get? x y = some old' := eq_of_beq harea.inside.2
  have hstart' : c'.surface.get? o.x o.y = some old' := eq_of_beq harea.inside_start.2
  have hsame : old' = old := by
    have := get?_of_ne hkind hfill hstart' (Ne.symm hne)
    rwa [hstart, Option.some.injEq, eq_comm] at this
  -- so the area of the second fill lies in that of the first
  have harea' : Area (fun x y => c.surface.get? x y == some old) c.space.device o ⟨x, y⟩ := by
    refine harea.mono fun p hp => ⟨hdevice ▸ hp.1, beq_iff_eq.mpr ?_⟩
    rw [← hsame]
    exact get?_of_ne hkind hfill (eq_of_beq hp.2) (Ne.symm hne)
  rw [get?_of_area hkind hfill hclip harea', Option.some.injEq] at hheld
  exact hne hheld.symm

end Solid

theorem floodFill_floodFill (hclip : c.clip.Banded) (hkind : c.brush.kind = .solid) (hrop : c.rop = .set)
    (x y : Int) : (c.floodFill x y).floodFill x y = c.floodFill x y := by
  by_cases hstop : c.space.device.contains (c.toScreen x y).x (c.toScreen x y).y = false ∨
      c.surface.get? (c.toScreen x y).x (c.toScreen x y).y = none ∨
      c.surface.get? (c.toScreen x y).x (c.toScreen x y).y = some c.brush.color
  · rw [floodFill_of_stop hstop, floodFill_of_stop hstop]
  simp only [not_or, Bool.not_eq_false] at hstop
  obtain ⟨hdevice, hsome, hne⟩ := hstop
  obtain ⟨old, hold⟩ := Option.ne_none_iff_exists'.mp hsome
  rw [hold, Option.some.injEq] at hne
  have hfill := touches_floodFill hclip hdevice hold hne
  have hkept := hfill.kept
  rw [hrop] at hfill
  generalize c.floodFill x y = c' at hfill hkept ⊢
  have hspace : c'.space = c.space := by rw [hkept]
  have hbrush : c'.brush = c.brush := by rw [hkept]
  have hscreen : c'.toScreen x y = c.toScreen x y := by rw [toScreen, hspace, toScreen]
  by_cases hstop : c'.surface.get? (c.toScreen x y).x (c.toScreen x y).y = none ∨
      c'.surface.get? (c.toScreen x y).x (c.toScreen x y).y = some c.brush.color
  · refine floodFill_of_stop (.inr ?_)
    rwa [hscreen, hbrush]
  simp only [not_or] at hstop
  obtain ⟨hsome', hne'⟩ := hstop
  obtain ⟨old', hold'⟩ := Option.ne_none_iff_exists'.mp hsome'
  rw [hold', Option.some.injEq] at hne'
  have hfill' : Touches c'.rop (c'.flooded (c'.toScreen x y) old') c' (c'.floodFill x y) :=
    touches_floodFill (hfill.clip ▸ hclip) (by rwa [hscreen, hspace]) (by rwa [hscreen])
      (by rwa [hbrush])
  have hsurface : (c'.floodFill x y).surface = c'.surface := by
    refine Surface.eq_of_get? hfill'.shape fun x' y' => ?_
    rw [hfill'.get?, hscreen]
    cases hv : c'.surface.get? x' y' with
    | none => rfl
    | some v =>
      rw [Option.map_some]
      split
      next hin =>
        by_cases harea : Area (fun x y => c'.surface.get? x y == some old') c'.space.device
            (c.toScreen x y) ⟨x', y'⟩
        · have hcolor := eq_kept_of_area hkind hfill hold (by rw [hspace]) (hfill.clip ▸ hin) harea
          have hheld : c'.surface.get? x' y' = some old' := eq_of_beq harea.inside.2
          rw [hv, Option.some.injEq] at hheld
          rw [Layer.on, flooded_of_area harea, pixelAt_screenBrush (hbrush ▸ hkind), hheld, hcolor,
            hbrush, hfill.shape.format, show c'.rop = .set by rw [hkept, hrop]]
          rfl
        · rw [Layer.on, flooded_of_not_area harea]
      next => rfl
  rw [hfill'.kept, hsurface]

end Rasterizer.Canvas
