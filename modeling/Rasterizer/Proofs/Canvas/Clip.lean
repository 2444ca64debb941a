import Rasterizer.Canvas.Basic
import Rasterizer.Proofs.Painter.Visible

/-! # The clip region of a canvas

Whatever region is set, the clip is banded and lies in the device rectangle and on the surface. -/

namespace Rasterizer

open Region (anyContains)

theorem Rect.normalized_of_nonempty {rc : Rect} (h : rc.isEmpty = false) : rc.normalized = rc := by
  rw [isEmpty_eq_false_iff] at h
  cases rc
  simp only [normalized, mk.injEq] at h ⊢
  omega

namespace Canvas

theorem banded_wholeClip (surface : Surface) (space : CoordSpace) : (wholeClip surface space).Banded := by
  rw [wholeClip]
  cases visibleRect? surface space with
  | none => exact Region.built_empty.banded
  | some rc => exact (Region.built_ofRect rc).banded

theorem contains_wholeClip (surface : Surface) (space : CoordSpace) (x y : Int) :
    (wholeClip surface space).contains x y = (space.device.contains x y && surface.rect.contains x y) := by
  rw [(banded_wholeClip surface space).contains_eq, ← Rect.contains_intersect?, wholeClip, visibleRect?]
  cases hrc : space.device.intersect? surface.rect with
  | none => rfl
  | some rc =>
    rw [Option.any_some, Region.anyContains_ofRect,
      Rect.normalized_of_nonempty (Rect.isEmpty_of_intersect? hrc)]

section SetClip

variable (c : Canvas) (region : Region)

@[simp] theorem setClip_surface : (c.setClip region).surface = c.surface := rfl

@[simp] theorem setClip_space : (c.setClip region).space = c.space := rfl

@[simp] theorem setClip_text : (c.setClip region).text = c.text := rfl

@[simp] theorem setClip_scratch : (c.setClip region).scratch = c.scratch := rfl

@[simp] theorem setClip_toScreen (x y : Int) : (c.setClip region).toScreen x y = c.toScreen x y := rfl

end SetClip

theorem banded_setClip (c : Canvas) (region : Region) : (c.setClip region).clip.Banded := by
  simp only [setClip]
  cases visibleRect? c.surface c.space with
  | none => exact Region.built_empty.banded
  | some rc => exact (Region.built_combine ..).banded

theorem contains_setClip (c : Canvas) (region : Region) (x y : Int) :
    (c.setClip region).clip.contains x y =
      (anyContains (region.shift (c.space.deviceToScreen ⟨0, 0⟩).x (c.space.deviceToScreen ⟨0, 0⟩).y).rects
        x y && (wholeClip c.surface c.space).contains x y) := by
  rw [(banded_setClip c region).contains_eq, contains_wholeClip, ← Rect.contains_intersect?]
  simp only [setClip, visibleRect?]
  cases hrc : c.space.device.intersect? c.surface.rect with
  | none => simp [Region.empty, Region.anyContains_nil]
  | some rc =>
    change anyContains (Region.combine .intersect _ _).rects x y = _
    rw [Region.anyContains_combineRect,
      Rect.normalized_of_nonempty (Rect.isEmpty_of_intersect? hrc)]
    rfl

theorem contains_setClip_mono (c : Canvas) {region region' : Region}
    (h : ∀ x y, anyContains region.rects x y = true → anyContains region'.rects x y = true) {x y : Int}
    (hxy : (c.setClip region).clip.contains x y = true) : (c.setClip region').clip.contains x y = true := by
  rw [contains_setClip, Bool.and_eq_true, Region.anyContains_shift] at hxy ⊢
  exact ⟨h _ _ hxy.1, hxy.2⟩

theorem contains_wholeClip_of_setClip {c : Canvas} {region : Region} {x y : Int}
    (h : (c.setClip region).clip.contains x y = true) : c.resetClip.clip.contains x y = true := by
  rw [contains_setClip, Bool.and_eq_true] at h
  exact h.2

end Canvas

end Rasterizer
