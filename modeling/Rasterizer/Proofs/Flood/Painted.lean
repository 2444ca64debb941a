import Rasterizer.Proofs.Flood.Fill
import Rasterizer.Proofs.Painter.Masked

/-! # Filling an area with a brush

A fill looks for its area on the surface as it was, so it is one layer: what the brush has for
the pixels of the area (`draws_fill`). The area does not depend on the clip. -/

namespace Rasterizer.Canvas

open Painter Flood

variable {F : Frame} {p : Painter}

/-- The target of a fill with a brush, on the painters of one frame. It leaves runs without pixels
alone, for which no fill asks. -/
def framedTarget (hF : F.Sound) (old : Pixel) (brush : Brush) (background : Pixel) :
    FloodTarget {p : Painter // p.frame = F} where
  isCandidate p x y := p.1.surface.get? x y == some old
  fill p r :=
    if r.x1 ≤ r.x2 then
      ⟨p.1.brushRow r.x1 r.x2 r.y brush background,
        (draws_brushRow (p.2.symm ▸ hF) r.x1 r.x2 r.y brush background).frame.trans p.2⟩
    else p

variable (hF : F.Sound) (old : Pixel) (brush : Brush) (background : Pixel)

theorem framedTarget_local : (framedTarget hF old brush background).Local := by
  intro s r q hq
  simp only [framedTarget]
  split
  next hne =>
    have hdraws := draws_brushRow (s.2.symm ▸ hF) r.x1 r.x2 r.y brush background
    have hout : ∀ v, Layer.row r.y (stretch r.x1 r.x2 fun x => brush.pixelAt background x r.y) q.x q.y v
        = none := by
      intro v
      rw [Layer.row, stretch, Int.min_eq_left hne, Int.max_eq_right hne]
      by_cases hy : q.y = r.y
      · rw [if_pos hy, if_neg fun hx => hq ⟨hy, hx⟩]
      · rw [if_neg hy]
    rw [hdraws.get?]
    simp only [Layer.on, hout, ite_self]
    exact congrArg (· == some old) (congrFun Option.map_id _)
  next => rfl

theorem simulates_framedTarget :
    Simulates (framedTarget hF old brush background) (floodTarget old brush background) Subtype.val :=
  ⟨fun _ _ _ => rfl, fun s r hr => by simp only [framedTarget, hr, if_true, floodTarget]⟩

theorem val_foldl_framedTarget (s : {p : Painter // p.frame = F}) {runs : List Run}
    (hruns : ∀ r ∈ runs, r.x1 ≤ r.x2) :
    (runs.foldl (framedTarget hF old brush background).fill s).1 =
      runs.foldl (fun p r => p.brushRow r.x1 r.x2 r.y brush background) s.1 := by
  induction runs generalizing s with
  | nil => rfl
  | cons r runs ih =>
    obtain ⟨hr, hruns⟩ := List.forall_mem_cons.mp hruns
    rw [List.foldl_cons, List.foldl_cons, ih _ hruns]
    simp only [framedTarget, hr, if_true]

open Classical in
theorem draws_fill (hp : p.frame.Sound) (dst : Rect) (x y : Int) :
    Draws (fun x' y' _ =>
        if Area (fun x y => p.surface.get? x y == some old) dst.normalized ⟨x, y⟩ ⟨x', y'⟩ then
          brush.pixelAt background x' y'
        else none) p
      (fill (floodTarget old brush background) p dst x y) := by
  have hlocal := framedTarget_local hp old brush background
  have hmem := mem_calls_iff hlocal ⟨p, rfl⟩ dst x y
  have hne : ∀ r ∈ calls (framedTarget hp old brush background) ⟨p, rfl⟩ dst x y, r.x1 ≤ r.x2 :=
    fun r hr => ((hmem r).mp hr).nonempty
  have hfill : fill (floodTarget old brush background) p dst x y =
      (calls (framedTarget hp old brush background) ⟨p, rfl⟩ dst x y).foldl
        (fun p r => p.brushRow r.x1 r.x2 r.y brush background) p := by
    rw [← val_foldl_framedTarget hp old brush background ⟨p, rfl⟩ hne, ← fill_eq_foldl_calls]
    exact fill_map (simulates_framedTarget hp old brush background) ⟨p, rfl⟩ dst x y
  have happart : (calls (framedTarget hp old brush background) ⟨p, rfl⟩ dst x y).Pairwise Run.Apart := by
    refine (nodup_calls hlocal ⟨p, rfl⟩ dst x y).imp_of_mem fun {r s} hr hs hrs q hq hq' => hrs ?_
    exact ((hmem r).mp hr).eq_of_covers ((hmem s).mp hs) hq hq'
  rw [hfill]
  exact draws_runs (fun q hq _ r _ => draws_brushRow (hq ▸ hp) r.x1 r.x2 r.y brush background) hne happart
    fun x' y' => area_iff_covered hlocal ⟨p, rfl⟩ dst x y ⟨x', y'⟩

end Rasterizer.Canvas
