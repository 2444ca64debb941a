import Rasterizer.Proofs.Canvas.Commands
import Rasterizer.Proofs.Canvas.Touched
import Rasterizer.Proofs.CoordSpace

/-! # Boxes side by side

A box is filled between the images of its edges. Two boxes with a common edge are cut at its image, so on the
screen they have no pixel in common and leave none out between them, and filling both is filling the box that
they make up (`Canvas.fillBox_tiles`). -/

namespace Rasterizer

/-! ## Rectangles in two parts -/

/-- The rectangle is made up of two others that have no pixel in common. -/
def Rect.MadeOf (rc a b : Rect) : Prop :=
  ∀ x y, (rc.contains x y = true ↔ a.contains x y = true ∨ b.contains x y = true) ∧
    ¬(a.contains x y = true ∧ b.contains x y = true)

theorem Rect.normalized_normalized (rc : Rect) : rc.normalized.normalized = rc.normalized := by
  simp only [normalized, mk.injEq]
  omega

theorem Rect.intersect?_of_isEmpty {a : Rect} (h : a.isEmpty = true) (b : Rect) : a.intersect? b = none := by
  refine if_pos ?_
  simp only [isEmpty, Bool.or_eq_true, decide_eq_true_eq] at h ⊢
  dsimp only [meet]
  omega

namespace CoordSpace

variable {s : CoordSpace} {l m r t b : Int}

theorem rectToScreen_eq (s : CoordSpace) (rc : Rect) :
    s.rectToScreen rc = (⟨s.onAxis Point.x Rect.left rc.left, s.onAxis Point.y Rect.top rc.top,
      s.onAxis Point.x Rect.left rc.right, s.onAxis Point.y Rect.top rc.bottom⟩ : Rect).normalized := by
  simp only [rectToScreen, logicalToScreen_eq]

theorem madeOf_columns (hl : s.FitsAxis Point.x l) (hr : s.FitsAxis Point.x r) (hlm : l ≤ m) (hmr : m ≤ r) (t b : Int) :
    (s.rectToScreen ⟨l, t, r, b⟩).MadeOf (s.rectToScreen ⟨l, t, m, b⟩) (s.rectToScreen ⟨m, t, r, b⟩) := by
  have hbetween := onAxis_between Rect.left hl hr hlm hmr
  intro x y
  simp only [rectToScreen_eq, Rect.contains_iff, Rect.normalized]
  omega

theorem madeOf_rows (ht : s.FitsAxis Point.y t) (hb : s.FitsAxis Point.y b) (htm : t ≤ m) (hmb : m ≤ b) (l r : Int) :
    (s.rectToScreen ⟨l, t, r, b⟩).MadeOf (s.rectToScreen ⟨l, t, r, m⟩) (s.rectToScreen ⟨l, m, r, b⟩) := by
  have hbetween := onAxis_between Rect.top ht hb htm hmb
  intro x y
  simp only [rectToScreen_eq, Rect.contains_iff, Rect.normalized]
  omega

end CoordSpace

/-! ## One box -/

namespace Painter

variable {p : Painter}

/-- The plots of a box that has columns. A pattern is painted row by row and a colour all at once. -/
theorem lists_brushBox (hp : p.frame.Sound) {rc : Rect} (hrc : rc.left < rc.right) (hrows : rc.top ≤ rc.bottom)
    (brush : Brush) (background : Pixel) :
    ∃ ds, Lists (fun x y _ => if rc.contains x y then brush.pixelAt background x y else none) p ds ∧
      (p.brushBox rc brush background).surface = (p.plotAll ds).surface := by
  rw [brushBox]
  split
  next hsolid =>
    have hnormal : rc.normalized = rc := by
      cases rc
      simp only [Rect.normalized, Rect.mk.injEq] at hrc hrows ⊢
      omega
    have hbox := draws_box (p := p.withInk brush.color) hp rc
    obtain ⟨ds, hds, hs⟩ := (hbox.congr (M := fun x y _ =>
      if rc.contains x y then brush.pixelAt background x y else none) fun x y v _ => by
        simp only [Layer.box, hnormal, Brush.pixelAt, hsolid]
        rfl).plots
    refine ⟨ds, ⟨hds.nodup, hds.mem_iff⟩, hs.trans ?_⟩
    exact surface_plotAll_congr (p := p) (q := p.withInk brush.color) rfl rfl ds
  next =>
    refine ((draws_brushRows hp rc brush background).congr fun x y v _ => ?_).plots
    simp only [stretch, ← ite_and, Rect.contains_iff]
    exact if_congr (by omega) rfl rfl

end Painter

namespace Canvas

variable {c c' c'' : Canvas} {x y w h : Int}

/-- The brush's values for the pixels of a rectangle of the screen. -/
def boxed (c : Canvas) (rc : Rect) : Values := fun x y =>
  if rc.contains x y then c.screenBrush.pixelAt c.text.background x y else none

/-- A box whose image has no columns or no rows leaves everything as it was. -/
theorem paint_of_isEmpty {rc : Rect} (hrc : rc.normalized.isEmpty = true) (rop : RasterOp)
    (draw : Painter → Painter) : c.paint rc rop draw = c := by
  rw [paint, Painter.open?_eq, Rect.intersect?_of_isEmpty hrc]
  rfl

theorem touches_fillBox (hclip : c.clip.Banded) (hw : 0 < w) (hh : 0 < h) :
    Touches c.rop (c.boxed (c.space.rectToScreen ⟨x, y, x + w, y + h⟩)) c (c.fillBox x y w h) := by
  have hfill : c.fillBox x y w h = c.paint (c.space.rectToScreen ⟨x, y, x + w, y + h⟩) c.rop fun p =>
      p.brushBox (c.space.rectToScreen ⟨x, y, x + w, y + h⟩) c.screenBrush c.text.background :=
    if_neg (by omega)
  have hnormal := Rect.normalized_normalized ⟨(c.toScreen x y).x, (c.toScreen x y).y,
    (c.toScreen (x + w) (y + h)).x, (c.toScreen (x + w) (y + h)).y⟩
  change (c.space.rectToScreen ⟨x, y, x + w, y + h⟩).normalized = c.space.rectToScreen ⟨x, y, x + w, y + h⟩ at hnormal
  rw [hfill]
  generalize c.space.rectToScreen ⟨x, y, x + w, y + h⟩ = rc at hnormal ⊢
  cases hempty : rc.isEmpty with
  | true =>
    rw [paint_of_isEmpty (hnormal.symm ▸ hempty)]
    refine touches_none fun x' y' => if_neg fun hin => ?_
    rw [Rect.contains_iff] at hin
    simp only [Rect.isEmpty, Bool.or_eq_true, decide_eq_true_eq] at hempty
    omega
  | false =>
    rw [Rect.isEmpty_eq_false_iff] at hempty
    refine touches_paint hclip rc (fun x' y' hxy => ?_) fun p _ hp _ =>
      Painter.lists_brushBox hp (by omega) (by omega) _ _
    rw [hnormal]
    by_contra hout
    exact hxy (if_neg hout)

/-- A figure leaves one canvas only. -/
theorem Touches.unique {rop : RasterOp} {value : Values} (h : Touches rop value c c') (h' : Touches rop value c c'') :
    c' = c'' := by
  have hsurface : c'.surface = c''.surface :=
    Surface.eq_of_get? (h'.shape.symm.trans h.shape) fun x y => by rw [h.get?, h'.get?]
  rw [h.kept, h'.kept, hsurface]

/-- Two boxes that make up a third one on the screen fill it. -/
theorem fillBox_fillBox (hclip : c.clip.Banded) {x₁ y₁ w₁ h₁ x₂ y₂ w₂ h₂ : Int} (hw : 0 < w) (hh : 0 < h)
    (hw₁ : 0 < w₁) (hh₁ : 0 < h₁) (hw₂ : 0 < w₂) (hh₂ : 0 < h₂)
    (hmade : (c.space.rectToScreen ⟨x, y, x + w, y + h⟩).MadeOf
      (c.space.rectToScreen ⟨x₁, y₁, x₁ + w₁, y₁ + h₁⟩) (c.space.rectToScreen ⟨x₂, y₂, x₂ + w₂, y₂ + h₂⟩)) :
    (c.fillBox x₁ y₁ w₁ h₁).fillBox x₂ y₂ w₂ h₂ = c.fillBox x y w h := by
  have hfirst := touches_fillBox (x := x₁) (y := y₁) hclip hw₁ hh₁
  have hkept := hfirst.kept
  generalize c.fillBox x₁ y₁ w₁ h₁ = c₁ at hfirst hkept ⊢
  have hsecond := touches_fillBox (x := x₂) (y := y₂) (hfirst.clip ▸ hclip) hw₂ hh₂
  have hspace : c₁.space = c.space := by rw [hkept]
  have hrop : c₁.rop = c.rop := by rw [hkept]
  have hboxed : c₁.boxed = c.boxed := by rw [hkept]; rfl
  rw [hspace, hrop, hboxed] at hsecond
  have hboth := hfirst.trans hsecond fun x' y' hxy => by
    by_cases hin : (c.space.rectToScreen ⟨x₁, y₁, x₁ + w₁, y₁ + h₁⟩).contains x' y' = true
    · exact if_neg fun hin' => (hmade x' y').2 ⟨hin, hin'⟩
    · exact absurd (if_neg hin) hxy
  refine (hboth.congr fun x' y' _ _ => ?_).unique (touches_fillBox hclip hw hh)
  obtain ⟨hmade, hapart⟩ := hmade x' y'
  simp only [boxed]
  by_cases hin : (c.space.rectToScreen ⟨x₁, y₁, x₁ + w₁, y₁ + h₁⟩).contains x' y' = true
  · rw [if_pos hin, if_neg fun hin' => hapart ⟨hin, hin'⟩, if_pos (hmade.mpr (.inl hin)), Option.or_none]
  · rw [if_neg hin, Option.none_or]
    exact if_congr (hmade.trans (or_iff_right hin)).symm rfl rfl

end Canvas

end Rasterizer
