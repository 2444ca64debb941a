import Rasterizer.Proofs.Canvas.Figures

/-! # Thin lines

A dot, a line along a row or a column and any other line are drawn by operations of their own; each of
them draws the pixels of one walk (`Painter.draws_segment`). The walk begins at the end that comes
first, so a line and its reverse are the same line (`Canvas.thinLine_comm`). -/

namespace Rasterizer

namespace Painter

variable {p : Painter}

/-- Whichever operation draws it, a line with all its dots is the walk between its ends. -/
theorem draws_segment (hp : p.frame.Sound) (hstep : p.step = 1) {a b : Point} (hab : LineWalk.Fits a b) :
    Draws (fun x y _ => if (⟨x, y⟩ : Point) ∈ (LineWalk.between a b).points then some p.ink else none) p
      (p.segment a b) := by
  rw [segment]
  by_cases hdot : a = b
  · subst hdot
    rw [if_pos rfl]
    refine (draws_pixel hp a.x a.y).congr fun x y _ _ => if_congr ?_ rfl rfl
    rw [LineWalk.mem_points_row rfl]
    dsimp only
    omega
  rw [if_neg hdot]
  by_cases hrow : a.y = b.y
  · rw [if_pos hrow]
    refine (draws_row hp a.x b.x a.y).congr fun x y _ _ => ?_
    simp only [Layer.row, stretch, hstep, dotted_one, ← ite_and, LineWalk.mem_points_row hrow]
  rw [if_neg hrow]
  by_cases hcolumn : a.x = b.x
  · rw [if_pos hcolumn]
    refine (draws_column hp a.y b.y a.x).congr fun x y _ _ => ?_
    simp only [Layer.column, stretch, hstep, dotted_one, ← ite_and,
      LineWalk.mem_points_column hcolumn hrow]
  · rw [if_neg hcolumn, line32_eq (hab.narrow hcolumn hrow)]
    exact draws_line hp a b

end Painter

namespace Canvas

variable {c : Canvas}

/-! ## The walk of a line -/

/-- The walk from the point that comes first, by column and then by row, to the other. -/
def lineWalk (a b : Point) : LineWalk := if pointBefore a b then .between a b else .between b a

theorem pointBefore_iff {a b : Point} : pointBefore a b = true ↔ a.x < b.x ∨ (a.x = b.x ∧ a.y ≤ b.y) := by
  simp [pointBefore]

theorem pointBefore_total (a b : Point) : pointBefore a b = true ∨ pointBefore b a = true := by
  rw [pointBefore_iff, pointBefore_iff]
  omega

/-- Whatever is done from the end that comes first is the same for a line and its reverse. -/
theorem ite_pointBefore_comm {α : Sort*} (f : Point → Point → α) (a b : Point) :
    (if pointBefore a b then f a b else f b a) = if pointBefore b a then f b a else f a b := by
  by_cases h : pointBefore a b = true
  · by_cases h' : pointBefore b a = true
    · rw [pointBefore_iff] at h h'
      have hab : a = b := congrArg₂ Point.mk (show a.x = b.x by omega) (show a.y = b.y by omega)
      rw [hab]
    · rw [if_pos h, if_neg h']
  · rw [if_neg h, if_pos ((pointBefore_total a b).resolve_left h)]

theorem lineWalk_comm (a b : Point) : lineWalk a b = lineWalk b a := ite_pointBefore_comm _ a b

theorem thinLine_comm (c : Canvas) (a b : Point) : c.thinLine a b = c.thinLine b a := by
  rw [thinLine, ite_pointBefore_comm Prod.mk a b, thinLine]

/-- The numbers of a line between screen points, and the box around it with one more pixel on each side, fit
in 32 bits. -/
structure ThinFits (a b : Point) : Prop where
  walk : LineWalk.Fits a b
  box : ((⟨a.x, a.y, b.x, b.y⟩ : Rect).normalized.inflate 1 1).Fits

instance (a b : Point) : Decidable (ThinFits a b) :=
  decidable_of_iff (LineWalk.Fits a b ∧ ((⟨a.x, a.y, b.x, b.y⟩ : Rect).normalized.inflate 1 1).Fits)
    ⟨fun h => ⟨h.1, h.2⟩, fun h => ⟨h.walk, h.box⟩⟩

theorem ThinFits.symm {a b : Point} (h : ThinFits a b) : ThinFits b a where
  walk := h.walk.symm
  box := by
    have hbox := h.box
    simp only [Rect.normalized] at hbox ⊢
    rwa [Int.min_comm b.x, Int.min_comm b.y, Int.max_comm b.x, Int.max_comm b.y]

/-- A line touches each pixel of its walk once. -/
theorem touches_thinLine (hclip : c.clip.Banded) {a b : Point} (hfits : ThinFits a b) :
    Touches c.rop (c.inkedPoints (lineWalk a b).points).value c (c.thinLine a b) := by
  wlog h : pointBefore a b = true generalizing a b
  · rw [lineWalk_comm, thinLine_comm]
    exact this hfits.symm ((pointBefore_total a b).resolve_left h)
  simp only [lineWalk, thinLine, h, if_true, hfits.box.wrap]
  refine touches_paint hclip _ (fun x y hxy => ?_) fun p _ hp htool => ?_
  · have hmem : (⟨x, y⟩ : Point) ∈ (LineWalk.between a b).points := by
      by_contra hnot
      exact hxy (if_neg hnot)
    obtain ⟨k, ⟨h0, hk⟩, hplace⟩ := LineWalk.mem_points.mp hmem
    have hbox := LineWalk.place_in_box h0 hk
    refine Rect.contains_normalized (Rect.contains_iff.mpr ?_)
    simp only [hplace, Rect.inflate, Rect.normalized] at hbox ⊢
    omega
  · have hstep : (p.withInk c.penColor).step = 1 := congrArg Painter.Tool.step htool
    obtain ⟨ds, hds, hs⟩ := (Painter.draws_segment (p := p.withInk c.penColor) hp hstep hfits.walk).plots
    refine ⟨ds, ⟨hds.nodup, hds.mem_iff⟩, hs.trans ?_⟩
    exact Painter.surface_plotAll_congr (p := p) (q := p.withInk c.penColor) rfl rfl ds

/-! ## Lines between logical points -/

theorem line_eq (c : Canvas) (x1 y1 x2 y2 : Int) :
    c.line x1 y1 x2 y2 = (c.moveTo x2 y2).thinLine (c.toScreen x1 y1) (c.toScreen x2 y2) := rfl

/-- Where the pen stands does not matter to a line between screen points. -/
theorem surface_thinLine_moveTo (c : Canvas) (x y : Int) (a b : Point) :
    ((c.moveTo x y).thinLine a b).surface = (c.thinLine a b).surface := by
  simp only [thinLine, paint, moveTo]
  split <;> rfl

end Canvas

end Rasterizer
