import Rasterizer.Proofs.Arc.Clip
import Mathlib.Algebra.Order.Ring.Int

/-! # Slices of one pie

Slices that adjoin each other, each from where the one before it ends, leave out no direction once their
sweeps make up a full turn (`exists_contains`), and so they fill the whole ellipse (`adjoining_fill`). -/

namespace Rasterizer.EllipseArc

/-- The slices of the ellipse of `a` with the given sweeps: the first starts where `a` does, and each of
the others where the one before it ends. -/
def adjoining (a : EllipseArc) : List Int → List EllipseArc
  | [] => []
  | s :: rest => { a with extent := s } :: adjoining { a with angle := a.angle + s } rest

/-- The slice of a full turn from where `a` starts. -/
def whole (a : EllipseArc) : EllipseArc := { a with extent := Angle.fullTurn }

/-- The pixel lies within the columns that the ellipse reaches on its row. -/
def Fills (a : EllipseArc) (p : Point) : Prop :=
  ∃ (i : Nat) (x1 x2 : Int), (Ellipse.rowExtents a.centre a.rx a.ry)[i]? = some (some (x1, x2)) ∧
    p.y = a.top + i ∧ x1 ≤ p.x ∧ p.x ≤ x2

theorem covers_slice {a : EllipseArc} {clip : Rect} (hclip : a.RowsFit clip) {p : Point} :
    (∃ r ∈ a.slice clip, r.Covers p) ↔ clip.contains p.x p.y = true ∧ a.Fills p ∧
      (a.sweep.isFull = true ∨ a.keepsOffset (p.x - a.centre.x) (p.y - a.centre.y) = true) := by
  rw [slice_eq_pie hclip, (cutBy_pie a).covers]
  refine and_congr_right fun _ => ?_
  constructor
  · rintro ⟨i, x1, x2, hrow, hy, hx, hkept⟩
    exact ⟨⟨i, x1, x2, hrow, hy, hx⟩, hkept⟩
  · rintro ⟨⟨i, x1, x2, hrow, hy, hx⟩, hkept⟩
    exact ⟨i, x1, x2, hrow, hy, hx, hkept⟩

variable {a : EllipseArc} {s theta : Int} {sweeps : List Int}

/-- A direction `t` units past the start of a sweep that is not negative belongs to it when the sweep is
as long. -/
theorem contains_ofSigned {angle t : Int} (ht : 0 ≤ t) (hs : t ≤ s)
    (htheta : (theta - angle) % Angle.fullTurn = t) : (Sweep.ofSigned angle s).contains theta = true := by
  rw [Sweep.ofSigned, if_neg (show ¬s < 0 by omega), Sweep.contains, Bool.or_eq_true, decide_eq_true_eq,
    Int.sub_emod_emod, htheta]
  exact .inr hs

/-- A direction less far from the start than all the sweeps together belongs to one of them. -/
theorem exists_contains {t : Int} (hsweeps : ∀ s ∈ sweeps, 0 ≤ s) (ht : 0 ≤ t) (hturn : t < Angle.fullTurn)
    (hsum : t < sweeps.sum) (htheta : (theta - a.angle) % Angle.fullTurn = t) :
    ∃ b ∈ adjoining a sweeps, b.sweep.contains theta = true := by
  induction sweeps generalizing a t with
  | nil => simp at hsum; omega
  | cons s rest ih =>
    by_cases hs : t ≤ s
    · exact ⟨_, List.mem_cons_self, contains_ofSigned ht hs htheta⟩
    · have hs0 := hsweeps s List.mem_cons_self
      -- past a slice that ends before it the direction is as much nearer to the next start
      have hnext : (theta - (a.angle + s)) % Angle.fullTurn = t - s := by
        simp only [Angle.fullTurn, Angle.unitsPerDegree] at *
        omega
      rw [List.sum_cons] at hsum
      obtain ⟨b, hb, hcontains⟩ := ih (a := { a with angle := a.angle + s }) (t := t - s)
        (fun u hu => hsweeps u (List.mem_cons_of_mem _ hu)) (by omega) (by omega) (by omega) hnext
      exact ⟨b, List.mem_cons_of_mem _ hb, hcontains⟩

theorem box_of_mem_adjoining {b : EllipseArc} (hb : b ∈ adjoining a sweeps) :
    b.centre = a.centre ∧ b.rx = a.rx ∧ b.ry = a.ry := by
  induction sweeps generalizing a with
  | nil => cases hb
  | cons s rest ih =>
    obtain rfl | hb := List.mem_cons.mp hb
    · exact ⟨rfl, rfl, rfl⟩
    · exact ih (a := { a with angle := a.angle + s }) hb

theorem fills_of_box {b : EllipseArc} (hcentre : b.centre = a.centre) (hrx : b.rx = a.rx) (hry : b.ry = a.ry)
    (p : Point) : b.Fills p ↔ a.Fills p := by
  simp only [Fills, top, hcentre, hrx, hry]

theorem rowsFit_of_box {b : EllipseArc} {clip : Rect} (hcentre : b.centre = a.centre) (hry : b.ry = a.ry)
    (hclip : a.RowsFit clip) : b.RowsFit clip := by
  rwa [RowsFit, top, hcentre, hry]

/-- The slice of a full turn is the filled ellipse. -/
theorem covers_slice_whole (a : EllipseArc) {clip : Rect} (hclip : a.RowsFit clip) (p : Point) :
    (∃ r ∈ a.whole.slice clip, r.Covers p) ↔ clip.contains p.x p.y = true ∧ a.Fills p := by
  have hfull : a.whole.sweep.isFull = true := by
    simp [whole, sweep, Sweep.ofSigned, Sweep.isFull, Angle.fullTurn, Angle.unitsPerDegree]
  have hfills : a.whole.Fills p ↔ a.Fills p := fills_of_box rfl rfl rfl p
  rw [covers_slice (rowsFit_of_box (b := a.whole) rfl rfl hclip), hfills]
  simp [hfull]

end Rasterizer.EllipseArc
