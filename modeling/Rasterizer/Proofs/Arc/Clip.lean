import Rasterizer.Arc.Ellipse
import Mathlib.Tactic.Tauto

/-! # Arcs inside a rectangle

The outline, the pie slice and the ring of an arc look at the pixels of a clip rectangle only.
Each of them is cut out of one set of pixels that has nothing to do with the rectangle
(`cutBy_outline`, `cutBy_pie`, `cutBy_ring`). -/

namespace Rasterizer

/-- The runs for a rectangle cover the pixels of one set that lie in it. -/
structure CutBy (runs : Rect → List Run) (S : Point → Prop) : Prop where
  nonempty : ∀ rc, ∀ r ∈ runs rc, r.x1 ≤ r.x2
  covers : ∀ rc p, (∃ r ∈ runs rc, r.Covers p) ↔ rc.contains p.x p.y = true ∧ S p

theorem cutBy_flatMap {α : Type} {runs : α → Rect → List Run} {S : α → Point → Prop}
    (h : ∀ a, CutBy (runs a) (S a)) (as : List α) :
    CutBy (fun rc => as.flatMap fun a => runs a rc) fun p => ∃ a ∈ as, S a p where
  nonempty rc r hr := by
    obtain ⟨a, -, hr⟩ := List.mem_flatMap.mp hr
    exact (h a).nonempty rc r hr
  covers rc p := by
    simp only [List.mem_flatMap]
    constructor
    · rintro ⟨r, ⟨a, ha, hr⟩, hp⟩
      obtain ⟨hrc, hS⟩ := ((h a).covers rc p).mp ⟨r, hr, hp⟩
      exact ⟨hrc, a, ha, hS⟩
    · rintro ⟨hrc, a, ha, hS⟩
      obtain ⟨r, hr, hp⟩ := ((h a).covers rc p).mpr ⟨hrc, hS⟩
      exact ⟨r, ⟨a, ha, hr⟩, hp⟩

/-! ## Runs of kept pixels -/

variable {keep : Int → Bool} {x1 x2 y : Int} {p : Point}

theorem nonempty_keptRuns {n : Nat} {x : Int} {opened : Option Int} (hopened : ∀ s ∈ opened, s < x) :
    ∀ r ∈ keptRuns keep y n x opened, r.x1 ≤ r.x2 := by
  induction n generalizing x opened with
  | zero =>
    cases opened with
    | none => simp [keptRuns]
    | some s =>
      have := hopened s rfl
      simp [keptRuns]
      omega
  | succ n ih =>
    have hnone : ∀ r ∈ keptRuns keep y n (x + 1) none, r.x1 ≤ r.x2 := ih (by simp)
    cases hkeep : keep x with
    | true =>
      cases opened with
      | none => simpa only [keptRuns, hkeep] using ih (by rintro s ⟨⟩; omega)
      | some s =>
        have := hopened s rfl
        simpa only [keptRuns, hkeep] using ih (by rintro s ⟨⟩; omega)
    | false =>
      cases opened with
      | none => simpa only [keptRuns, hkeep] using hnone
      | some s =>
        have := hopened s rfl
        simp only [keptRuns, hkeep]
        exact List.forall_mem_cons.mpr ⟨by dsimp only; omega, hnone⟩

theorem covers_keptRuns {n : Nat} {x : Int} {opened : Option Int} (hopened : ∀ s ∈ opened, s < x) :
    (∃ r ∈ keptRuns keep y n x opened, r.Covers p) ↔ p.y = y ∧
      ((∃ s ∈ opened, s ≤ p.x ∧ p.x < x) ∨ (x ≤ p.x ∧ p.x < x + n ∧ keep p.x = true)) := by
  induction n generalizing x opened with
  | zero =>
    cases opened with
    | none => simp [keptRuns]; omega
    | some s => simp [keptRuns, Run.Covers]; omega
  | succ n ih =>
    -- the pixel at `x` is dealt with, and those behind it are the business of the rest
    have hhere : x = p.x → keep p.x = keep x := fun h => h ▸ rfl
    cases hkeep : keep x with
    | true =>
      rw [hkeep] at hhere
      cases opened with
      | none =>
        simp only [keptRuns, hkeep]
        rw [ih (by rintro s ⟨⟩; omega)]
        by_cases hk : keep p.x = true <;> simp [hk] at hhere ⊢ <;> omega
      | some s =>
        have := hopened s rfl
        simp only [keptRuns, hkeep]
        rw [ih (by rintro s ⟨⟩; omega)]
        by_cases hk : keep p.x = true <;> simp [hk] at hhere ⊢ <;> omega
    | false =>
      rw [hkeep] at hhere
      have hrest : (∃ r ∈ keptRuns keep y n (x + 1) none, r.Covers p) ↔
          p.y = y ∧ x ≤ p.x ∧ p.x < x + (n + 1 : Nat) ∧ keep p.x = true := by
        rw [ih (by simp)]
        by_cases hk : keep p.x = true
        · simp [hk] at hhere ⊢
          omega
        · simp [hk]
      cases opened with
      | none => simpa [keptRuns, hkeep] using hrest
      | some s =>
        have := hopened s rfl
        simp only [keptRuns, hkeep, List.mem_cons, exists_eq_or_imp, hrest]
        rw [and_or_left]
        refine or_congr_left ?_
        simp only [Run.Covers, Option.mem_some_iff, exists_eq_left']
        omega

theorem nonempty_runsWhere : ∀ r ∈ runsWhere keep x1 x2 y, r.x1 ≤ r.x2 := nonempty_keptRuns (by simp)

theorem covers_runsWhere :
    (∃ r ∈ runsWhere keep x1 x2 y, r.Covers p) ↔
      p.y = y ∧ (x1 ≤ p.x ∧ p.x ≤ x2) ∧ keep p.x = true := by
  rw [runsWhere, covers_keptRuns (by simp)]
  refine and_congr_right fun _ => ?_
  by_cases hk : keep p.x = true
  · simp [hk]; omega
  · simp [hk]

namespace EllipseArc

/-! ## The three shapes -/

theorem mem_eraseReps_loop {a : Point} {ps acc : List Point} :
    p ∈ List.eraseRepsBy.loop (· == ·) a ps acc ↔ p = a ∨ p ∈ ps ∨ p ∈ acc := by
  induction ps generalizing a acc with
  | nil => simp [List.eraseRepsBy.loop, or_comm]
  | cons b ps ih =>
    rw [List.eraseRepsBy.loop]
    split
    next h =>
      rw [ih, ← LawfulBEq.eq_of_beq h, List.mem_cons]
      tauto
    next =>
      rw [ih, List.mem_cons, List.mem_cons]
      tauto

theorem mem_eraseReps {ps : List Point} : p ∈ ps.eraseReps ↔ p ∈ ps := by
  cases ps with
  | nil => rfl
  | cons a ps => exact mem_eraseReps_loop.trans (by simp)

theorem mem_outline {a : EllipseArc} {rc : Rect} {p : Point} :
    p ∈ a.outline rc ↔ rc.contains p.x p.y = true ∧
      (∃ r ∈ Ellipse.runs a.centre a.rx a.ry, p = ⟨r.x1, r.y⟩ ∨ p = ⟨r.x2, r.y⟩) ∧
        a.keepsOffset (p.x - a.centre.x) (p.y - a.centre.y) = true := by
  simp [outline, mem_eraseReps, and_assoc, and_left_comm]

theorem cutBy_outline (a : EllipseArc) :
    CutBy (fun rc => (a.outline rc).map fun p => (⟨p.x, p.x, p.y⟩ : Run)) fun p =>
      (∃ r ∈ Ellipse.runs a.centre a.rx a.ry, p = ⟨r.x1, r.y⟩ ∨ p = ⟨r.x2, r.y⟩) ∧
        a.keepsOffset (p.x - a.centre.x) (p.y - a.centre.y) = true where
  nonempty rc r hr := by
    obtain ⟨p, -, rfl⟩ := List.mem_map.mp hr
    exact Int.le_refl _
  covers rc p := by
    have hcovers : (∃ r ∈ (a.outline rc).map fun p => (⟨p.x, p.x, p.y⟩ : Run), r.Covers p) ↔
        p ∈ a.outline rc := by
      simp only [List.mem_map, Run.Covers]
      constructor
      · rintro ⟨r, ⟨q, hq, rfl⟩, hy, hl, hr⟩
        have hx : p.x = q.x := Int.le_antisymm hr hl
        obtain ⟨px, py⟩ := p
        simp only at hx hy
        rw [hx, hy]
        exact hq
      · intro hp
        exact ⟨_, ⟨p, hp, rfl⟩, rfl, Int.le_refl _, Int.le_refl _⟩
    rw [hcovers]
    exact mem_outline

theorem covers_sliceRow {a : EllipseArc} {x1 x2 y : Int} {p : Point} :
    (∃ r ∈ a.sliceRow x1 x2 y, r.Covers p) ↔ p.y = y ∧ (x1 ≤ p.x ∧ p.x ≤ x2) ∧
      (a.sweep.isFull = true ∨ a.keepsOffset (p.x - a.centre.x) (y - a.centre.y) = true) := by
  rw [sliceRow]
  split
  next h => simp; omega
  next =>
    split
    next hfull => simp [Run.Covers, hfull]
    next hpart => rw [covers_runsWhere]; simp [hpart]

theorem nonempty_sliceRow {a : EllipseArc} {x1 x2 y : Int} : ∀ r ∈ a.sliceRow x1 x2 y, r.x1 ≤ r.x2 := by
  rw [sliceRow]
  split
  next => simp
  next h =>
    split
    next => simp; omega
    next => exact nonempty_runsWhere

theorem cutBy_pie (a : EllipseArc) : CutBy a.pie fun p =>
    ∃ (i : Nat) (x1 x2 : Int), (Ellipse.rowExtents a.centre a.rx a.ry)[i]? = some (some (x1, x2)) ∧
      p.y = a.top + i ∧ (x1 ≤ p.x ∧ p.x ≤ x2) ∧
      (a.sweep.isFull = true ∨ a.keepsOffset (p.x - a.centre.x) (p.y - a.centre.y) = true) where
  nonempty rc r hr := by
    obtain ⟨i, -, hr⟩ := List.mem_flatMap.mp hr
    split at hr
    · exact nonempty_sliceRow r hr
    · exact absurd hr List.not_mem_nil
  covers rc p := by
    simp only [pie, sliceRows, List.mem_flatMap, List.mem_range'_1]
    constructor
    · rintro ⟨r, ⟨i, hi, hr⟩, hp⟩
      split at hr
      next x1 x2 hrow =>
        obtain ⟨hy, hx, hkeep⟩ := covers_sliceRow.mp ⟨r, hr, hp⟩
        rw [← hy] at hkeep
        refine ⟨Rect.contains_iff.mpr (by omega), i, x1, x2, hrow, hy, by omega, hkeep⟩
      next => exact absurd hr List.not_mem_nil
    · rintro ⟨hrc, i, x1, x2, hrow, hy, hx, hkeep⟩
      have hrc := Rect.contains_iff.mp hrc
      have hlt := (Array.getElem?_eq_some_iff.mp hrow).1
      have hin : max x1 rc.left ≤ p.x ∧ p.x ≤ min x2 (rc.right - 1) := by omega
      rw [hy] at hkeep
      obtain ⟨r, hr, hp⟩ := covers_sliceRow.mpr ⟨hy, hin, hkeep⟩
      exact ⟨r, ⟨i, by omega, by simpa only [hrow] using hr⟩, hp⟩

/-- The rows of the rectangle, counted from the top of the ellipse, fit in 32 bits. -/
def RowsFit (a : EllipseArc) (rc : Rect) : Prop := Fits32 (rc.top - a.top) ∧ Fits32 (rc.bottom - a.top)

instance (a : EllipseArc) (rc : Rect) : Decidable (a.RowsFit rc) := inferInstanceAs (Decidable (_ ∧ _))

/-- The rectangle of all rows and columns. -/
def everywhere : Rect := ⟨-2147483648, -2147483648, 2147483647, 2147483647⟩

theorem slice_eq_pie {a : EllipseArc} {rc : Rect} (h : a.RowsFit rc) : a.slice rc = a.pie rc := by
  rw [slice, pie, h.1.wrap, h.2.wrap]

theorem cutBy_ring (a : EllipseArc) (penWidth : Int) : CutBy (a.ring penWidth) fun p =>
    (-reach a.ry penWidth ≤ p.y - a.centre.y ∧ p.y - a.centre.y ≤ reach a.ry penWidth) ∧
    (a.centre.x - reach a.rx penWidth ≤ p.x ∧ p.x ≤ a.centre.x + reach a.rx penWidth) ∧
    (a.inRing penWidth (p.x - a.centre.x) (p.y - a.centre.y) &&
      a.keepsOffset (p.x - a.centre.x) (p.y - a.centre.y)) = true where
  nonempty rc r hr := by
    obtain ⟨dy, -, hr⟩ := List.mem_flatMap.mp hr
    exact nonempty_runsWhere r hr
  covers rc p := by
    simp only [ring, List.mem_flatMap, mem_irange]
    constructor
    · rintro ⟨r, ⟨dy, hdy, hr⟩, hp⟩
      obtain ⟨hy, hx, hkeep⟩ := covers_runsWhere.mp ⟨r, hr, hp⟩
      obtain rfl : dy = p.y - a.centre.y := by omega
      exact ⟨Rect.contains_iff.mpr (by omega), by omega, by omega, hkeep⟩
    · rintro ⟨hrc, hdy, hx, hkeep⟩
      have hrc := Rect.contains_iff.mp hrc
      have hy : p.y = a.centre.y + (p.y - a.centre.y) := by omega
      have hrow : ∃ r ∈ runsWhere (fun x => a.inRing penWidth (x - a.centre.x) (p.y - a.centre.y) &&
          a.keepsOffset (x - a.centre.x) (p.y - a.centre.y))
          (max (a.centre.x - reach a.rx penWidth) rc.left)
          (min (a.centre.x + reach a.rx penWidth) (rc.right - 1)) (a.centre.y + (p.y - a.centre.y)),
          r.Covers p := covers_runsWhere.mpr ⟨hy, by omega, hkeep⟩
      obtain ⟨r, hr, hp⟩ := hrow
      exact ⟨r, ⟨p.y - a.centre.y, by omega, hr⟩, hp⟩

end EllipseArc

end Rasterizer
