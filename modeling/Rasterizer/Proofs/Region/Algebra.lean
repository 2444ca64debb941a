import Rasterizer.Proofs.Region.Lookup

/-! # The algebra of regions

The rectangles of a term hold its pixels (`Term.anyContains_eval`). The tests on a region
do not look at all rectangles: one looks in a single band, the other at the bound first.
In a banded region neither makes a difference (`Term.tests_eval`). -/

namespace Rasterizer

/-- Two rectangles overlap when they share a pixel. -/
theorem Rect.overlaps_iff {r rc : Rect} :
    r.overlaps rc = true ↔ ∃ x y, r.contains x y = true ∧ rc.contains x y = true := by
  simp only [← Bool.and_eq_true, ← contains_meet, overlaps, Bool.not_eq_true']
  rw [isEmpty_eq_false_iff]
  constructor
  · rintro ⟨hx, hy⟩
    exact ⟨(r.meet rc).left, (r.meet rc).top,
      contains_iff.mpr ⟨Int.le_refl _, hx, Int.le_refl _, hy⟩⟩
  · rintro ⟨x, y, hxy⟩
    rw [contains_iff] at hxy
    omega

theorem Rect.contains_of_covers {rc r : Rect} (h : rc.covers r = true) {x y : Int}
    (hxy : r.contains x y = true) : rc.contains x y = true := by
  rw [covers_iff] at h
  rw [contains_iff] at hxy ⊢
  omega

namespace Region

/-! ## What the operations hold -/

theorem SetOp.keep_union {a b : Bool} : SetOp.union.keep a b = true ↔ a = true ∨ b = true := by
  simp [keep]

theorem SetOp.keep_intersect {a b : Bool} :
    SetOp.intersect.keep a b = true ↔ a = true ∧ b = true := by
  simp [keep]

theorem SetOp.keep_subtract {a b : Bool} :
    SetOp.subtract.keep a b = true ↔ a = true ∧ ¬b = true := by
  simp [keep]

theorem anyContains_nil {x y : Int} : anyContains [] x y = false := rfl

theorem anyContains_cons {rc : Rect} {rects : List Rect} {x y : Int} :
    anyContains (rc :: rects) x y = (rc.contains x y || anyContains rects x y) := rfl

/-- Rectangles without pixels may be left out. -/
theorem anyContains_filter (rects : List Rect) (x y : Int) :
    anyContains (rects.filter fun rc => !rc.isEmpty) x y = anyContains rects x y := by
  rw [Bool.eq_iff_iff, anyContains_iff, anyContains_iff]
  constructor
  · rintro ⟨rc, hrc, hxy⟩
    exact ⟨rc, (List.mem_filter.mp hrc).1, hxy⟩
  · rintro ⟨rc, hrc, hxy⟩
    have hne : rc.isEmpty = false := by
      rw [Rect.isEmpty_eq_false_iff]
      rw [Rect.contains_iff] at hxy
      omega
    exact ⟨rc, List.mem_filter.mpr ⟨hrc, by simp [hne]⟩, hxy⟩

theorem anyContains_combine (op : SetOp) (a : Region) (other : List Rect) (x y : Int) :
    anyContains (combine op a other).rects x y =
      op.keep (anyContains a.rects x y) (anyContains other x y) := by
  rw [← anyContains_filter other, Bool.eq_iff_iff, ← (combineBands_spec op _ _).2]
  exact anyContains_flatMap_rects

theorem anyContains_combineRect (op : SetOp) (a : Region) (rc : Rect) (x y : Int) :
    anyContains (combine op a [rc]).rects x y =
      op.keep (anyContains a.rects x y) (rc.contains x y) := by
  rw [anyContains_combine, anyContains_cons, anyContains_nil, Bool.or_false]

theorem anyContains_ofRect (rc : Rect) (x y : Int) :
    anyContains (ofRect rc).rects x y = rc.normalized.contains x y := by
  unfold ofRect
  split
  next hempty =>
    rw [Bool.eq_iff_iff, anyContains_iff]
    constructor
    · rintro ⟨_, hmem, -⟩
      cases hmem
    · intro hxy
      rw [Rect.contains_iff] at hxy
      have : rc.normalized.isEmpty = false := by
        rw [Rect.isEmpty_eq_false_iff]
        omega
      rw [this] at hempty
      cases hempty
  next => simp [anyContains]

theorem anyContains_foldl_unionRect (a : Region) (rcs : List Rect) (x y : Int) :
    anyContains (rcs.foldl unionRect a).rects x y = true ↔
      anyContains a.rects x y = true ∨ ∃ rc ∈ rcs, rc.normalized.contains x y = true := by
  induction rcs generalizing a with
  | nil => simp
  | cons rc rcs ih =>
    rw [List.foldl_cons, ih, unionRect, anyContains_combineRect]
    simp only [SetOp.keep_union, List.mem_cons, exists_eq_or_imp, or_assoc]

theorem anyContains_shift (a : Region) (dx dy x y : Int) :
    anyContains (a.shift dx dy).rects x y = anyContains a.rects (x - dx) (y - dy) := by
  rw [anyContains, shift, List.any_map]
  refine congrArg (List.any a.rects) (funext ?_)
  intro rc
  rw [Bool.eq_iff_iff, Function.comp_apply, Rect.contains_iff, Rect.contains_iff, Rect.shift]
  dsimp only
  omega

theorem Term.anyContains_eval (e : Term) (x y : Int) :
    anyContains e.eval.rects x y = true ↔ (⟨x, y⟩ : Point) ∈ e.pixels := by
  induction e generalizing x y with
  | empty => exact ⟨fun h => (nomatch h), fun h => h.elim⟩
  | rect rc => rw [eval, anyContains_ofRect]; rfl
  | rects rcs =>
    rw [eval, ofRects, anyContains_foldl_unionRect]
    exact or_iff_right Bool.false_ne_true
  | unionRect e rc ih =>
    rw [eval, Region.unionRect, anyContains_combineRect, SetOp.keep_union, ih]
    exact Iff.rfl
  | intersectRect e rc ih =>
    rw [eval, Region.intersectRect, anyContains_combineRect, SetOp.keep_intersect, ih]
    exact Iff.rfl
  | subtractRect e rc ih =>
    rw [eval, Region.subtractRect, anyContains_combineRect, SetOp.keep_subtract, ih]
    exact Iff.rfl
  | union e f ihe ihf =>
    rw [eval, Region.union, anyContains_combine, SetOp.keep_union, ihe, ihf]
    exact Iff.rfl
  | intersect e f ihe ihf =>
    rw [eval, Region.intersect, anyContains_combine, SetOp.keep_intersect, ihe, ihf]
    exact Iff.rfl
  | offset e dx dy ih =>
    rw [eval, anyContains_shift, ih, pixels, Set.mem_image]
    constructor
    · intro hp
      exact ⟨_, hp, by simp [Point.shift]⟩
    · rintro ⟨p, hp, hshift⟩
      obtain ⟨hx, hy⟩ := Point.mk.inj hshift
      have : p = ⟨x - dx, y - dy⟩ := by
        cases p
        simp only [Point.mk.injEq] at hx hy ⊢
        omega
      rwa [← this]

/-! ## The tests -/

theorem Banded.overlapsRect_iff {a : Region} (h : a.Banded) (rc : Rect) :
    a.overlapsRect rc = true ↔ ∃ x y, anyContains a.rects x y = true ∧ rc.contains x y = true := by
  simp only [overlapsRect, Bool.and_eq_true, List.any_eq_true, Rect.overlaps_iff, anyContains_iff]
  constructor
  · rintro ⟨-, r, hr, x, y, hxy, hrc⟩
    exact ⟨x, y, ⟨r, hr, hxy⟩, hrc⟩
  · rintro ⟨x, y, ⟨r, hr, hxy⟩, hrc⟩
    exact ⟨⟨x, y, Rect.contains_of_covers (h.bound_covers r hr) hxy, hrc⟩, r, hr, x, y, hxy, hrc⟩

theorem Term.contains_eval (e : Term) (x y : Int) :
    e.eval.contains x y = true ↔ (⟨x, y⟩ : Point) ∈ e.pixels := by
  rw [e.banded_eval.contains_eq, anyContains_eval]

/-- A region is the set of pixels of its term to both tests. The operations make this region as long as
no move takes an edge out of 32 bits (`Term.run_eq_eval`). -/
theorem Term.tests_eval (e : Term) :
    (∀ x y, e.eval.contains x y = true ↔ (⟨x, y⟩ : Point) ∈ e.pixels) ∧
      ∀ rc, e.eval.overlapsRect rc = true ↔ (e.pixels ∩ rc.pixels).Nonempty := by
  refine ⟨e.contains_eval, fun rc => ?_⟩
  rw [e.banded_eval.overlapsRect_iff]
  simp only [anyContains_eval]
  constructor
  · rintro ⟨x, y, he, hrc⟩
    exact ⟨⟨x, y⟩, he, hrc⟩
  · rintro ⟨⟨x, y⟩, he, hrc⟩
    exact ⟨x, y, he, hrc⟩

end Region

end Rasterizer
