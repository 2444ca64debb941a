import Rasterizer.Line.Clip
import Rasterizer.Proofs.Line.Places

/-! # A clipped line is the visible part of the line

The moves of a walk whose places lie in a rectangle are one stretch: along each axis the
place moves one way only, so each edge of the rectangle bounds the moves on one side, and
exact division finds the bound. -/

namespace Rasterizer.LineWalk

/-- The coordinate reached from `a` by `k` steps in the direction of the distance `d`. -/
def advance (a d k : Int) : Int := a + (if 0 < d then 1 else -1) * k

theorem le_advance_iff {a d k lo hi : Int} :
    (lo ≤ advance a d k ∧ advance a d k ≤ hi) ↔
      (stepBounds (0 < d) a lo hi).1 ≤ k ∧ k ≤ (stepBounds (0 < d) a lo hi).2 := by
  unfold advance stepBounds
  by_cases h : 0 < d <;> simp [h] <;> omega

/-- The steps aside of the first `k` moves are `flo` at least and `fhi` at most exactly when `k`
lies between the two quotients. -/
theorem quotient_bounds {major minor error flo fhi k : Int} (hM : 0 < major) (hm : 0 < minor) :
    (flo ≤ (error + k * minor) / major ∧ (error + k * minor) / major ≤ fhi) ↔
      ceilDiv (flo * major - error) minor ≤ k ∧
        k ≤ floorDiv ((fhi + 1) * major - error - 1) minor := by
  rw [ceilDiv_le_iff hm, le_floorDiv_iff hm, Int.le_ediv_iff_mul_le hM,
    ← Int.lt_add_one_iff (b := fhi), Int.ediv_lt_iff_lt_mul hM]
  constructor <;> rintro ⟨h1, h2⟩ <;> constructor <;> omega

/-- A stretch is given by its ends, when it has any moves. -/
theorem stretch_iff {first last k : Int} :
    (∃ m, (if last < first then none else some (first, last)) = some m ∧ m.1 ≤ k ∧ k ≤ m.2) ↔
      first ≤ k ∧ k ≤ last := by
  constructor
  · rintro ⟨m, hm, h1, h2⟩
    split at hm
    · cases hm
    · cases hm; exact ⟨h1, h2⟩
  · rintro ⟨h1, h2⟩
    exact ⟨(first, last), if_neg (by omega), h1, h2⟩

/-- The moves found are those of the walk, from none to all, whose place lies inside. -/
theorem movesWithin?_spec {a0 da alo ahi b0 db blo bhi k : Int} (hle : db.natAbs ≤ da.natAbs)
    (h0 : 0 ≤ k) (hk : k ≤ da.natAbs) :
    ((alo ≤ advance a0 da k ∧ advance a0 da k ≤ ahi) ∧
      (blo ≤ advance b0 db (((da.natAbs : Int) / 2 + k * db.natAbs) / da.natAbs) ∧
        advance b0 db (((da.natAbs : Int) / 2 + k * db.natAbs) / da.natAbs) ≤ bhi)) ↔
      ∃ m, movesWithin? a0 da alo ahi b0 db blo bhi = some m ∧ m.1 ≤ k ∧ k ≤ m.2 := by
  rw [le_advance_iff, le_advance_iff]
  simp only [movesWithin?]
  generalize stepBounds (0 < da) a0 alo ahi = K
  generalize stepBounds (0 < db) b0 blo bhi = F
  have hle' : (db.natAbs : Int) ≤ da.natAbs := by exact_mod_cast hle
  have hm0 : (0 : Int) ≤ db.natAbs := Int.natCast_nonneg _
  generalize (da.natAbs : Int) = major at *
  generalize (db.natAbs : Int) = minor at *
  by_cases hm : minor = 0
  · -- without a step aside the shorter coordinate stays where it is
    have hzero : (major / 2 + k * minor) / major = 0 := by
      rw [hm, mul_zero, add_zero]
      rcases eq_or_ne major 0 with hz | hz
      · rw [hz, Int.ediv_zero]
      · exact Int.ediv_eq_zero_of_lt (by omega) (by omega)
    rw [hzero, if_pos hm]
    split
    · constructor
      · intro h; omega
      · rintro ⟨m, hm, -⟩; cases hm
    · rw [stretch_iff]; omega
  · rw [quotient_bounds (by omega) (by omega), if_neg hm, stretch_iff]
    omega

/-- Only moves of the walk are found, and one at least. -/
theorem movesWithin?_range {a0 da alo ahi b0 db blo bhi : Int} {m : Int × Int}
    (h : movesWithin? a0 da alo ahi b0 db blo bhi = some m) :
    0 ≤ m.1 ∧ m.1 ≤ m.2 ∧ m.2 ≤ da.natAbs := by
  simp only [movesWithin?] at h
  split at h
  · split at h
    · cases h
    · split at h
      · cases h
      · cases h; exact ⟨by omega, by omega, by omega⟩
  · split at h
    · cases h
    · cases h; exact ⟨by omega, by omega, by omega⟩

/-! ## The places of the walk between two points -/

theorem between_moves (p q : Point) :
    ((between p q).moves : Int) = max ((q.x - p.x).natAbs : Int) (q.y - p.y).natAbs := by
  simp only [between]
  omega

theorem place_between_alongX {p q : Point} (h : (q.y - p.y).natAbs ≤ (q.x - p.x).natAbs) (k : Int) :
    (between p q).place k = ⟨advance p.x (q.x - p.x) k, advance p.y (q.y - p.y)
      ((((q.x - p.x).natAbs : Int) / 2 + k * (q.y - p.y).natAbs) / (q.x - p.x).natAbs)⟩ := by
  have hle : ((q.y - p.y).natAbs : Int) ≤ (q.x - p.x).natAbs := by exact_mod_cast h
  simp only [place, displaced, aside, between, hle, decide_true, if_true, max_eq_left,
    min_eq_right, advance, Int.sub_pos]

theorem place_between_alongY {p q : Point} (h : ¬(q.y - p.y).natAbs ≤ (q.x - p.x).natAbs)
    (k : Int) :
    (between p q).place k = ⟨advance p.x (q.x - p.x)
      ((((q.y - p.y).natAbs : Int) / 2 + k * (q.x - p.x).natAbs) / (q.y - p.y).natAbs),
      advance p.y (q.y - p.y) k⟩ := by
  have hlt : ¬((q.y - p.y).natAbs : Int) ≤ (q.x - p.x).natAbs := by exact_mod_cast h
  have hle := (not_le.mp hlt).le
  simp only [place, displaced, aside, between, hlt, decide_false, Bool.false_eq_true, if_false,
    max_eq_right hle, min_eq_left hle, advance, Int.sub_pos]

/-- The places inside the rectangle are those of the moves found. -/
theorem contains_place_iff {p q : Point} {clip : Rect} {k : Int} (h0 : 0 ≤ k)
    (hk : k ≤ (between p q).moves) :
    clip.contains ((between p q).place k).x ((between p q).place k).y = true ↔
      ∃ m, visibleMoves? p q clip = some m ∧ m.1 ≤ k ∧ k ≤ m.2 := by
  rw [between_moves] at hk
  rw [Rect.contains_iff]
  by_cases h : (q.y - p.y).natAbs ≤ (q.x - p.x).natAbs
  · simp only [visibleMoves?, if_pos h, place_between_alongX h]
    rw [← movesWithin?_spec h h0 (by omega)]
    omega
  · simp only [visibleMoves?, if_neg h, place_between_alongY h]
    rw [← movesWithin?_spec (by omega) h0 (by omega)]
    omega

theorem visibleMoves?_range {p q : Point} {clip : Rect} {m : Int × Int}
    (h : visibleMoves? p q clip = some m) :
    0 ≤ m.1 ∧ m.1 ≤ m.2 ∧ m.2 ≤ (between p q).moves := by
  rw [between_moves]
  simp only [visibleMoves?] at h
  split at h
  · obtain ⟨h0, h1, h2⟩ := movesWithin?_range h
    exact ⟨h0, h1, by omega⟩
  · obtain ⟨h0, h1, h2⟩ := movesWithin?_range h
    exact ⟨h0, h1, by omega⟩

theorem advance_between {a d k : Int} (h0 : 0 ≤ k) (hk : k ≤ d.natAbs) :
    min a (a + d) ≤ advance a d k ∧ advance a d k ≤ max a (a + d) := by
  unfold advance
  split <;> omega

/-- No more moves go aside than the shorter distance has pixels. -/
theorem aside_bounds (major minor : Int) {k : Int} (hm : 0 ≤ minor) (hle : minor ≤ major) (h0 : 0 ≤ k)
    (hk : k ≤ major) :
    0 ≤ (major / 2 + k * minor) / major ∧ (major / 2 + k * minor) / major ≤ minor := by
  have hprod : 0 ≤ k * minor := mul_nonneg h0 hm
  rcases eq_or_lt_of_le (hm.trans hle) with hz | hpos
  · rw [← hz, Int.ediv_zero]
    exact ⟨le_rfl, hm⟩
  · refine ⟨Int.ediv_nonneg (by omega) hpos.le, ?_⟩
    rw [← Int.lt_add_one_iff, Int.ediv_lt_iff_lt_mul hpos]
    have : k * minor ≤ major * minor := mul_le_mul_of_nonneg_right hk hm
    rw [add_mul, one_mul, mul_comm minor major]
    omega

/-- No place of the walk lies outside the box of its ends. -/
theorem place_in_box {p q : Point} {k : Int} (h0 : 0 ≤ k) (hk : k ≤ (between p q).moves) :
    (min p.x q.x ≤ ((between p q).place k).x ∧ ((between p q).place k).x ≤ max p.x q.x) ∧
      min p.y q.y ≤ ((between p q).place k).y ∧ ((between p q).place k).y ≤ max p.y q.y := by
  rw [between_moves] at hk
  have hx : p.x + (q.x - p.x) = q.x := by ring
  have hy : p.y + (q.y - p.y) = q.y := by ring
  by_cases h : (q.y - p.y).natAbs ≤ (q.x - p.x).natAbs
  · rw [place_between_alongX h]
    obtain ⟨ha, hb⟩ := aside_bounds (q.x - p.x).natAbs (q.y - p.y).natAbs (by omega)
      (by omega) h0 (by omega)
    have hX := advance_between (a := p.x) (d := q.x - p.x) h0 (by omega)
    have hY := advance_between (a := p.y) (d := q.y - p.y) ha hb
    rw [hx] at hX
    rw [hy] at hY
    exact ⟨hX, hY⟩
  · rw [place_between_alongY h]
    obtain ⟨ha, hb⟩ := aside_bounds (q.y - p.y).natAbs (q.x - p.x).natAbs (by omega)
      (by omega) h0 (by omega)
    have hX := advance_between (a := p.x) (d := q.x - p.x) ha hb
    have hY := advance_between (a := p.y) (d := q.y - p.y) h0 (by omega)
    rw [hx] at hX
    rw [hy] at hY
    exact ⟨hX, hY⟩

/-- A point of the walk is a place of one of its moves. -/
theorem mem_points {p q a : Point} :
    a ∈ (between p q).points ↔
      ∃ k : Int, (0 ≤ k ∧ k ≤ (between p q).moves) ∧ (between p q).place k = a := by
  rw [points_eq (steady_between p q), List.mem_map]
  simp only [mem_irange]

/-- A coordinate on the way is reached by as many steps as it lies apart from the start. -/
theorem advance_natAbs {a d c : Int} (h : min a (a + d) ≤ c ∧ c ≤ max a (a + d)) :
    advance a d (c - a).natAbs = c := by
  unfold advance
  split <;> omega

/-- Between points of one row the walk meets each pixel of the row from the one to the other. -/
theorem mem_points_row {p q a : Point} (h : p.y = q.y) :
    a ∈ (between p q).points ↔ a.y = p.y ∧ min p.x q.x ≤ a.x ∧ a.x ≤ max p.x q.x := by
  have hmoves := between_moves p q
  rw [mem_points]
  constructor
  · rintro ⟨k, ⟨h0, hk⟩, rfl⟩
    have := place_in_box h0 hk
    omega
  · rintro ⟨hy, hx⟩
    have hk : ((a.x - p.x).natAbs : Int) ≤ (between p q).moves := by omega
    have hcolumn : ((between p q).place (a.x - p.x).natAbs).x = a.x := by
      rw [place_between_alongX (by omega)]
      exact advance_natAbs (by omega)
    have hbox := place_in_box (Int.natCast_nonneg _) hk
    have hrow : ((between p q).place (a.x - p.x).natAbs).y = a.y := by omega
    exact ⟨_, ⟨Int.natCast_nonneg _, hk⟩, congrArg₂ Point.mk hcolumn hrow⟩

theorem mem_points_column {p q a : Point} (h : p.x = q.x) (hne : p.y ≠ q.y) :
    a ∈ (between p q).points ↔ a.x = p.x ∧ min p.y q.y ≤ a.y ∧ a.y ≤ max p.y q.y := by
  have hmoves := between_moves p q
  rw [mem_points]
  constructor
  · rintro ⟨k, ⟨h0, hk⟩, rfl⟩
    have := place_in_box h0 hk
    omega
  · rintro ⟨hx, hy⟩
    have hk : ((a.y - p.y).natAbs : Int) ≤ (between p q).moves := by omega
    have hrow : ((between p q).place (a.y - p.y).natAbs).y = a.y := by
      rw [place_between_alongY (by omega)]
      exact advance_natAbs (by omega)
    have hbox := place_in_box (Int.natCast_nonneg _) hk
    have hcolumn : ((between p q).place (a.y - p.y).natAbs).x = a.x := by omega
    exact ⟨_, ⟨Int.natCast_nonneg _, hk⟩, congrArg₂ Point.mk hcolumn hrow⟩

/-! ## Outcodes -/

/-- Codes without a common side leave no side on which both points lie outside. -/
theorem outcode_and_ne_zero {clip : Rect} {x y x' y' : Int}
    (h : clip.outcode x y &&& clip.outcode x' y' ≠ 0) :
    x < clip.left ∧ x' < clip.left ∨ clip.right ≤ x ∧ clip.right ≤ x' ∨
      y < clip.top ∧ y' < clip.top ∨ clip.bottom ≤ y ∧ clip.bottom ≤ y' := by
  revert h
  unfold Rect.outcode
  split_ifs <;> simp_all

theorem outcode_eq_zero_iff {clip : Rect} {x y : Int} :
    clip.outcode x y = 0 ↔ clip.contains x y = true := by
  rw [Rect.contains_iff, Rect.outcode, Nat.or_eq_zero_iff]
  split_ifs <;> simp_all

/-! ## The visible part -/

/-- Entering and leaving the walk at the moves found cuts out its places inside the rectangle. -/
theorem points_window_visible {p q : Point} {clip : Rect} {m : Int × Int}
    (h : visibleMoves? p q clip = some m) :
    ((between p q).window m.1 m.2).points =
      (between p q).points.filter fun a => clip.contains a.x a.y := by
  obtain ⟨h0, hle, hlast⟩ := visibleMoves?_range h
  rw [points_window (steady_between p q) h0 hle hlast, points_eq (steady_between p q),
    List.filter_map]
  refine congrArg _ (filter_irange h0 hle hlast ?_).symm
  intro k hk0 hk
  rw [Function.comp_apply, contains_place_iff hk0 hk]
  simp [h]

theorem not_contains_of_reject {p q : Point} {clip : Rect}
    (h : (clip.outcode p.x p.y &&& clip.outcode q.x q.y) ≠ 0 ∨ clip.isEmpty = true) :
    ∀ a ∈ (between p q).points, clip.contains a.x a.y = false := by
  intro a ha
  obtain ⟨k, ⟨h0, hk⟩, rfl⟩ := mem_points.mp ha
  have hbox := place_in_box h0 hk
  rw [Bool.eq_false_iff, ne_eq, Rect.contains_iff]
  rcases h with hside | hempty
  · have := outcode_and_ne_zero hside
    omega
  · simp only [Rect.isEmpty, Bool.or_eq_true, decide_eq_true_eq] at hempty
    omega

theorem contains_of_accept {p q : Point} {clip : Rect}
    (h : (clip.outcode p.x p.y ||| clip.outcode q.x q.y) = 0) :
    ∀ a ∈ (between p q).points, clip.contains a.x a.y = true := by
  obtain ⟨hp, hq⟩ := Nat.or_eq_zero_iff.mp h
  rw [outcode_eq_zero_iff, Rect.contains_iff] at hp hq
  intro a ha
  obtain ⟨k, ⟨h0, hk⟩, rfl⟩ := mem_points.mp ha
  have hbox := place_in_box h0 hk
  rw [Rect.contains_iff]
  omega

theorem not_contains_of_no_moves {p q : Point} {clip : Rect} (h : visibleMoves? p q clip = none) :
    ∀ a ∈ (between p q).points, clip.contains a.x a.y = false := by
  intro a ha
  obtain ⟨k, ⟨h0, hk⟩, rfl⟩ := mem_points.mp ha
  rw [Bool.eq_false_iff, ne_eq, contains_place_iff h0 hk, h]
  rintro ⟨m, hm, -⟩
  cases hm

/-- A walk begins somewhere. -/
theorem exists_mem_points (w : LineWalk) : ∃ a, a ∈ w.points :=
  List.exists_mem_of_length_pos (by rw [length_points]; omega)

/-- Each way to clip a walk leaves the points inside the rectangle, and gives no walk only when
there are none. -/
theorem clipped?_cases (p q : Point) (clip : Rect) :
    (clipped? p q clip = none ∧ ∀ a ∈ (between p q).points, clip.contains a.x a.y = false) ∨
      ∃ w, clipped? p q clip = some w ∧
        w.points = (between p q).points.filter fun a => clip.contains a.x a.y := by
  unfold clipped? cut?
  dsimp only
  split
  next h => exact .inl ⟨rfl, not_contains_of_reject h⟩
  next =>
    split
    next h =>
      exact .inr ⟨_, rfl, (List.filter_eq_self.mpr (contains_of_accept h)).symm⟩
    next =>
      cases hm : visibleMoves? p q clip with
      | none => exact .inl ⟨rfl, not_contains_of_no_moves hm⟩
      | some m => exact .inr ⟨_, rfl, points_window_visible hm⟩

/-- The clipped walk has the points of the whole walk that the rectangle contains, in their order,
and there is no clipped walk exactly when the rectangle contains none of them. -/
theorem points_clipped (p q : Point) (clip : Rect) :
    ((clipped? p q clip).map points).getD [] =
        ((between p q).points.filter fun a => clip.contains a.x a.y) ∧
      (clipped? p q clip = none ↔
        ∀ a ∈ (between p q).points, clip.contains a.x a.y = false) := by
  rcases clipped?_cases p q clip with ⟨hnone, hout⟩ | ⟨w, hsome, hw⟩
  · have hempty : ((between p q).points.filter fun a => clip.contains a.x a.y) = [] :=
      List.filter_eq_nil_iff.mpr fun a ha => by simp [hout a ha]
    rw [hnone, hempty]
    exact ⟨rfl, iff_of_true rfl hout⟩
  · rw [hsome]
    refine ⟨hw, iff_of_false (by simp) ?_⟩
    intro hout
    -- a clipped walk has a point, and that point is visible
    obtain ⟨a, ha⟩ := exists_mem_points w
    rw [hw, List.mem_filter] at ha
    rw [hout a ha.1] at ha
    exact Bool.false_ne_true ha.2

end Rasterizer.LineWalk
